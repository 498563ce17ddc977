import NixWasm.ByteStore
import NixWasm.Effects
import Mathlib.Data.List.Nodup
import Mathlib.Data.Nat.Bitwise
import Mathlib.Tactic.IntervalCases

/-!
The dirty-sector journal of virtio/blk-disk.ts: a bitmap with one bit a sector, the
CBHD overlay that holds the dirty sectors, and its application to an image. An
overlay of the sectors in which two images differ turns one into the other.
-/
namespace NixWasm.BlkDisk

open Bytes ByteStore Effects

def blkSector : ℕ := 512
/-- The bytes of `DISK_OVERLAY_MAGIC`, "CBHD". -/
def diskOverlayMagic : List UInt8 := [0x43, 0x42, 0x48, 0x44]
def diskOverlayVersion : ℕ := 1
def stateDiskCopyMaxBytes : ℕ := 64 * 1024 * 1024

section Bitmap

def loadByte (bitmap : List UInt8) (i : ℕ) : UInt8 := bitmap.getD i 0

def orByte (bitmap : List UInt8) (i : ℕ) (mask : UInt8) : List UInt8 :=
  bitmap.modify i (· ||| mask)

def andByte (bitmap : List UInt8) (i : ℕ) (mask : UInt8) : List UInt8 :=
  bitmap.modify i (· &&& mask)

/-- The mask of a sector inside its byte. -/
def bitOf (s : ℕ) : UInt8 := 1 <<< UInt8.ofNat (s % 8)

/-- The test `loadByte(dirtyBitmap, s >> 3) & bit`. -/
def isDirty (bitmap : List UInt8) (s : ℕ) : Bool := loadByte bitmap (s / 8) &&& bitOf s != 0

/-- Bytes needed for a dirty bitmap covering `capacityBytes`. -/
def dirtyBitmapBytes (capacityBytes : ℕ) : ℕ := (capacityBytes / blkSector + 7) / 8

/-- Mark sectors [sector, sector+count) dirty. -/
def markDirty (bitmap : List UInt8) (sector count : ℕ) : List UInt8 :=
  (List.range' sector count).foldl (fun b s => orByte b (s / 8) (bitOf s)) bitmap

def clearDirty (bitmap : List UInt8) (s : ℕ) : List UInt8 := andByte bitmap (s / 8) (~~~bitOf s)

theorem bitOf_toNat (s : ℕ) : (bitOf s).toNat = 2 ^ (s % 8) := by
  have hlt : s % 8 < 8 := Nat.mod_lt _ (by decide)
  unfold bitOf
  interval_cases s % 8 <;> rfl

/-- The bit of a sector in the byte that holds it. -/
theorem and_bitOf_ne_zero (x : UInt8) (s : ℕ) :
    (x &&& bitOf s != 0) = x.toNat.testBit (s % 8) := by
  have hzero : x &&& bitOf s = 0 ↔ x.toNat.testBit (s % 8) = false := by
    rw [← UInt8.toNat_inj, UInt8.toNat_and, bitOf_toNat, Nat.and_two_pow]
    cases x.toNat.testBit (s % 8) <;> simp
  cases hbit : x.toNat.testBit (s % 8) with
  | false => simpa using hzero.mpr hbit
  | true =>
    have hne : x &&& bitOf s ≠ 0 := fun h => by simp [hzero.mp h] at hbit
    simpa using hne

theorem testBit_or_bitOf (x : UInt8) (s : ℕ) (k : ℕ) :
    (x ||| bitOf s).toNat.testBit k = (x.toNat.testBit k || decide (s % 8 = k)) := by
  rw [UInt8.toNat_or, Nat.testBit_or, bitOf_toNat, Nat.testBit_two_pow]

theorem testBit_and_not_bitOf (x : UInt8) (s : ℕ) {k : ℕ} (hk : k < 8) :
    (x &&& ~~~bitOf s).toNat.testBit k = (x.toNat.testBit k && !decide (s % 8 = k)) := by
  have hnot : (~~~bitOf s).toNat.testBit k = !(bitOf s).toNat.testBit k := by
    change (~~~bitOf s).toBitVec.getLsbD k = !(bitOf s).toBitVec.getLsbD k
    rw [UInt8.toBitVec_not, BitVec.getLsbD_not, decide_eq_true hk, Bool.true_and]
  rw [UInt8.toNat_and, Nat.testBit_and, hnot, bitOf_toNat, Nat.testBit_two_pow]

theorem isDirty_eq (bitmap : List UInt8) (s : ℕ) :
    isDirty bitmap s = (loadByte bitmap (s / 8)).toNat.testBit (s % 8) :=
  and_bitOf_ne_zero _ _

theorem loadByte_modify (bitmap : List UInt8) (i j : ℕ) (f : UInt8 → UInt8)
    (h : i < bitmap.length) :
    loadByte (bitmap.modify i f) j = if i = j then f (loadByte bitmap j)
      else loadByte bitmap j := by
  unfold loadByte
  rw [List.getD_eq_getElem?_getD, List.getD_eq_getElem?_getD, List.getElem?_modify]
  by_cases hij : i = j
  · subst hij
    simp [List.getElem?_eq_getElem h]
  · simp [hij]

theorem isDirty_orByte (bitmap : List UInt8) (s t : ℕ) (h : t / 8 < bitmap.length) :
    isDirty (orByte bitmap (t / 8) (bitOf t)) s = (isDirty bitmap s || decide (s = t)) := by
  rw [isDirty_eq, isDirty_eq, orByte, loadByte_modify _ _ _ _ h]
  by_cases hbyte : t / 8 = s / 8
  · have heq : (t % 8 = s % 8) ↔ s = t := by omega
    rw [if_pos hbyte, testBit_or_bitOf]
    simp [heq]
  · have hne : s ≠ t := by
      rintro rfl
      exact hbyte rfl
    rw [if_neg hbyte]
    simp [hne]

theorem isDirty_clearDirty (bitmap : List UInt8) (s t : ℕ) (h : t / 8 < bitmap.length) :
    isDirty (clearDirty bitmap t) s = (isDirty bitmap s && !decide (s = t)) := by
  rw [isDirty_eq, isDirty_eq, clearDirty, andByte, loadByte_modify _ _ _ _ h]
  by_cases hbyte : t / 8 = s / 8
  · have heq : (t % 8 = s % 8) ↔ s = t := by omega
    rw [if_pos hbyte, testBit_and_not_bitOf _ _ (Nat.mod_lt _ (by decide))]
    simp [heq]
  · have hne : s ≠ t := by
      rintro rfl
      exact hbyte rfl
    rw [if_neg hbyte]
    simp [hne]

@[simp] theorem orByte_length (bitmap : List UInt8) (i : ℕ) (mask : UInt8) :
    (orByte bitmap i mask).length = bitmap.length := List.length_modify ..

@[simp] theorem clearDirty_length (bitmap : List UInt8) (s : ℕ) :
    (clearDirty bitmap s).length = bitmap.length := List.length_modify ..

@[simp] theorem markDirty_length (bitmap : List UInt8) (sector count : ℕ) :
    (markDirty bitmap sector count).length = bitmap.length := by
  unfold markDirty
  induction count generalizing bitmap sector with
  | zero => rfl
  | succ count ih => rw [List.range'_succ, List.foldl_cons, ih, orByte_length]

/-- Marking sets the bits of its range and no other. -/
theorem isDirty_markDirty (bitmap : List UInt8) (sector count s : ℕ)
    (h : sector + count ≤ 8 * bitmap.length) :
    isDirty (markDirty bitmap sector count) s =
      (isDirty bitmap s || decide (sector ≤ s ∧ s < sector + count)) := by
  unfold markDirty
  induction count generalizing bitmap sector with
  | zero =>
    simp
  | succ count ih =>
    have hhead : sector / 8 < bitmap.length := by omega
    have hrange : (sector ≤ s ∧ s < sector + (count + 1)) ↔
        s = sector ∨ (sector + 1 ≤ s ∧ s < sector + 1 + count) := by omega
    rw [List.range'_succ, List.foldl_cons, ih _ _ (by rw [orByte_length]; omega),
      isDirty_orByte _ _ _ hhead, Bool.or_assoc]
    simp only [hrange, Bool.decide_or]

end Bitmap

section Overlay

/-- The bytes of one sector, `image.subarray(s * 512, s * 512 + 512)`. -/
def sectorBytes (image : List UInt8) (s : ℕ) : List UInt8 :=
  (image.drop (s * blkSector)).take blkSector

/-- The scan of packDirtySectors over the sectors still to be tested. -/
def scanDirty (clear : Bool) : List ℕ → List UInt8 → List ℕ × List UInt8
  | [], bitmap => ([], bitmap)
  | s :: rest, bitmap =>
    if isDirty bitmap s then
      let scanned := scanDirty clear rest (if clear then clearDirty bitmap s else bitmap)
      (s :: scanned.1, scanned.2)
    else scanDirty clear rest bitmap

/-- One entry: the sector index and its bytes. -/
def entryBytes (e : ℕ × List UInt8) : List UInt8 := leBytes 4 e.1 ++ e.2

def overlayBytes (entries : List (ℕ × List UInt8)) : List UInt8 :=
  diskOverlayMagic ++ (leBytes 4 diskOverlayVersion ++ (leBytes 4 blkSector ++
    (leBytes 4 entries.length ++ entries.flatMap entryBytes)))

/-- The CBHD bytes and the bitmap after the scan. -/
def packDirtySectors (image bitmap : List UInt8) (clear : Bool) : List UInt8 × List UInt8 :=
  let scanned := scanDirty clear (List.range (image.length / blkSector)) bitmap
  (overlayBytes (scanned.1.map fun s => (s, sectorBytes image s)), scanned.2)

/-- `view.getUint32(off, true)` inside the overlay. -/
def uint32At (overlay : List UInt8) (off : ℕ) : ℕ := leValue ((overlay.drop off).take 4)

/-- The loop of applyDirtyOverlay; the image keeps the entries before a throw. -/
def applyEntries (overlay : List UInt8) : ℕ → ℕ → EStateM Thrown (List UInt8) Unit
  | _, 0 => pure ()
  | off, count + 1 => do
    let index := uint32At overlay off
    let image ← get
    if index * blkSector + blkSector > image.length then
      throw (.error ("blk overlay: sector " ++ toString index ++ " past end of image"))
    set (splice image (index * blkSector) ((overlay.drop (off + 4)).take blkSector))
    applyEntries overlay (off + 4 + blkSector) count

def applyDirtyOverlay (overlay : List UInt8) : EStateM Thrown (List UInt8) Unit := do
  if overlay.length < 16 then throw (.error "blk overlay: truncated header")
  if overlay.take 4 ≠ diskOverlayMagic then throw (.error "blk overlay: bad magic")
  let version := uint32At overlay 4
  if version ≠ diskOverlayVersion then
    throw (.error ("blk overlay: unsupported version " ++ toString version))
  let blockSize := uint32At overlay 8
  if blockSize ≠ blkSector then
    throw (.error ("blk overlay: expected " ++ toString blkSector ++ "-byte blocks, got " ++
      toString blockSize))
  let count := uint32At overlay 12
  if overlay.length < 16 + count * (4 + blkSector) then
    throw (.error "blk overlay: truncated body")
  applyEntries overlay 16 count

theorem scanDirty_fst (clear : Bool) (ss : List ℕ) (hnodup : ss.Nodup) (bitmap : List UInt8)
    (hfits : ∀ s ∈ ss, s / 8 < bitmap.length) :
    (scanDirty clear ss bitmap).1 = ss.filter (isDirty bitmap) := by
  induction ss generalizing bitmap with
  | nil => rfl
  | cons s rest ih =>
    obtain ⟨hs, hrest⟩ := List.nodup_cons.mp hnodup
    have hfits' : ∀ t ∈ rest, t / 8 < bitmap.length :=
      fun t ht => hfits t (List.mem_cons_of_mem _ ht)
    unfold scanDirty
    by_cases hdirty : isDirty bitmap s
    · rw [if_pos hdirty, List.filter_cons_of_pos hdirty]
      cases clear with
      | false => exact congrArg (s :: ·) (ih hrest bitmap hfits')
      | true =>
        have hcleared := ih hrest (clearDirty bitmap s) (by simpa using hfits')
        refine congrArg (s :: ·) (hcleared.trans (List.filter_congr fun t ht => ?_))
        have hne : t ≠ s := fun h => hs (h ▸ ht)
        rw [isDirty_clearDirty _ _ _ (hfits s List.mem_cons_self)]
        simp [hne]
    · rw [if_neg hdirty, List.filter_cons_of_neg hdirty]
      exact ih hrest bitmap hfits'

theorem scanDirty_length (clear : Bool) (ss : List ℕ) (bitmap : List UInt8) :
    (scanDirty clear ss bitmap).2.length = bitmap.length := by
  induction ss generalizing bitmap with
  | nil => rfl
  | cons s rest ih =>
    unfold scanDirty
    by_cases hdirty : isDirty bitmap s
    · rw [if_pos hdirty]
      cases clear with
      | false => exact ih bitmap
      | true => exact (ih _).trans (clearDirty_length bitmap s)
    · rw [if_neg hdirty]
      exact ih bitmap

/-- A clearing scan leaves no bit of the scanned sectors set. -/
theorem isDirty_scanDirty (ss : List ℕ) (bitmap : List UInt8)
    (hfits : ∀ s ∈ ss, s / 8 < bitmap.length) (t : ℕ) :
    isDirty (scanDirty true ss bitmap).2 t = (isDirty bitmap t && !decide (t ∈ ss)) := by
  induction ss generalizing bitmap with
  | nil => simp [scanDirty]
  | cons s rest ih =>
    have hfits' : ∀ t ∈ rest, t / 8 < bitmap.length :=
      fun t ht => hfits t (List.mem_cons_of_mem _ ht)
    unfold scanDirty
    by_cases hdirty : isDirty bitmap s
    · have hcleared := ih (clearDirty bitmap s) (by simpa using hfits')
      rw [isDirty_clearDirty _ _ _ (hfits s List.mem_cons_self)] at hcleared
      rw [if_pos hdirty]
      refine hcleared.trans ?_
      simp [List.mem_cons, Bool.decide_or, Bool.and_assoc]
    · rw [if_neg hdirty, ih bitmap hfits']
      by_cases hts : t = s
      · subst hts
        simp [hdirty]
      · simp [hts]

theorem uint32At_of_drop {overlay rest : List UInt8} {off v : ℕ}
    (h : overlay.drop off = leBytes 4 v ++ rest) (hv : v < 2 ^ 32) : uint32At overlay off = v := by
  have hlen : (leBytes 4 v).length = 4 := leBytes_length 4 v
  unfold uint32At
  rw [h, List.take_left' hlen, leValue_leBytes]
  exact Nat.mod_eq_of_lt (by simpa using hv)

/-- The image after a list of entries. -/
def applySectors (image : List UInt8) (entries : List (ℕ × List UInt8)) : List UInt8 :=
  entries.foldl (fun im e => splice im (e.1 * blkSector) e.2) image

/-- Whole sectors inside an image of the given length. -/
def SectorsIn (length : ℕ) (entries : List (ℕ × List UInt8)) : Prop :=
  ∀ e ∈ entries, e.2.length = blkSector ∧ e.1 * blkSector + blkSector ≤ length

theorem applySectors_length {image : List UInt8} (entries : List (ℕ × List UInt8))
    (hin : SectorsIn image.length entries) :
    (applySectors image entries).length = image.length := by
  induction entries generalizing image with
  | nil => rfl
  | cons e entries ih =>
    obtain ⟨hlen, hfits⟩ := hin e List.mem_cons_self
    have hsplice : (splice image (e.1 * blkSector) e.2).length = image.length :=
      splice_length (by omega)
    refine (ih ?_).trans hsplice
    rw [hsplice]
    exact fun e he => hin e (List.mem_cons_of_mem _ he)

theorem applyEntries_flatMap {overlay : List UInt8} {length : ℕ} (hlength : length < 2 ^ 41)
    (entries : List (ℕ × List UInt8)) (hin : SectorsIn length entries) {off : ℕ}
    {rest : List UInt8} (hdrop : overlay.drop off = entries.flatMap entryBytes ++ rest)
    {image : List UInt8} (himage : image.length = length) :
    applyEntries overlay off entries.length image = .ok () (applySectors image entries) := by
  induction entries generalizing off image with
  | nil => rfl
  | cons e entries ih =>
    obtain ⟨hlen, hfits⟩ := hin e List.mem_cons_self
    have hin' : SectorsIn length entries := fun e he => hin e (List.mem_cons_of_mem _ he)
    simp only [List.flatMap_cons, entryBytes, List.append_assoc] at hdrop
    have hindex : uint32At overlay off = e.1 :=
      uint32At_of_drop hdrop (by simp only [blkSector] at hfits; omega)
    have hdrop4 : overlay.drop (off + 4) = e.2 ++ (entries.flatMap entryBytes ++ rest) := by
      rw [← List.drop_drop, hdrop, List.drop_left' (leBytes_length 4 e.1)]
    have hbytes : (overlay.drop (off + 4)).take blkSector = e.2 := by
      rw [hdrop4, List.take_left' hlen]
    have hnext : overlay.drop (off + 4 + blkSector) = entries.flatMap entryBytes ++ rest := by
      rw [← List.drop_drop, hdrop4, List.drop_left' hlen]
    have hsplice : (splice image (e.1 * blkSector) e.2).length = length := by
      rw [splice_length (by omega), himage]
    have htail := ih hin' hnext hsplice
    have hguard : ¬ e.1 * blkSector + blkSector > image.length := by omega
    simp only [applyEntries, hindex, hbytes, List.length_cons]
    change (if _ then _ else _ : EStateM Thrown (List UInt8) Unit) image = _
    rw [if_neg hguard]
    exact htail

theorem overlayBytes_length {length : ℕ} (entries : List (ℕ × List UInt8))
    (hin : SectorsIn length entries) :
    (overlayBytes entries).length = 16 + entries.length * (4 + blkSector) := by
  have hbody : (entries.flatMap entryBytes).length = entries.length * (4 + blkSector) := by
    induction entries with
    | nil => simp
    | cons e entries ih =>
      have hlen := (hin e List.mem_cons_self).1
      rw [List.flatMap_cons, List.length_append, ih fun e he => hin e (List.mem_cons_of_mem _ he),
        entryBytes, List.length_append, leBytes_length, hlen, List.length_cons]
      ring
  simp only [overlayBytes, diskOverlayMagic, List.length_append, leBytes_length, hbody,
    List.length_cons, List.length_nil]
  omega

/-- Applying packed entries stores them one after the other. -/
theorem applyDirtyOverlay_overlayBytes {length : ℕ} (hlength : length < 2 ^ 41)
    (entries : List (ℕ × List UInt8)) (hin : SectorsIn length entries)
    (hcount : entries.length < 2 ^ 32) {image : List UInt8} (himage : image.length = length) :
    applyDirtyOverlay (overlayBytes entries) image = .ok () (applySectors image entries) := by
  have hlen := overlayBytes_length entries hin
  have h4 : (overlayBytes entries).drop 4 = leBytes 4 diskOverlayVersion ++ (leBytes 4 blkSector ++
      (leBytes 4 entries.length ++ entries.flatMap entryBytes)) := rfl
  have h8 : (overlayBytes entries).drop 8 =
      leBytes 4 blkSector ++ (leBytes 4 entries.length ++ entries.flatMap entryBytes) := rfl
  have h12 : (overlayBytes entries).drop 12 =
      leBytes 4 entries.length ++ entries.flatMap entryBytes := rfl
  have h16 : (overlayBytes entries).drop 16 = entries.flatMap entryBytes ++ [] := by
    rw [List.append_nil]
    rfl
  have hmagic : (overlayBytes entries).take 4 = diskOverlayMagic := rfl
  have hversion := uint32At_of_drop h4 (by decide)
  have hblock := uint32At_of_drop h8 (by decide)
  have hcount' := uint32At_of_drop h12 hcount
  have hheader : ¬ (overlayBytes entries).length < 16 := by omega
  have hbody : ¬ (overlayBytes entries).length < 16 + entries.length * (4 + blkSector) := by omega
  unfold applyDirtyOverlay
  simp only [hversion, hblock, hcount', hmagic, hheader, hbody, if_false, ne_eq, not_true_eq_false]
  exact applyEntries_flatMap hlength entries hin h16 himage

theorem sectorBytes_length {image : List UInt8} {s : ℕ}
    (h : s * blkSector + blkSector ≤ image.length) : (sectorBytes image s).length = blkSector := by
  simp only [sectorBytes, List.length_take, List.length_drop]
  omega

/-- Storing the image's own sectors settles every byte of them. -/
theorem agree_applySectors {owed : ℕ → Prop} {image : List UInt8} (ss : List ℕ)
    (hin : ∀ s ∈ ss, s * blkSector + blkSector ≤ image.length) {saved : List UInt8}
    (h : AgreeExcept (fun p => owed p ∨ p / blkSector ∈ ss) image saved) :
    AgreeExcept owed image (applySectors saved (ss.map fun s => (s, sectorBytes image s))) := by
  induction ss generalizing saved with
  | nil => exact h.mono fun p _ hp => hp.resolve_right (by simp)
  | cons s ss ih =>
    refine ih (fun t ht => hin t (List.mem_cons_of_mem _ ht)) ?_
    change AgreeExcept _ image (splice saved (s * blkSector) (sectorBytes image s))
    refine AgreeExcept.copy_right (h.mono fun p _ hp => ?_) (hin s List.mem_cons_self)
    rcases hp with howed | hmem
    · exact Or.inl (Or.inl howed)
    · rcases List.mem_cons.mp hmem with rfl | hmem
      · right
        have hdiv := Nat.div_add_mod p blkSector
        have hmod : p % blkSector < blkSector := Nat.mod_lt _ (by decide)
        rw [Nat.mul_comm] at hdiv
        omega
      · exact Or.inl (Or.inr hmem)

end Overlay

section Backing

/-- No array buffer is larger; the overlay numbers its sectors in 32 bits. -/
def maxBufferBytes : ℕ := 2 ^ 41

/-- A bitmap with a bit for every sector of an image of whole sectors. -/
structure Covers (image bitmap : List UInt8) : Prop where
  whole : image.length % blkSector = 0
  bits : bitmap.length = dirtyBitmapBytes image.length
  small : image.length < maxBufferBytes

namespace Covers

theorem sector_in {image bitmap : List UInt8} (h : Covers image bitmap) {s : ℕ}
    (hs : s < image.length / blkSector) : s * blkSector + blkSector ≤ image.length := by
  have hwhole := h.whole
  simp only [blkSector] at hs hwhole ⊢
  omega

theorem bit_in {image bitmap : List UInt8} (h : Covers image bitmap) {s : ℕ}
    (hs : s < image.length / blkSector) : s / 8 < bitmap.length := by
  rw [h.bits, dirtyBitmapBytes]
  omega

theorem sector_lt {image bitmap : List UInt8} (h : Covers image bitmap) {p : ℕ}
    (hp : p < image.length) : p / blkSector < image.length / blkSector := by
  have hwhole := h.whole
  simp only [blkSector] at hwhole ⊢
  omega

end Covers

/-- The shared buffers behind a state disk. -/
structure StateDiskBacking where
  image : List UInt8
  dirty : List UInt8
  persistable : Bool
  covers : Covers image dirty

/-- A caller's image. `reusable` says that it spans a whole shared buffer, so that it
is not copied. -/
structure StateDiskImage where
  bytes : List UInt8
  reusable : Bool
  small : bytes.length < maxBufferBytes

theorem covers_fresh {image : List UInt8} (hwhole : image.length % blkSector = 0)
    (hsmall : image.length < maxBufferBytes) :
    Covers image (List.replicate (dirtyBitmapBytes image.length) 0) :=
  ⟨hwhole, List.length_replicate, hsmall⟩

/-- Without an image the disk is a zeroed stub that no save persists. -/
def createStub (stubBytes : ℕ) : Except Thrown StateDiskBacking :=
  if h : stubBytes = 0 ∨ stubBytes % blkSector ≠ 0 then
    .error (.rangeError ("state disk stub must be a positive multiple of " ++
      toString blkSector ++ " bytes"))
  else if hsmall : stubBytes < maxBufferBytes then
    let image := List.replicate stubBytes 0
    .ok ⟨image, List.replicate (dirtyBitmapBytes image.length) 0, false, covers_fresh
      (by rw [List.length_replicate]; omega) (by rw [List.length_replicate]; exact hsmall)⟩
  else .error (.rangeError "Array buffer allocation failed")

/-- The dirty bitmap starts empty: the image is the caller's baseline. -/
def createStateDiskBacking (image : Option StateDiskImage) (stubBytes maxCopyBytes : ℕ) :
    Except Thrown StateDiskBacking :=
  match image with
  | none => createStub stubBytes
  | some source =>
    if h : source.bytes.length = 0 ∨ source.bytes.length % blkSector ≠ 0 then
      .error (.rangeError ("stateDisk.image must be a non-empty multiple of " ++
        toString blkSector ++ " bytes"))
    else if !source.reusable && maxCopyBytes < source.bytes.length then
      .error (.rangeError ("stateDisk.image is " ++ toString source.bytes.length ++
        " bytes; images larger than " ++ toString maxCopyBytes ++
        " bytes must be supplied as a full SharedArrayBuffer to avoid duplicating the disk"))
    else .ok ⟨source.bytes, List.replicate (dirtyBitmapBytes source.bytes.length) 0, true,
      covers_fresh (by omega) source.small⟩

/-- No sector of a new disk is dirty. -/
theorem isDirty_replicate (n s : ℕ) : isDirty (List.replicate n 0) s = false := by
  have hbyte : loadByte (List.replicate n 0) (s / 8) = 0 := by
    simp only [loadByte, List.getD_eq_getElem?_getD, List.getElem?_replicate]
    split <;> rfl
  rw [isDirty_eq, hbyte]
  exact Nat.zero_testBit _

theorem createStateDiskBacking_clean {image : Option StateDiskImage} {stubBytes maxCopyBytes : ℕ}
    {disk : StateDiskBacking}
    (h : createStateDiskBacking image stubBytes maxCopyBytes = .ok disk) (s : ℕ) :
    isDirty disk.dirty s = false := by
  have hfresh : ∃ n, disk.dirty = List.replicate n 0 := by
    unfold createStateDiskBacking at h
    split at h
    · unfold createStub at h
      split at h
      · cases h
      · split at h
        · cases h
          exact ⟨_, rfl⟩
        · cases h
    · split at h
      · cases h
      · split at h
        · cases h
        · cases h
          exact ⟨_, rfl⟩
  obtain ⟨n, hn⟩ := hfresh
  rw [hn]
  exact isDirty_replicate n s

theorem packDirtySectors_fst {image bitmap : List UInt8} (hcovers : Covers image bitmap)
    (clear : Bool) : (packDirtySectors image bitmap clear).1 =
      overlayBytes (((List.range (image.length / blkSector)).filter (isDirty bitmap)).map
        fun s => (s, sectorBytes image s)) := by
  have hscan := scanDirty_fst clear (List.range (image.length / blkSector)) List.nodup_range bitmap
    fun s hs => hcovers.bit_in (List.mem_range.mp hs)
  simp only [packDirtySectors, hscan]

/-- The packed overlay turns every image that differs in dirty sectors only into the
packed one. -/
theorem apply_packDirtySectors {image bitmap saved : List UInt8} (hcovers : Covers image bitmap)
    (h : AgreeExcept (fun p => isDirty bitmap (p / blkSector)) image saved) (clear : Bool) :
    applyDirtyOverlay (packDirtySectors image bitmap clear).1 saved = .ok () image := by
  set dirty := (List.range (image.length / blkSector)).filter (isDirty bitmap) with hdirty
  have hrange : ∀ s ∈ dirty, s * blkSector + blkSector ≤ image.length := fun s hs =>
    hcovers.sector_in (List.mem_range.mp (List.mem_filter.mp hs).1)
  have hin : SectorsIn image.length (dirty.map fun s => (s, sectorBytes image s)) := by
    intro e he
    obtain ⟨s, hs, rfl⟩ := List.mem_map.mp he
    exact ⟨sectorBytes_length (hrange s hs), hrange s hs⟩
  have hcount : (dirty.map fun s => (s, sectorBytes image s)).length < 2 ^ 32 := by
    have hle : dirty.length ≤ image.length / blkSector := by
      simpa using List.length_filter_le (isDirty bitmap) (List.range (image.length / blkSector))
    have hsmall := hcovers.small
    rw [List.length_map]
    simp only [blkSector, maxBufferBytes] at hle hsmall
    omega
  have hagree : AgreeExcept (fun _ => False) image
      (applySectors saved (dirty.map fun s => (s, sectorBytes image s))) := by
    refine agree_applySectors dirty hrange (h.mono fun p hp hbit => Or.inr ?_)
    exact List.mem_filter.mpr ⟨List.mem_range.mpr (hcovers.sector_lt hp), hbit⟩
  rw [packDirtySectors_fst hcovers, applyDirtyOverlay_overlayBytes hcovers.small _ hin hcount
    h.length.symm, ← hagree.eq fun _ _ => id]

/-- A clearing pack leaves no sector of the image dirty. -/
theorem isDirty_packDirtySectors {image bitmap : List UInt8} (hcovers : Covers image bitmap)
    {s : ℕ} (hs : s < image.length / blkSector) :
    isDirty (packDirtySectors image bitmap true).2 s = false := by
  have hscan := isDirty_scanDirty (List.range (image.length / blkSector)) bitmap
    (fun t ht => hcovers.bit_in (List.mem_range.mp ht)) s
  refine hscan.trans ?_
  simp [hs]

theorem covers_packDirtySectors {image bitmap : List UInt8} (hcovers : Covers image bitmap)
    (clear : Bool) : Covers image (packDirtySectors image bitmap clear).2 := by
  refine ⟨hcovers.whole, ?_, hcovers.small⟩
  rw [← hcovers.bits]
  exact scanDirty_length clear _ bitmap

end Backing

end NixWasm.BlkDisk
