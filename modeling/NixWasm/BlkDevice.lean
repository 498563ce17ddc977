import NixWasm.BlkDisk
import NixWasm.Runs
import NixWasm.Vring

/-!
The virtio-blk device of virtio/blk-device.ts. A write request stores its data
segments into the disk image one by one and marks its sectors only after the last of
them. The journal is sound after every request of a run in which no write is refused
with some of its bytes already stored.
-/
namespace NixWasm.BlkDevice

open Bytes ByteStore Effects Virtio BlkDisk Runs

def tIn : ℕ := 0
def tOut : ℕ := 1
def tFlush : ℕ := 4
def sOk : ℕ := 0
def sIoerr : ℕ := 1
def sUnsupp : ℕ := 2

/-- The fields of a block device that its requests read or write. -/
structure Blk where
  image : List UInt8
  readOnly : Bool
  dirtyBitmap : Option (List UInt8)

/-- The T_IN loop; returns the status and the bytes written. -/
def readImage : ℕ → ℕ → List VringSegment → Js (Host Blk) (ℕ × ℕ)
  | _, written, [] => return (sOk, written)
  | pos, written, seg :: rest => do
    let image := (← get).own.image
    if pos + seg.len > image.length then return (sIoerr, written)
    setMem seg.addr ((image.drop pos).take seg.len)
    readImage (pos + seg.len) (written + seg.len) rest

/-- The T_OUT loop; returns the status and the bytes stored. -/
def writeImage : ℕ → ℕ → List VringSegment → Js (Host Blk) (ℕ × ℕ)
  | _, bytes, [] => return (sOk, bytes)
  | pos, bytes, seg :: rest => do
    let image := (← get).own.image
    if pos + seg.len > image.length then return (sIoerr, bytes)
    let src ← memView seg.addr seg.len
    modify fun h => { h with own := { h.own with image := splice image pos src } }
    writeImage (pos + seg.len) (bytes + seg.len) rest

/-- `Math.ceil(bytes / BLK_SECTOR)`. -/
def sectorsOf (bytes : ℕ) : ℕ := (bytes + blkSector - 1) / blkSector

def writeRequest (sector : ℕ) (dataSegs : List VringSegment) : Js (Host Blk) ℕ := do
  if (← get).own.readOnly then return sUnsupp
  let (status, bytes) ← writeImage (sector * blkSector) 0 dataSegs
  if status = sOk ∧ 0 < bytes then
    modify fun h =>
      { h with
        own := { h.own with
          dirtyBitmap := h.own.dirtyBitmap.map (markDirty · sector (sectorsOf bytes)) } }
  return status

/-- The status and the bytes written of one request. -/
def request (type sector : ℕ) (out in_ : List VringSegment) : Js (Host Blk) (ℕ × ℕ) := do
  if type = tIn then readImage (sector * blkSector) 0 in_.dropLast
  else if type = tOut then return (← writeRequest sector out.tail, 0)
  else if type = tFlush then
    return (if (← get).own.readOnly then sUnsupp else sOk, 0)
  else return (sUnsupp, 0)

/-- Service one request chain: header, data, and a status byte in the last writable
segment. -/
def service (q : ℕ) (ring : VringLayout) (chain : VringChain) : Js (Host Blk) Unit := do
  match chain.out.head?, chain.in_.getLast? with
  | some hdrSeg, some statusSeg =>
    let hdr ← memView hdrSeg.addr 16
    let type := leValue (hdr.take 4)
    let sector := leValue (hdr.drop 8)
    let (status, written) ← request type sector chain.out chain.in_
    setMem statusSeg.addr [UInt8.ofNat status]
    pushUsed q ring chain.head (written + 1)
  | _, _ => pushUsed q ring chain.head 0

/-- A segment of a write that the T_OUT loop refuses at `pos`: past the image, or not
inside the memory. -/
def Refused (imageLength memoryLength pos : ℕ) (seg : VringSegment) : Prop :=
  imageLength < pos + seg.len ∨ memoryLength < seg.addr + seg.len

instance (imageLength memoryLength pos : ℕ) (seg : VringSegment) :
    Decidable (Refused imageLength memoryLength pos seg) := instDecidableOr

/-- The T_OUT loop, which has stored `bytes` bytes, ends with all segments or at one that it
refuses before any byte is stored. -/
def Untorn (imageLength memoryLength : ℕ) : ℕ → ℕ → List VringSegment → Prop
  | _, _, [] => True
  | pos, bytes, seg :: rest =>
    if Refused imageLength memoryLength pos seg then bytes = 0
    else Untorn imageLength memoryLength (pos + seg.len) (bytes + seg.len) rest

section Loop

variable {imageLength memoryLength pos bytes : ℕ} {seg : VringSegment} {rest : List VringSegment}

theorem untorn_refused (h : Untorn imageLength memoryLength pos bytes (seg :: rest))
    (hrefused : Refused imageLength memoryLength pos seg) : bytes = 0 := by
  unfold Untorn at h
  rwa [if_pos hrefused] at h

theorem untorn_tail (h : Untorn imageLength memoryLength pos bytes (seg :: rest))
    (haccepted : ¬ Refused imageLength memoryLength pos seg) :
    Untorn imageLength memoryLength (pos + seg.len) (bytes + seg.len) rest := by
  unfold Untorn at h
  rwa [if_neg haccepted] at h

/-- A write of one segment is never torn. -/
theorem untorn_single (seg : VringSegment) : Untorn imageLength memoryLength pos 0 [seg] := by
  unfold Untorn
  split
  · rfl
  · trivial

end Loop

/-- What the T_OUT loop has done to an image: it differs inside the stored range only. -/
structure Stored (start bytes : ℕ) (old : Blk) (now : Blk) : Prop where
  image : AgreeExcept (fun p => start ≤ p ∧ p < start + bytes) now.image old.image
  readOnly : now.readOnly = old.readOnly
  dirtyBitmap : now.dirtyBitmap = old.dirtyBitmap

theorem stored_refl (start : ℕ) (b : Blk) : Stored start 0 b b := ⟨AgreeExcept.refl _ _, rfl, rfl⟩

/-- The loop stores one range; a refused write has stored nothing. -/
theorem writeImage_stored (old : Blk) (start : ℕ) (segs : List VringSegment) (bytes : ℕ)
    (h : Host Blk) (hstored : Stored start bytes old h.own)
    (hin : 0 < bytes → start + bytes ≤ old.image.length)
    (huntorn : Untorn old.image.length h.memory.length (start + bytes) bytes segs) :
    Wp (writeImage (start + bytes) bytes segs)
      (fun r h' => if r.1 = sOk then
          Stored start r.2 old h'.own ∧ (0 < r.2 → start + r.2 ≤ old.image.length)
        else Stored start 0 old h'.own)
      (fun _ h' => Stored start 0 old h'.own) h := by
  induction segs generalizing bytes h with
  | nil =>
    simp only [writeImage, wp_pure, if_true]
    exact ⟨hstored, hin⟩
  | cons seg rest ih =>
    have hlen : h.own.image.length = old.image.length := hstored.image.length
    have hnothing : Refused old.image.length h.memory.length (start + bytes) seg → bytes = 0 :=
      untorn_refused huntorn
    simp only [writeImage, wp_bind, wp_get, wp_ite, hlen]
    refine ⟨fun hpast => ?_, fun hfits => ?_⟩
    · have hzero : bytes = 0 := hnothing (Or.inl hpast)
      subst hzero
      exact hstored
    · simp only [memView, wp_bind, wp_get]
      cases hload : load h.memory seg.addr seg.len with
      | none =>
        have hzero : bytes = 0 := by
          refine hnothing (Or.inr ?_)
          by_contra hinside
          simp [load, Nat.le_of_not_lt hinside] at hload
        subst hzero
        exact hstored
      | some src =>
        have hsrc : src.length = seg.len := load_length hload
        have hinside : seg.addr + seg.len ≤ h.memory.length := load_inside hload
        simp only [wp_pure, wp_modify, wp_bind]
        rw [Nat.add_assoc]
        refine ih (bytes + seg.len) _ ⟨?_, hstored.readOnly, hstored.dirtyBitmap⟩ ?_ ?_
        · refine AgreeExcept.splice_left (hstored.image.mono fun p _ hp => ?_) (by omega) ?_
          · omega
          · intro p hlow hhigh
            omega
        · omega
        · have haccepted : ¬ Refused old.image.length h.memory.length (start + bytes) seg := by
            intro hrefused
            rcases hrefused with hpast | hout <;> omega
          have htail := untorn_tail huntorn haccepted
          rwa [Nat.add_assoc] at htail

/-- Every byte in which the image differs from `saved` lies in a dirty sector. -/
structure Journaled (saved : List UInt8) (blk : Blk) (bitmap : List UInt8) : Prop where
  dirtyBitmap : blk.dirtyBitmap = some bitmap
  covers : Covers blk.image bitmap
  agree : AgreeExcept (fun p => isDirty bitmap (p / blkSector)) blk.image saved

def HasJournal (saved : List UInt8) (blk : Blk) : Prop := ∃ bitmap, Journaled saved blk bitmap

theorem hasJournal_stored {saved : List UInt8} {start : ℕ} {old now : Blk}
    (hstored : Stored start 0 old now) (h : HasJournal saved old) : HasJournal saved now := by
  obtain ⟨bitmap, hbitmap, hcovers, hagree⟩ := h
  have himage : now.image = old.image := hstored.image.eq fun p _ => by omega
  exact ⟨bitmap, hstored.dirtyBitmap.trans hbitmap, himage ▸ hcovers, himage ▸ hagree⟩

/-- Marking the sectors of the stored range restores the journal. -/
theorem hasJournal_marked {saved : List UInt8} {sector bytes : ℕ} {old now : Blk}
    (hstored : Stored (sector * blkSector) bytes old now)
    (hin : sector * blkSector + bytes ≤ old.image.length) (h : HasJournal saved old) :
    HasJournal saved
      { now with dirtyBitmap := now.dirtyBitmap.map (markDirty · sector (sectorsOf bytes)) } := by
  obtain ⟨bitmap, hbitmap, hcovers, hagree⟩ := h
  have hlen : now.image.length = old.image.length := hstored.image.length
  have hbits := hcovers.bits
  have hwhole := hcovers.whole
  have hfits : sector + sectorsOf bytes ≤ 8 * bitmap.length := by
    rw [hbits]
    simp only [dirtyBitmapBytes, sectorsOf, blkSector] at hin hwhole ⊢
    omega
  refine ⟨markDirty bitmap sector (sectorsOf bytes), ?_, ⟨?_, ?_, ?_⟩, ?_⟩
  · rw [hstored.dirtyBitmap, hbitmap]
    rfl
  · rw [hlen]
    exact hwhole
  · rw [hlen, markDirty_length]
    exact hbits
  · rw [hlen]
    exact hcovers.small
  · refine (hstored.image.trans hagree).mono fun p _ hp => ?_
    rw [isDirty_markDirty _ _ _ _ hfits]
    rcases hp with hrange | hdirty
    · have hmarked : sector ≤ p / blkSector ∧ p / blkSector < sector + sectorsOf bytes := by
        simp only [sectorsOf, blkSector] at hrange ⊢
        omega
      simp [hmarked]
    · simp [hdirty]

theorem keepsOwn_readImage {P : Blk → Prop} (segs : List VringSegment) (pos written : ℕ) :
    Keeps (fun h : Host Blk => P h.own) (readImage pos written segs) := by
  induction segs generalizing pos written with
  | nil => exact keeps_pure _
  | cons seg rest ih =>
    refine keeps_bind keeps_get fun h => keeps_ite (keeps_pure _) ?_
    exact keeps_bind (keepsOwn_setMem _ _) fun _ => ih _ _

theorem writeRequest_journal {saved : List UInt8} (sector : ℕ) (segs : List VringSegment)
    (h : Host Blk) (hjournal : HasJournal saved h.own)
    (huntorn : h.own.readOnly = false →
      Untorn h.own.image.length h.memory.length (sector * blkSector) 0 segs) :
    Wp (writeRequest sector segs) (fun _ h' => HasJournal saved h'.own)
      (fun _ h' => HasJournal saved h'.own) h := by
  simp only [writeRequest, wp_bind, wp_get, wp_ite]
  refine ⟨fun _ => hjournal, fun hwritable => ?_⟩
  have huntorn' := huntorn (by simpa using hwritable)
  have hrun := writeImage_stored h.own (sector * blkSector) segs 0 h (stored_refl _ _) (by omega)
    (by rw [Nat.add_zero]; exact huntorn')
  rw [Nat.add_zero] at hrun
  refine hrun.mono (fun r h' hr => ?_) fun _ h' hstored => hasJournal_stored hstored hjournal
  obtain ⟨status, bytes⟩ := r
  dsimp only at hr ⊢
  split at hr
  · next hok =>
    simp only [wp_bind, wp_ite, wp_modify, wp_pure]
    refine ⟨fun hmark => hasJournal_marked hr.1 (hr.2 hmark.2) hjournal, fun hnone => ?_⟩
    have hzero : bytes = 0 := by
      by_contra hne
      exact hnone ⟨hok, Nat.pos_of_ne_zero hne⟩
    subst hzero
    exact hasJournal_stored hr.1 hjournal
  · next hfail =>
    simp only [wp_bind, wp_ite, wp_modify, wp_pure]
    exact ⟨fun hmark => absurd hmark.1 hfail, fun _ => hasJournal_stored hr hjournal⟩

/-- The chain is no write that the T_OUT loop gives up with some of its bytes stored. -/
def UntornRequest (h : Host Blk) (chain : VringChain) : Prop :=
  ∀ hdrSeg dataSegs hdr, chain.out = hdrSeg :: dataSegs → chain.in_ ≠ [] →
    h.own.readOnly = false → load h.memory hdrSeg.addr 16 = some hdr →
    leValue (hdr.take 4) = tOut →
    Untorn h.own.image.length h.memory.length (leValue (hdr.drop 8) * blkSector) 0 dataSegs

theorem untornRequest_single (h : Host Blk) (head : ℕ) (hdrSeg seg : VringSegment)
    (in_ : List VringSegment) : UntornRequest h ⟨head, [hdrSeg, seg], in_⟩ := by
  intro hdrSeg' dataSegs hdr hout _ _ _ _
  obtain ⟨-, rfl⟩ := List.cons.inj hout
  exact untorn_single seg

theorem service_journal {saved : List UInt8} (q : ℕ) (ring : VringLayout) (chain : VringChain)
    (h : Host Blk) (hjournal : HasJournal saved h.own) (huntorn : UntornRequest h chain) :
    Wp (service q ring chain) (fun _ h' => HasJournal saved h'.own)
      (fun _ h' => HasJournal saved h'.own) h := by
  have hpush : ∀ len, Keeps (fun h : Host Blk => HasJournal saved h.own)
      (pushUsed q ring chain.head len) := fun len => keepsOwn_pushUsed q ring chain.head len
  obtain ⟨head, out, in_⟩ := chain
  unfold service
  cases out with
  | nil => exact hpush 0 h hjournal
  | cons hdrSeg dataSegs =>
    cases hlast : in_.getLast? with
    | none =>
      simp only [List.head?_cons]
      exact hpush 0 h hjournal
    | some statusSeg =>
      have hin : in_ ≠ [] := by
        rintro rfl
        cases hlast
      simp only [List.head?_cons, memView, wp_bind, wp_get]
      cases hload : load h.memory hdrSeg.addr 16 with
      | none => exact hjournal
      | some hdr =>
        simp only [wp_pure]
        have hrequest : Wp (request (leValue (hdr.take 4)) (leValue (hdr.drop 8))
            (hdrSeg :: dataSegs) in_) (fun _ h' => HasJournal saved h'.own)
            (fun _ h' => HasJournal saved h'.own) h := by
          simp only [request, wp_ite, wp_bind, wp_get, wp_pure, List.tail_cons]
          refine ⟨fun _ => keepsOwn_readImage _ _ _ h hjournal, fun _ =>
            ⟨fun hout => ?_, fun _ => ⟨fun _ => hjournal, fun _ => hjournal⟩⟩⟩
          exact writeRequest_journal _ dataSegs h hjournal fun hwritable =>
            huntorn hdrSeg dataSegs hdr rfl hin hwritable hload hout
        rw [wp_bind]
        refine hrequest.mono (fun r h' hr => ?_) fun _ _ hr => hr
        exact keeps_bind (keepsOwn_setMem _ _) (fun _ => hpush _) h' hr

/-- A state disk with the image it had at the last save. -/
structure Disk where
  host : Host Blk
  saved : List UInt8

inductive Event
  /-- A request chain, with the guest memory as the device finds it. -/
  | request (memory : List UInt8) (q : ℕ) (ring : VringLayout) (chain : VringChain)
  /-- saveDisk packs the dirty sectors and clears their bits. -/
  | save

namespace Disk

def step (d : Disk) : Event → Disk
  | .request memory q ring chain =>
    { d with host := final (service q ring chain { d.host with memory }) }
  | .save =>
    match d.host.own.dirtyBitmap with
    | none => d
    | some bitmap =>
      let image := d.host.own.image
      let dirtyBitmap := some (packDirtySectors image bitmap true).2
      { host := { d.host with own := { d.host.own with dirtyBitmap } }, saved := image }

/-- Every sector that differs from the last save is dirty, and the overlay a save
would write now turns that save into the image. -/
def Sound (d : Disk) : Prop :=
  ∃ bitmap, d.host.own.dirtyBitmap = some bitmap ∧
    (∀ s, sectorBytes d.host.own.image s ≠ sectorBytes d.saved s → isDirty bitmap s) ∧
    applyDirtyOverlay (packDirtySectors d.host.own.image bitmap true).1 d.saved =
      .ok () d.host.own.image

/-- No write of the run is refused after some of its bytes were stored. -/
def Untorn (d : Disk) : Event → Prop
  | .request memory _ _ chain => UntornRequest { d.host with memory } chain
  | .save => True

theorem sound_of_hasJournal {d : Disk} (h : HasJournal d.saved d.host.own) : d.Sound := by
  obtain ⟨bitmap, hbitmap, hcovers, hagree⟩ := h
  refine ⟨bitmap, hbitmap, fun s hdiffers => ?_, apply_packDirtySectors hcovers hagree true⟩
  by_contra hclean
  refine hdiffers (List.ext_getElem? fun i => ?_)
  simp only [sectorBytes, List.getElem?_take, List.getElem?_drop]
  by_cases hi : i < blkSector
  · have hsector : (s * blkSector + i) / blkSector = s := by
      simp only [blkSector] at hi ⊢
      omega
    rw [if_pos hi, if_pos hi]
    exact hagree.bytes _ (by rw [hsector]; exact hclean)
  · rw [if_neg hi, if_neg hi]

theorem step_journal (d : Disk) (e : Event) (h : HasJournal d.saved d.host.own)
    (huntorn : d.Untorn e) : HasJournal (d.step e).saved (d.step e).host.own := by
  cases e with
  | request memory q ring chain =>
    have hserve := service_journal q ring chain { d.host with memory } h huntorn
    exact Wp.final hserve
  | save =>
    obtain ⟨bitmap, hbitmap, hcovers, -⟩ := h
    simp only [step, hbitmap]
    refine ⟨_, rfl, covers_packDirtySectors hcovers true, ?_⟩
    exact AgreeExcept.refl _ _

end Disk

/-- A state disk attached as a writable device. -/
def stateDisk (disk : StateDiskBacking) : Blk := ⟨disk.image, false, some disk.dirty⟩

theorem hasJournal_stateDisk (disk : StateDiskBacking) :
    HasJournal disk.image (stateDisk disk) :=
  ⟨disk.dirty, rfl, disk.covers, AgreeExcept.refl _ _⟩

/-- After every request of a run without torn writes the journal holds every change
since the last save. -/
theorem journal_sound_untorn (disk : StateDiskBacking) (host : Host Blk)
    (hattached : host.own = stateDisk disk) (events : List Event)
    (huntorn : Along Disk.Untorn Disk.step ⟨host, disk.image⟩ events) :
    (run Disk.step ⟨host, disk.image⟩ events).Sound := by
  refine Disk.sound_of_hasJournal (run_along (fun d => HasJournal d.saved d.host.own)
    Disk.step_journal events ?_ huntorn)
  rw [hattached]
  exact hasJournal_stateDisk disk

/-- A ring of one entry far from the buffers of the requests below. -/
def smallRing : VringLayout := ⟨600, 620, 630, 1, by decide⟩

/-- Guest memory with a write request for sector 0 and 512 bytes of data after it. -/
def writeMemory : List UInt8 :=
  leBytes 4 tOut ++ List.replicate 12 0 ++ List.replicate 512 0xFF ++ List.replicate 200 0

def blankHost (blk : Blk) : Host Blk := ⟨[], 0, fun _ => none, fun _ => 0, [], [], blk⟩

def zeroSector : StateDiskImage :=
  ⟨List.replicate 512 0, true, by rw [List.length_replicate]; decide⟩

theorem zeroSector_length : zeroSector.bytes.length = 512 := List.length_replicate

/-- A disk of one zeroed sector. -/
def zeroDisk : StateDiskBacking :=
  ⟨zeroSector.bytes, [0], true, by rw [zeroSector_length]; rfl, by rw [zeroSector_length]; rfl,
    zeroSector.small⟩

/-- A write whose segments all fit is journaled. -/
theorem journal_sound_one_sector :
    (run Disk.step ⟨blankHost (stateDisk zeroDisk), zeroDisk.image⟩
      [.request writeMemory 0 smallRing ⟨0, [⟨0, 16⟩, ⟨16, 512⟩], [⟨540, 1⟩]⟩]).Sound := by
  exact journal_sound_untorn zeroDisk _ rfl _ ⟨untornRequest_single _ 0 _ _ _, trivial⟩

/-- A write that runs off the end of the disk stores its first sector, is refused at
the second, and leaves the first unmarked. -/
theorem torn_write_unjournaled :
    createStateDiskBacking (some zeroSector) (1024 * 1024) stateDiskCopyMaxBytes =
      .ok zeroDisk ∧
    ¬ (run Disk.step ⟨blankHost (stateDisk zeroDisk), zeroDisk.image⟩
      [.request writeMemory 0 smallRing
        ⟨0, [⟨0, 16⟩, ⟨16, 512⟩, ⟨16, 512⟩], [⟨540, 1⟩]⟩]).Sound := by
  refine ⟨by simp [createStateDiskBacking, zeroDisk, zeroSector_length, dirtyBitmapBytes,
    blkSector, stateDiskCopyMaxBytes], ?_⟩
  rintro ⟨bitmap, hbitmap, hdirty, -⟩
  have hclean : bitmap = [0] := Option.some.inj (hbitmap.symm.trans (by decide +kernel))
  have hbit := hdirty 0 (by decide +kernel)
  rw [hclean] at hbit
  exact absurd hbit (by decide)

end NixWasm.BlkDevice
