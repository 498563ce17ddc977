import NixWasm.BlkDisk
import Mathlib.Data.List.Induction
import Mathlib.Data.List.TakeWhile

/-!
What applyDirtyOverlay of virtio/blk-disk.ts makes of any byte string. All but the sector numbers is
checked before the first store. A record whose sector is past the end ends the loop behind the
records before it, whose stores stay.
-/
namespace NixWasm.BlkOverlay

open Bytes ByteStore Effects BlkDisk

/-- So many records from an offset on, the bytes past the end left out. -/
def recordsFrom (overlay : List UInt8) : ℕ → ℕ → List (ℕ × List UInt8)
  | _, 0 => []
  | off, count + 1 => (uint32At overlay off, (overlay.drop (off + 4)).take blkSector) ::
      recordsFrom overlay (off + 4 + blkSector) count

/-- The records that the header announces. -/
def records (overlay : List UInt8) : List (ℕ × List UInt8) :=
  recordsFrom overlay 16 (uint32At overlay 12)

/-- The checks before the loop. -/
structure Header (overlay : List UInt8) : Prop where
  whole : 16 ≤ overlay.length
  magic : overlay.take 4 = diskOverlayMagic
  version : uint32At overlay 4 = diskOverlayVersion
  blockSize : uint32At overlay 8 = blkSector
  body : 16 + uint32At overlay 12 * (4 + blkSector) ≤ overlay.length

/-- The sector of a record is in the image. -/
def inImage (image : List UInt8) (e : ℕ × List UInt8) : Bool :=
  decide (e.1 * blkSector + blkSector ≤ image.length)

/-- The records before the first whose sector is past the end. -/
def reached (image overlay : List UInt8) : List (ℕ × List UInt8) :=
  (records overlay).takeWhile (inImage image)

/-- The bytes of the last record of a sector. -/
def lastOf (entries : List (ℕ × List UInt8)) (s : ℕ) : Option (List UInt8) :=
  (entries.reverse.find? fun e => e.1 = s).map Prod.snd

/-- Every record is applied, or the image is as it was. -/
def Atomic (image overlay : List UInt8) : Prop :=
  match applyDirtyOverlay overlay image with
  | .ok _ image' => image' = applySectors image (records overlay)
  | .error _ image' => image' = image

/-- The sector of every record is in the image, or the records before the first that is not write
back what the image has. -/
def Harmless (image overlay : List UInt8) : Prop :=
  (∀ e ∈ records overlay, inImage image e = true) ∨
    ∀ s d, lastOf (reached image overlay) s = some d → d = sectorBytes image s

/-- The first of the records, and the room for the others. -/
theorem room_cons {length off count : ℕ} (h : off + (count + 1) * (4 + blkSector) ≤ length) :
    off + 4 + blkSector + count * (4 + blkSector) ≤ length := by
  rw [Nat.succ_mul] at h
  omega

theorem length_of_mem_recordsFrom {overlay : List UInt8} {off count : ℕ}
    (h : off + count * (4 + blkSector) ≤ overlay.length) {e : ℕ × List UInt8}
    (he : e ∈ recordsFrom overlay off count) : e.2.length = blkSector := by
  induction count generalizing off with
  | zero => cases he
  | succ count ih =>
    have hroom := room_cons h
    rw [recordsFrom] at he
    rcases List.mem_cons.mp he with rfl | he
    · rw [List.length_take, List.length_drop]
      omega
    · exact ih hroom he

section Loop
variable {overlay image : List UInt8} {off count : ℕ}

/-- The loop stores the records up to the first that is past the end, and then throws. -/
theorem applyEntries_eq (off : ℕ) (image : List UInt8)
    (h : off + count * (4 + blkSector) ≤ overlay.length) :
    ((∀ e ∈ recordsFrom overlay off count, inImage image e = true) ∧
      applyEntries overlay off count image =
        .ok () (applySectors image (recordsFrom overlay off count))) ∨
    ((∃ e ∈ recordsFrom overlay off count, inImage image e = false) ∧
      ∃ err, applyEntries overlay off count image = .error err
        (applySectors image ((recordsFrom overlay off count).takeWhile (inImage image)))) := by
  induction count generalizing off image with
  | zero => exact Or.inl ⟨List.forall_mem_nil _, rfl⟩
  | succ count ih =>
    have hroom := room_cons h
    have hlen : ((overlay.drop (off + 4)).take blkSector).length = blkSector := by
      rw [List.length_take, List.length_drop]
      omega
    rw [recordsFrom]
    by_cases hin : uint32At overlay off * blkSector + blkSector ≤ image.length
    · set e := (uint32At overlay off, (overlay.drop (off + 4)).take blkSector) with he
      have hhead : inImage image e = true := decide_eq_true hin
      have hsame : ∀ e', inImage (splice image (uint32At overlay off * blkSector) e.2) e' =
          inImage image e' := by
        intro e'
        rw [inImage, splice_length (by rw [hlen]; exact hin), inImage]
      have hstep : applyEntries overlay off (count + 1) image =
          applyEntries overlay (off + 4 + blkSector) count
            (splice image (uint32At overlay off * blkSector) e.2) := by
        change (if _ then _ else _ : EStateM Thrown (List UInt8) Unit) image = _
        rw [if_neg (by omega)]
        rfl
      have hnext := ih (off + 4 + blkSector) (splice image (uint32At overlay off * blkSector) e.2)
        hroom
      simp only [hsame] at hnext
      have hfun : inImage (splice image (uint32At overlay off * blkSector) e.2) = inImage image :=
        funext hsame
      rw [hstep]
      rcases hnext with ⟨hall, hok⟩ | ⟨⟨e', hmem, hout⟩, err, herr⟩
      · exact Or.inl ⟨List.forall_mem_cons.mpr ⟨hhead, hall⟩, hok⟩
      · refine Or.inr ⟨⟨e', List.mem_cons_of_mem _ hmem, hout⟩, err, ?_⟩
        rw [herr, hfun, List.takeWhile_cons_of_pos hhead]
        rfl
    · refine Or.inr ⟨⟨_, List.mem_cons_self, decide_eq_false hin⟩, ?_⟩
      rw [List.takeWhile_cons_of_neg (by simpa [inImage] using hin)]
      refine ⟨.error ("blk overlay: sector " ++ toString (uint32At overlay off) ++
        " past end of image"), ?_⟩
      change (if _ then _ else _ : EStateM Thrown (List UInt8) Unit) image = _
      rw [if_pos (by omega)]
      rfl

end Loop

section Image
variable {image : List UInt8}

theorem lastOf_concat (entries : List (ℕ × List UInt8)) (e : ℕ × List UInt8) (s : ℕ) :
    lastOf (entries ++ [e]) s = if e.1 = s then some e.2 else lastOf entries s := by
  rw [lastOf, List.reverse_append, List.reverse_singleton, List.singleton_append, List.find?_cons]
  by_cases h : e.1 = s
  · simp [h]
  · simp [h, lastOf]

theorem length_of_lastOf {entries : List (ℕ × List UInt8)} (hin : SectorsIn image.length entries)
    {s : ℕ} {d : List UInt8} (h : lastOf entries s = some d) :
    d.length = blkSector ∧ s * blkSector + blkSector ≤ image.length := by
  obtain ⟨e, he, rfl⟩ := Option.map_eq_some_iff.mp h
  have hmem := hin e (List.mem_reverse.mp (List.mem_of_find?_eq_some he))
  have hs : e.1 = s := by simpa using List.find?_some he
  exact ⟨hmem.1, hs ▸ hmem.2⟩

/-- A byte comes from the last record of its sector, or was there before. -/
theorem getElem?_applySectors {entries : List (ℕ × List UInt8)}
    (hin : SectorsIn image.length entries) (p : ℕ) :
    (applySectors image entries)[p]? =
      match lastOf entries (p / blkSector) with
      | some d => d[p % blkSector]?
      | none => image[p]? := by
  induction entries using List.reverseRecOn with
  | nil => rfl
  | append_singleton entries e ih =>
    have hprev : SectorsIn image.length entries := fun x hx => hin x (List.mem_append_left _ hx)
    obtain ⟨hlen, hfits⟩ := hin e (List.mem_append_right _ List.mem_cons_self)
    have hsame : (applySectors image entries).length = image.length :=
      applySectors_length entries hprev
    have hsplice : applySectors image (entries ++ [e]) =
        splice (applySectors image entries) (e.1 * blkSector) e.2 := by
      simp [applySectors]
    have hp := Nat.div_add_mod p blkSector
    have hmod : p % blkSector < blkSector := Nat.mod_lt _ (by decide)
    rw [hsplice, lastOf_concat]
    by_cases hs : e.1 = p / blkSector
    · rw [if_pos hs, hs]
      rw [hs] at hfits
      rw [getElem?_splice_inside (by omega) (by rw [Nat.mul_comm]; omega)
        (by rw [Nat.mul_comm]; omega)]
      dsimp only
      congr 1
      rw [Nat.mul_comm]
      omega
    · rw [if_neg hs, getElem?_splice_outside (by omega) ?_]
      · exact ih hprev
      · rw [hlen]
        simp only [blkSector] at hs ⊢
        omega

/-- The stores leave the image alone when the last one of each sector writes what is there. -/
theorem applySectors_eq_self_iff {entries : List (ℕ × List UInt8)}
    (hin : SectorsIn image.length entries) :
    applySectors image entries = image ↔
      ∀ s d, lastOf entries s = some d → d = sectorBytes image s := by
  constructor
  · intro h s d hd
    obtain ⟨hlen, hfits⟩ := length_of_lastOf hin hd
    refine List.ext_getElem? fun k => ?_
    by_cases hk : k < blkSector
    · have hp := getElem?_applySectors hin (s * blkSector + k)
      have hdiv : (s * blkSector + k) / blkSector = s := by
        simp only [blkSector] at hk ⊢
        omega
      have hmod : (s * blkSector + k) % blkSector = k := by
        simp only [blkSector] at hk ⊢
        omega
      rw [h, hdiv, hmod, hd] at hp
      have hbyte : image[s * blkSector + k]? = d[k]? := hp
      rw [← hbyte, sectorBytes, List.getElem?_take, if_pos hk, List.getElem?_drop]
    · rw [List.getElem?_eq_none (by omega), List.getElem?_eq_none]
      rw [sectorBytes_length hfits]
      omega
  · intro h
    refine List.ext_getElem? fun p => ?_
    rw [getElem?_applySectors hin p]
    cases hd : lastOf entries (p / blkSector) with
    | none => rfl
    | some d =>
      have hmod : p % blkSector < blkSector := Nat.mod_lt _ (by decide)
      dsimp only
      rw [h _ d hd, sectorBytes, List.getElem?_take, if_pos hmod, List.getElem?_drop]
      congr 1
      rw [Nat.mul_comm]
      exact Nat.div_add_mod p blkSector

end Image

theorem applyDirtyOverlay_header {overlay : List UInt8} (h : Header overlay)
    (image : List UInt8) :
    applyDirtyOverlay overlay image = applyEntries overlay 16 (uint32At overlay 12) image := by
  have hwhole : ¬ overlay.length < 16 := Nat.not_lt.mpr h.whole
  have hbody : ¬ overlay.length < 16 + uint32At overlay 12 * (4 + blkSector) :=
    Nat.not_lt.mpr h.body
  unfold applyDirtyOverlay
  simp only [hwhole, h.magic, h.version, h.blockSize, hbody, if_false, ne_eq, not_true_eq_false]

/-- What the checks refuse does not reach the image. -/
theorem applyDirtyOverlay_refused {overlay : List UInt8} (h : ¬ Header overlay)
    (image : List UInt8) : ∃ err, applyDirtyOverlay overlay image = .error err image := by
  unfold applyDirtyOverlay
  by_cases hwhole : overlay.length < 16
  · exact ⟨_, by rw [if_pos hwhole]; rfl⟩
  by_cases hmagic : overlay.take 4 ≠ diskOverlayMagic
  · exact ⟨_, by rw [if_neg hwhole, if_pos hmagic]; rfl⟩
  by_cases hversion : uint32At overlay 4 ≠ diskOverlayVersion
  · exact ⟨_, by rw [if_neg hwhole, if_neg hmagic]; simp only [if_pos hversion]; rfl⟩
  by_cases hsize : uint32At overlay 8 ≠ blkSector
  · exact ⟨_, by
      rw [if_neg hwhole, if_neg hmagic]
      simp only [if_neg hversion, if_pos hsize]
      rfl⟩
  by_cases hbody : overlay.length < 16 + uint32At overlay 12 * (4 + blkSector)
  · exact ⟨_, by
      rw [if_neg hwhole, if_neg hmagic]
      simp only [if_neg hversion, if_neg hsize, if_pos hbody]
      rfl⟩
  · exact absurd ⟨by omega, not_not.mp hmagic, not_not.mp hversion, not_not.mp hsize, by omega⟩ h

theorem sectorsIn_reached {overlay : List UInt8} (h : Header overlay) (image : List UInt8) :
    SectorsIn image.length (reached image overlay) := by
  intro e he
  have hmem : e ∈ records overlay := (List.takeWhile_prefix _).subset he
  have hin : inImage image e = true := List.mem_takeWhile_imp he
  exact ⟨length_of_mem_recordsFrom h.body hmem, of_decide_eq_true hin⟩

/-- Application is atomic exactly when the checks refuse the overlay, or it does no harm. -/
theorem applyDirtyOverlay_atomic_iff (image overlay : List UInt8) :
    Atomic image overlay ↔ (Header overlay → Harmless image overlay) := by
  unfold Atomic
  by_cases hheader : Header overlay
  · have hsame := applySectors_eq_self_iff (sectorsIn_reached hheader image)
    rw [applyDirtyOverlay_header hheader]
    rcases applyEntries_eq 16 image hheader.body with
      ⟨hall, hok⟩ | ⟨⟨e, hmem, hout⟩, err, herr⟩
    · rw [hok]
      exact ⟨fun _ _ => Or.inl hall, fun _ => rfl⟩
    · rw [herr]
      refine ⟨fun h _ => Or.inr (hsame.mp h), fun h => hsame.mpr ?_⟩
      refine (h hheader).resolve_left fun hall => ?_
      rw [hall e hmem] at hout
      cases hout
  · obtain ⟨err, herr⟩ := applyDirtyOverlay_refused hheader image
    rw [herr]
    exact ⟨fun _ h => absurd h hheader, fun _ => rfl⟩

/-- One sector of equal bytes. -/
def filled (b : UInt8) : List UInt8 := List.replicate blkSector b

theorem filled_length (b : UInt8) : (filled b).length = blkSector := List.length_replicate

/-- Two records: ones for sector 0, and sector 9, which an image of one sector does not have. -/
def halfEntries : List (ℕ × List UInt8) := [(0, filled 1), (9, filled 0)]

theorem recordsFrom_flatMap {overlay rest : List UInt8} {length off : ℕ}
    (hlength : length < 2 ^ 41) (entries : List (ℕ × List UInt8)) (hin : SectorsIn length entries)
    (hdrop : overlay.drop off = entries.flatMap entryBytes ++ rest) :
    recordsFrom overlay off entries.length = entries := by
  induction entries generalizing off with
  | nil => rfl
  | cons e entries ih =>
    obtain ⟨hlen, hfits⟩ := hin e List.mem_cons_self
    simp only [List.flatMap_cons, entryBytes, List.append_assoc] at hdrop
    have hindex : uint32At overlay off = e.1 :=
      uint32At_of_drop hdrop (by simp only [blkSector] at hfits; omega)
    have hdrop4 : overlay.drop (off + 4) = e.2 ++ (entries.flatMap entryBytes ++ rest) := by
      rw [← List.drop_drop, hdrop, List.drop_left' (leBytes_length 4 e.1)]
    have hnext : overlay.drop (off + 4 + blkSector) = entries.flatMap entryBytes ++ rest := by
      rw [← List.drop_drop, hdrop4, List.drop_left' hlen]
    rw [List.length_cons, recordsFrom, hindex, hdrop4, List.take_left' hlen,
      ih (fun e he => hin e (List.mem_cons_of_mem _ he)) hnext]

/-- What was packed passes the checks and has the records that were packed. -/
theorem header_overlayBytes {length : ℕ} (hlength : length < 2 ^ 41)
    (entries : List (ℕ × List UInt8)) (hin : SectorsIn length entries)
    (hcount : entries.length < 2 ^ 32) :
    Header (overlayBytes entries) ∧ records (overlayBytes entries) = entries := by
  have hlen := overlayBytes_length entries hin
  have hfield : (overlayBytes entries).drop 12 =
      leBytes 4 entries.length ++ entries.flatMap entryBytes := rfl
  have hcount' : uint32At (overlayBytes entries) 12 = entries.length :=
    uint32At_of_drop hfield hcount
  have hdrop : (overlayBytes entries).drop 16 = entries.flatMap entryBytes ++ [] := by
    rw [List.append_nil]
    rfl
  refine ⟨⟨by omega, rfl, rfl, rfl, by rw [hcount', hlen]⟩, ?_⟩
  rw [records, hcount']
  exact recordsFrom_flatMap hlength entries hin hdrop

/-- The overlay is refused when the ones are stored. -/
theorem halfOverlay_not_atomic :
    ∃ err image, applyDirtyOverlay (overlayBytes halfEntries) (filled 0) = .error err image ∧
      image ≠ filled 0 := by
  have hin : SectorsIn (10 * blkSector) halfEntries := by
    intro e he
    rcases List.mem_cons.mp he with rfl | he
    · exact ⟨filled_length 1, by decide⟩
    · obtain rfl := List.mem_singleton.mp he
      exact ⟨filled_length 0, by decide⟩
  obtain ⟨hheader, hrecords⟩ := header_overlayBytes (by decide) halfEntries hin (by decide)
  have hout : inImage (filled 0) (9, filled 0) = false :=
    decide_eq_false (by rw [filled_length]; decide)
  rw [applyDirtyOverlay_header hheader]
  rcases applyEntries_eq 16 (filled 0) hheader.body with ⟨hall, -⟩ | ⟨-, err, herr⟩
  · rw [← records, hrecords] at hall
    rw [hall (9, filled 0) (by simp [halfEntries])] at hout
    cases hout
  · rw [← records, hrecords] at herr
    refine ⟨err, _, herr, fun hsame => ?_⟩
    have hfirst : inImage (filled 0) (0, filled 1) = true :=
      decide_eq_true (by rw [filled_length]; decide)
    have hreached : halfEntries.takeWhile (inImage (filled 0)) = [(0, filled 1)] := by
      rw [halfEntries, List.takeWhile_cons_of_pos hfirst,
        List.takeWhile_cons_of_neg (by rw [hout]; decide)]
    rw [hreached] at hsame
    have hhead := congrArg (fun image => image[0]?) hsame
    exact absurd hhead (by decide)

end NixWasm.BlkOverlay
