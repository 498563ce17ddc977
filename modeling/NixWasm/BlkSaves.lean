import NixWasm.BlkDevice

/-!
Saves of a state disk while its writers run. The workers that serve block requests
share the image and the bitmap with the thread that packs them: a write stores byte
by byte and then marks sector by sector, a pack tests and clears bit by bit and then
copies byte by byte, and the steps of all of them interleave freely. A byte in which
the image is ahead of the saved overlays is owed by a dirty bit, by a writer that has
still to mark its sector, or by the pack that has still to copy it.
-/
namespace NixWasm.BlkSaves

open ByteStore Effects Virtio BlkDisk BlkDevice Runs

/-- What a writer has still to do: image positions to store, then sectors to mark. -/
structure Writer where
  stores : List ℕ
  marks : List ℕ
deriving DecidableEq

def Writer.done : Writer := ⟨[], []⟩

/-- The positions the T_OUT loop stores, and whether it accepts every segment. -/
def storedPositions (imageLength memoryLength : ℕ) : ℕ → List VringSegment → List ℕ × Bool
  | _, [] => ([], true)
  | pos, seg :: rest =>
    if Refused imageLength memoryLength pos seg then ([], false)
    else
      let later := storedPositions imageLength memoryLength (pos + seg.len) rest
      (List.range' pos seg.len ++ later.1, later.2)

/-- The steps of one T_OUT request. -/
def writeSteps (imageLength memoryLength sector : ℕ) (segs : List VringSegment) : Writer :=
  let stored := storedPositions imageLength memoryLength (sector * blkSector) segs
  ⟨stored.1, if stored.2 then List.range' sector (sectorsOf stored.1.length) else []⟩

/-- Where packDirtySectors stands: `dirty` are the sectors it picked, `entries` the
copied ones and `bytes` the part copied of the first of `todo`. -/
inductive Packer
  | idle
  | test (s : ℕ) (dirty : List ℕ)
  | clear (s : ℕ) (dirty : List ℕ)
  | copy (entries : List (ℕ × List UInt8)) (bytes : List UInt8) (todo : List ℕ)
deriving DecidableEq

/-- A state disk shared by the writers `ι` and one packer. -/
structure Shared (ι : Type) where
  image : List UInt8
  bitmap : List UInt8
  writers : ι → Writer
  packer : Packer
  overlays : List (List UInt8)

inductive Event (ι : Type)
  /-- A worker with no request in progress takes a write. -/
  | begin (w : ι) (memoryLength sector : ℕ) (segs : List VringSegment)
  /-- It stores its next byte, as the guest memory has it. -/
  | store (w : ι) (byte : UInt8)
  | mark (w : ι)
  | pack

namespace Shared
variable {ι : Type} [DecidableEq ι]

def packStep (d : Shared ι) : Shared ι :=
  match d.packer with
  | .idle => { d with packer := .test 0 [] }
  | .test s dirty =>
    if s < d.image.length / blkSector then
      if isDirty d.bitmap s then { d with packer := .clear s (dirty ++ [s]) }
      else { d with packer := .test (s + 1) dirty }
    else { d with packer := .copy [] [] dirty }
  | .clear s dirty => { d with bitmap := clearDirty d.bitmap s, packer := .test (s + 1) dirty }
  | .copy entries bytes (s :: todo) =>
    if bytes.length < blkSector then
      let byte := (d.image.drop (s * blkSector + bytes.length)).take 1
      { d with packer := .copy entries (bytes ++ byte) (s :: todo) }
    else { d with packer := .copy (entries ++ [(s, bytes)]) [] todo }
  | .copy entries _ [] =>
    { d with packer := .idle, overlays := d.overlays ++ [overlayBytes entries] }

def step (d : Shared ι) : Event ι → Shared ι
  | .begin w memoryLength sector segs =>
    if d.writers w = Writer.done then
      let steps := writeSteps d.image.length memoryLength sector segs
      { d with writers := Function.update d.writers w steps }
    else d
  | .store w byte =>
    match d.writers w with
    | ⟨p :: stores, marks⟩ =>
      { d with
        image := splice d.image p [byte]
        writers := Function.update d.writers w ⟨stores, marks⟩ }
    | ⟨[], _⟩ => d
  | .mark w =>
    match d.writers w with
    | ⟨[], s :: marks⟩ =>
      { d with
        bitmap := orByte d.bitmap (s / 8) (bitOf s)
        writers := Function.update d.writers w ⟨[], marks⟩ }
    | _ => d
  | .pack => d.packStep

/-- A disk that no write and no pack has touched. -/
def start (disk : StateDiskBacking) : Shared ι :=
  ⟨disk.image, disk.dirty, fun _ => .done, .idle, []⟩

end Shared

/-- Apply the overlays of a series of saves, in order. -/
def applyAll : List (List UInt8) → Js (List UInt8) Unit
  | [] => pure ()
  | overlay :: rest => do
    applyDirtyOverlay overlay
    applyAll rest

/-- The writer marks every sector it stores into, and stays inside the disk. -/
structure Writer.Ok (length : ℕ) (w : Writer) : Prop where
  stores : ∀ p ∈ w.stores, p < length ∧ p / blkSector ∈ w.marks
  marks : ∀ s ∈ w.marks, s < length / blkSector

theorem writerOk_done (length : ℕ) : Writer.Ok length .done :=
  ⟨fun _ h => absurd h List.not_mem_nil, fun _ h => absurd h List.not_mem_nil⟩

/-- An untorn write is accepted whole or stores nothing. -/
theorem storedPositions_untorn (imageLength memoryLength : ℕ) (segs : List VringSegment)
    (pos bytes : ℕ) (h : Untorn imageLength memoryLength pos bytes segs) :
    let stored := storedPositions imageLength memoryLength pos segs
    if stored.2 then ∃ n, stored.1 = List.range' pos n ∧ (0 < n → pos + n ≤ imageLength)
    else bytes = 0 ∧ stored.1 = [] := by
  induction segs generalizing pos bytes with
  | nil =>
    simp only [storedPositions, if_true]
    exact ⟨0, rfl, by omega⟩
  | cons seg rest ih =>
    unfold storedPositions
    by_cases hrefused : Refused imageLength memoryLength pos seg
    · have hzero := untorn_refused h hrefused
      simp only [hrefused, if_true, Bool.false_eq_true, if_false, and_true]
      omega
    · have hlater := ih (pos + seg.len) (bytes + seg.len) (untorn_tail h hrefused)
      have hfits : pos + seg.len ≤ imageLength := by
        by_contra hpast
        exact hrefused (Or.inl (by omega))
      simp only [hrefused, if_false]
      dsimp only at hlater
      split at hlater
      · next haccepted =>
        obtain ⟨n, hrange, hin⟩ := hlater
        rw [if_pos haccepted]
        refine ⟨seg.len + n, ?_, by omega⟩
        rw [hrange, List.range'_append_1]
      · next hstop =>
        rw [if_neg hstop]
        have hempty : seg.len = 0 := by omega
        refine ⟨by omega, ?_⟩
        rw [hlater.2, hempty]
        rfl

theorem writerOk_writeSteps {imageLength memoryLength sector : ℕ} {segs : List VringSegment}
    (hwhole : imageLength % blkSector = 0)
    (h : Untorn imageLength memoryLength (sector * blkSector) 0 segs) :
    Writer.Ok imageLength (writeSteps imageLength memoryLength sector segs) := by
  have hstored := storedPositions_untorn imageLength memoryLength segs _ 0 h
  unfold writeSteps
  dsimp only at hstored ⊢
  split at hstored
  · next haccepted =>
    obtain ⟨n, hrange, hin⟩ := hstored
    rw [haccepted, hrange, if_pos rfl, List.length_range']
    simp only [blkSector] at hin hwhole
    refine ⟨fun p hp => ?_, fun s hs => ?_⟩
    · simp only [blkSector, List.mem_range'_1] at hp
      simp only [sectorsOf, blkSector, List.mem_range'_1]
      omega
    · simp only [sectorsOf, blkSector, List.mem_range'_1] at hs
      simp only [blkSector]
      omega
  · next hrefused =>
    rw [if_neg hrefused, hstored.2]
    exact writerOk_done imageLength

namespace Packer

/-- The bytes the pack has still to copy. -/
def Owes : Packer → ℕ → Prop
  | idle, _ => False
  | test _ dirty, p => p / blkSector ∈ dirty
  | clear _ dirty, p => p / blkSector ∈ dirty
  | copy _ bytes (s :: todo), p =>
    (p / blkSector = s ∧ s * blkSector + bytes.length ≤ p) ∨ p / blkSector ∈ todo
  | copy _ _ [], _ => False

/-- What the copied bytes make of the image restored from the overlays so far. -/
def copied (restored : List UInt8) : Packer → List UInt8
  | copy entries bytes (s :: _) =>
    splice (applySectors restored entries) (s * blkSector) bytes
  | copy entries _ [] => applySectors restored entries
  | _ => restored

/-- The pack works on distinct sectors of the disk. -/
def Ok (length : ℕ) : Packer → Prop
  | idle => True
  | test s dirty =>
    (∀ t ∈ dirty, t < length / blkSector) ∧ dirty.length ≤ s ∧ s ≤ length / blkSector
  | clear s dirty =>
    (∀ t ∈ dirty, t < length / blkSector) ∧ s ∈ dirty ∧ dirty.length ≤ s + 1
  | copy entries bytes todo =>
    SectorsIn length entries ∧ (∀ t ∈ todo, t < length / blkSector) ∧
      bytes.length ≤ blkSector ∧ entries.length + todo.length ≤ length / blkSector

end Packer

namespace Shared
variable {ι : Type}

/-- The bytes in which the image may be ahead of what the saves hold. -/
def Owed (d : Shared ι) (p : ℕ) : Prop :=
  isDirty d.bitmap (p / blkSector) ∨ (∃ w, p / blkSector ∈ (d.writers w).marks) ∨ d.packer.Owes p

/-- The invariant of every interleaving. -/
structure Consistent (baseline : List UInt8) (d : Shared ι) : Prop where
  covers : Covers d.image d.bitmap
  writers : ∀ w, Writer.Ok d.image.length (d.writers w)
  packer : d.packer.Ok d.image.length
  restored : ∃ restored, applyAll d.overlays baseline = .ok () restored ∧
    restored.length = d.image.length ∧ AgreeExcept d.Owed d.image (d.packer.copied restored)

theorem consistent_start (disk : StateDiskBacking) :
    Consistent disk.image (start disk : Shared ι) :=
  ⟨disk.covers, fun _ => writerOk_done _, trivial, disk.image, rfl, rfl, AgreeExcept.refl _ _⟩

theorem applyAll_concat {overlays : List (List UInt8)} {overlay baseline restored out : List UInt8}
    (h : applyAll overlays baseline = .ok () restored)
    (hlast : applyDirtyOverlay overlay restored = .ok () out) :
    applyAll (overlays ++ [overlay]) baseline = .ok () out := by
  induction overlays generalizing baseline with
  | nil =>
    cases h
    change EStateM.bind (applyDirtyOverlay overlay) (fun _ => pure ()) restored = _
    unfold EStateM.bind
    rw [hlast]
    rfl
  | cons first rest ih =>
    change EStateM.bind (applyDirtyOverlay first) (fun _ => applyAll rest) baseline = _ at h
    change EStateM.bind (applyDirtyOverlay first)
      (fun _ => applyAll (rest ++ [overlay])) baseline = _
    unfold EStateM.bind at h ⊢
    cases hfirst : applyDirtyOverlay first baseline with
    | error e s => simp [hfirst] at h
    | ok _ mid =>
      simp only [hfirst] at h ⊢
      exact ih h

/-- A step of the packer alone, as far as it concerns what is owed. -/
theorem owed_packer {d : Shared ι} (next : Packer) {p : ℕ} (h : d.Owed p)
    (howes : d.packer.Owes p → next.Owes p) : Shared.Owed { d with packer := next } p := by
  rcases h with hdirty | hmark | hpacker
  · exact Or.inl hdirty
  · exact Or.inr (Or.inl hmark)
  · exact Or.inr (Or.inr (howes hpacker))

theorem consistent_test {baseline : List UInt8} {d : Shared ι} (h : Consistent baseline d)
    {s : ℕ} {dirty : List ℕ} (hpacker : d.packer = .test s dirty) :
    Consistent baseline d.packStep := by
  obtain ⟨restored, hrestored, hlength, hagree⟩ := h.restored
  have hok := h.packer
  rw [hpacker] at hok hagree
  obtain ⟨hin, hcount, hle⟩ := hok
  simp only [packStep, hpacker]
  by_cases hs : s < d.image.length / blkSector
  · rw [if_pos hs]
    by_cases hdirty : isDirty d.bitmap s
    · rw [if_pos hdirty]
      refine ⟨h.covers, h.writers, ⟨?_, by simp, by simpa using hcount⟩, restored,
        hrestored, hlength, hagree.mono fun p _ howed => owed_packer _ howed fun howes => ?_⟩
      · intro t ht
        rcases List.mem_append.mp ht with ht | ht
        · exact hin t ht
        · rw [List.mem_singleton.mp ht]
          exact hs
      · rw [hpacker] at howes
        exact List.mem_append_left _ howes
    · rw [if_neg hdirty]
      refine ⟨h.covers, h.writers, ⟨hin, Nat.le_succ_of_le hcount, hs⟩, restored,
        hrestored, hlength, hagree.mono fun p _ howed => owed_packer _ howed fun howes => ?_⟩
      rwa [hpacker] at howes
  · rw [if_neg hs]
    have hcount' : 0 + dirty.length ≤ d.image.length / blkSector := by omega
    refine ⟨h.covers, h.writers, ⟨fun e he => absurd he List.not_mem_nil, hin, Nat.zero_le _,
      hcount'⟩, restored, hrestored, hlength, ?_⟩
    have hcopied : (Packer.copy [] [] dirty).copied restored = restored := by
      cases dirty with
      | nil => rfl
      | cons t dirty => exact splice_nil _ _
    rw [hcopied]
    refine hagree.mono fun p _ howed => owed_packer _ howed fun howes => ?_
    rw [hpacker] at howes
    cases dirty with
    | nil => exact absurd howes List.not_mem_nil
    | cons t dirty =>
      rcases List.mem_cons.mp howes with heq | hmem
      · refine Or.inl ⟨heq, ?_⟩
        simp only [blkSector, List.length_nil] at heq ⊢
        omega
      · exact Or.inr hmem

theorem consistent_clear {baseline : List UInt8} {d : Shared ι} (h : Consistent baseline d)
    {s : ℕ} {dirty : List ℕ} (hpacker : d.packer = .clear s dirty) :
    Consistent baseline d.packStep := by
  obtain ⟨restored, hrestored, hlength, hagree⟩ := h.restored
  have hok := h.packer
  rw [hpacker] at hok hagree
  obtain ⟨hin, hpicked, hcount⟩ := hok
  have hs : s < d.image.length / blkSector := hin s hpicked
  simp only [packStep, hpacker]
  refine ⟨⟨h.covers.whole, ?_, h.covers.small⟩, h.writers, ⟨hin, hcount, hs⟩, restored,
    hrestored, hlength, hagree.mono fun p _ howed => ?_⟩
  · rw [clearDirty_length]
    exact h.covers.bits
  · -- the cleared sector was picked, so that the pack owes its copy
    unfold Owed
    rw [isDirty_clearDirty _ _ _ (h.covers.bit_in hs)]
    rcases howed with hbit | hmark | howes
    · by_cases heq : p / blkSector = s
      · exact Or.inr (Or.inr (by rw [← heq] at hpicked; exact hpicked))
      · exact Or.inl (by simp [hbit, heq])
    · exact Or.inr (Or.inl hmark)
    · rw [hpacker] at howes
      exact Or.inr (Or.inr howes)

/-- Copying one more byte settles that byte. -/
theorem consistent_copyByte {baseline : List UInt8} {d : Shared ι} (h : Consistent baseline d)
    {entries : List (ℕ × List UInt8)} {bytes : List UInt8} {s : ℕ} {todo : List ℕ}
    (hpacker : d.packer = .copy entries bytes (s :: todo)) (hmore : bytes.length < blkSector) :
    Consistent baseline d.packStep := by
  obtain ⟨restored, hrestored, hlength, hagree⟩ := h.restored
  have hok := h.packer
  rw [hpacker] at hok hagree
  obtain ⟨hentries, hin, -, hcount⟩ := hok
  have hsector := h.covers.sector_in (hin s List.mem_cons_self)
  have hbyte : ((d.image.drop (s * blkSector + bytes.length)).take 1).length = 1 := by
    simp only [List.length_take, List.length_drop]
    omega
  have happlied : (applySectors restored entries).length = d.image.length := by
    rw [← hlength] at hentries ⊢
    exact applySectors_length entries hentries
  simp only [packStep, hpacker, hmore, if_true]
  refine ⟨h.covers, h.writers, ⟨hentries, hin, ?_, hcount⟩, restored, hrestored, hlength, ?_⟩
  · rw [List.length_append, hbyte]
    exact hmore
  · change AgreeExcept _ d.image (splice (applySectors restored entries) (s * blkSector)
      (bytes ++ _))
    rw [splice_append (by rw [List.length_append, hbyte]; omega)]
    refine AgreeExcept.copy_right (hagree.mono fun p hp howed => ?_) (by omega)
    by_cases hnow : p = s * blkSector + bytes.length
    · right
      omega
    · refine Or.inl (owed_packer _ howed fun howes => ?_)
      rw [hpacker] at howes
      rcases howes with ⟨heq, hle⟩ | hmem
      · refine Or.inl ⟨heq, ?_⟩
        rw [List.length_append, hbyte]
        omega
      · exact Or.inr hmem

/-- A copied sector becomes an entry. -/
theorem consistent_copyNext {baseline : List UInt8} {d : Shared ι} (h : Consistent baseline d)
    {entries : List (ℕ × List UInt8)} {bytes : List UInt8} {s : ℕ} {todo : List ℕ}
    (hpacker : d.packer = .copy entries bytes (s :: todo)) (hfull : ¬ bytes.length < blkSector) :
    Consistent baseline d.packStep := by
  obtain ⟨restored, hrestored, hlength, hagree⟩ := h.restored
  have hok := h.packer
  rw [hpacker] at hok hagree
  obtain ⟨hentries, hin, hbytes, hcount⟩ := hok
  have hsector := h.covers.sector_in (hin s List.mem_cons_self)
  have hlen : bytes.length = blkSector := by omega
  simp only [packStep, hpacker, hfull, if_false]
  refine ⟨h.covers, h.writers, ⟨?_, fun t ht => hin t (List.mem_cons_of_mem _ ht), Nat.zero_le _,
    ?_⟩, restored, hrestored, hlength, ?_⟩
  · intro e he
    rcases List.mem_append.mp he with he | he
    · exact hentries e he
    · rw [List.mem_singleton.mp he]
      exact ⟨hlen, hsector⟩
  · simp only [List.length_append, List.length_cons, List.length_nil] at hcount ⊢
    omega
  · have hcopied : (Packer.copy (entries ++ [(s, bytes)]) [] todo).copied restored =
        splice (applySectors restored entries) (s * blkSector) bytes := by
      have hfold : applySectors restored (entries ++ [(s, bytes)]) =
          splice (applySectors restored entries) (s * blkSector) bytes := by
        simp only [applySectors, List.foldl_append, List.foldl_cons, List.foldl_nil]
      cases todo with
      | nil => exact hfold
      | cons t todo => exact (splice_nil _ _).trans hfold
    rw [hcopied]
    refine hagree.mono fun p _ howed => owed_packer _ howed fun howes => ?_
    rw [hpacker] at howes
    rcases howes with ⟨heq, hle⟩ | hmem
    · -- nothing of the finished sector is left
      exfalso
      simp only [blkSector] at heq hle hlen
      omega
    · cases todo with
      | nil => exact absurd hmem List.not_mem_nil
      | cons t todo =>
        rcases List.mem_cons.mp hmem with heq | hmem
        · refine Or.inl ⟨heq, ?_⟩
          simp only [blkSector, List.length_nil] at heq ⊢
          omega
        · exact Or.inr hmem

/-- The finished overlay restores what was copied. -/
theorem consistent_finish {baseline : List UInt8} {d : Shared ι} (h : Consistent baseline d)
    {entries : List (ℕ × List UInt8)} {bytes : List UInt8}
    (hpacker : d.packer = .copy entries bytes []) : Consistent baseline d.packStep := by
  obtain ⟨restored, hrestored, hlength, hagree⟩ := h.restored
  have hok := h.packer
  rw [hpacker] at hok hagree
  obtain ⟨hentries, -, -, hcount⟩ := hok
  have hsmall := h.covers.small
  have hentries' : entries.length < 2 ^ 32 := by
    simp only [List.length_nil, blkSector, maxBufferBytes] at hcount hsmall
    omega
  have happly := applyDirtyOverlay_overlayBytes hsmall entries hentries hentries' hlength
  simp only [packStep, hpacker]
  refine ⟨h.covers, h.writers, trivial, applySectors restored entries,
    applyAll_concat hrestored happly, ?_, hagree.mono fun p _ howed => ?_⟩
  · rw [← hlength] at hentries ⊢
    exact applySectors_length entries hentries
  · rcases howed with hbit | hmark | howes
    · exact Or.inl hbit
    · exact Or.inr (Or.inl hmark)
    · rw [hpacker] at howes
      exact howes.elim

theorem consistent_pack {baseline : List UInt8} {d : Shared ι} (h : Consistent baseline d) :
    Consistent baseline d.packStep := by
  cases hpacker : d.packer with
  | idle =>
    obtain ⟨restored, hrestored, hlength, hagree⟩ := h.restored
    simp only [packStep, hpacker]
    rw [hpacker] at hagree
    refine ⟨h.covers, h.writers, ⟨fun t ht => absurd ht List.not_mem_nil, le_rfl, Nat.zero_le _⟩,
      restored, hrestored, hlength, hagree.mono fun p _ howed =>
        owed_packer _ howed fun howes => ?_⟩
    rw [hpacker] at howes
    exact howes.elim
  | test s dirty => exact consistent_test h hpacker
  | clear s dirty => exact consistent_clear h hpacker
  | copy entries bytes todo =>
    cases todo with
    | nil => exact consistent_finish h hpacker
    | cons s todo =>
      by_cases hmore : bytes.length < blkSector
      · exact consistent_copyByte h hpacker hmore
      · exact consistent_copyNext h hpacker hmore

/-- Without a write or a pack in progress, a last pack leaves nothing unsaved. -/
theorem consistent_pack_converges {baseline : List UInt8} {d : Shared ι}
    (h : Consistent baseline d) (hwriters : ∀ w, d.writers w = .done) (hpacker : d.packer = .idle) :
    applyAll (d.overlays ++ [(packDirtySectors d.image d.bitmap true).1]) baseline =
      .ok () d.image := by
  obtain ⟨restored, hrestored, -, hagree⟩ := h.restored
  rw [hpacker] at hagree
  refine applyAll_concat hrestored (apply_packDirtySectors h.covers (hagree.mono ?_) true)
  rintro p - (hdirty | ⟨w, hmark⟩ | howes)
  · exact hdirty
  · rw [hwriters w] at hmark
    exact absurd hmark List.not_mem_nil
  · rw [hpacker] at howes
    exact howes.elim

section Writers
variable [DecidableEq ι]

/-- A writer's step leaves the marks that are owed, but for those it settles. -/
theorem marks_update (settled : ℕ → Prop) {d : Shared ι} (w : ι) (next : Writer)
    (hnext : ∀ s ∈ (d.writers w).marks, settled s ∨ s ∈ next.marks) {s : ℕ}
    (h : ∃ w', s ∈ (d.writers w').marks) :
    settled s ∨ ∃ w', s ∈ (Function.update d.writers w next w').marks := by
  obtain ⟨w', hmem⟩ := h
  by_cases hw : w' = w
  · subst hw
    rcases hnext s hmem with hsettled | hmem
    · exact Or.inl hsettled
    · exact Or.inr ⟨w', by rwa [Function.update_self]⟩
  · exact Or.inr ⟨w', by rwa [Function.update_of_ne hw]⟩

theorem writers_update {d : Shared ι} {length : ℕ} (h : ∀ w, Writer.Ok length (d.writers w))
    {w : ι} {next : Writer} (hnext : Writer.Ok length next) (w' : ι) :
    Writer.Ok length (Function.update d.writers w next w') := by
  by_cases hw : w' = w
  · subst hw
    rwa [Function.update_self]
  · rw [Function.update_of_ne hw]
    exact h w'

theorem consistent_begin {baseline : List UInt8} {d : Shared ι} (h : Consistent baseline d)
    (w : ι) {memoryLength sector : ℕ} {segs : List VringSegment}
    (huntorn : Untorn d.image.length memoryLength (sector * blkSector) 0 segs) :
    Consistent baseline (d.step (.begin w memoryLength sector segs)) := by
  unfold step
  by_cases hdone : d.writers w = Writer.done
  · obtain ⟨restored, hrestored, hlength, hagree⟩ := h.restored
    simp only [hdone, if_true]
    refine ⟨h.covers, writers_update h.writers (writerOk_writeSteps h.covers.whole huntorn),
      h.packer, restored, hrestored, hlength, hagree.mono fun p _ howed => ?_⟩
    rcases howed with hdirty | hmark | hpacker
    · exact Or.inl hdirty
    · have hmarks := marks_update (fun _ => False) w
        (writeSteps d.image.length memoryLength sector segs) (by simp [hdone, Writer.done]) hmark
      exact Or.inr (Or.inl (hmarks.resolve_left id))
    · exact Or.inr (Or.inr hpacker)
  · simp only [hdone, if_false]
    exact h

theorem consistent_store {baseline : List UInt8} {d : Shared ι} (h : Consistent baseline d)
    (w : ι) (byte : UInt8) : Consistent baseline (d.step (.store w byte)) := by
  unfold step
  obtain ⟨restored, hrestored, hlength, hagree⟩ := h.restored
  have hok := h.writers w
  cases hw : d.writers w with
  | mk stores marks =>
    rw [hw] at hok
    cases stores with
    | nil => simpa only [hw] using h
    | cons p stores =>
      obtain ⟨hp, hsector⟩ := hok.stores p List.mem_cons_self
      have hlen : (splice d.image p [byte]).length = d.image.length :=
        splice_length hp
      have hkeeps : ∀ q, d.Owed q → Shared.Owed
          { d with writers := Function.update d.writers w ⟨stores, marks⟩ } q := by
        rintro q (hdirty | hmark | hpacker)
        · exact Or.inl hdirty
        · have hmarks := marks_update (fun _ => False) w ⟨stores, marks⟩ (by simp [hw]) hmark
          exact Or.inr (Or.inl (hmarks.resolve_left id))
        · exact Or.inr (Or.inr hpacker)
      simp only [hw]
      refine ⟨⟨?_, ?_, ?_⟩, ?_, ?_, restored, hrestored, hlength.trans hlen.symm, ?_⟩
      · rw [hlen]; exact h.covers.whole
      · rw [hlen]; exact h.covers.bits
      · rw [hlen]; exact h.covers.small
      · rw [hlen]
        exact writers_update h.writers
          ⟨fun q hq => hok.stores q (List.mem_cons_of_mem _ hq), hok.marks⟩
      · rw [hlen]; exact h.packer
      · refine (hagree.mono fun q _ hq => hkeeps q hq).splice_left hp ?_
        intro q hlow hhigh
        have hq : q = p := by simp at hhigh; omega
        subst hq
        exact hkeeps q (Or.inr (Or.inl ⟨w, by rw [hw]; exact hsector⟩))

theorem consistent_mark {baseline : List UInt8} {d : Shared ι} (h : Consistent baseline d)
    (w : ι) : Consistent baseline (d.step (.mark w)) := by
  unfold step
  obtain ⟨restored, hrestored, hlength, hagree⟩ := h.restored
  have hok := h.writers w
  cases hw : d.writers w with
  | mk stores marks =>
    rw [hw] at hok
    cases stores with
    | cons p stores => simpa only [hw] using h
    | nil =>
      cases marks with
      | nil => simpa only [hw] using h
      | cons s marks =>
        have hbit : s / 8 < d.bitmap.length := h.covers.bit_in (hok.marks s List.mem_cons_self)
        simp only [hw]
        refine ⟨⟨h.covers.whole, ?_, h.covers.small⟩, ?_, h.packer, restored, hrestored,
          hlength, ?_⟩
        · rw [orByte_length]; exact h.covers.bits
        · exact writers_update h.writers ⟨fun _ hp => absurd hp List.not_mem_nil,
            fun t ht => hok.marks t (List.mem_cons_of_mem _ ht)⟩
        · refine hagree.mono fun q _ hq => ?_
          unfold Owed
          rw [isDirty_orByte _ _ _ hbit, Bool.or_eq_true, decide_eq_true_eq]
          rcases hq with hdirty | hmark | hpacker
          · exact Or.inl (Or.inl hdirty)
          · rcases marks_update (· = s) w ⟨[], marks⟩ (by simp [hw]) hmark with heq | hmark
            · exact Or.inl (Or.inr heq)
            · exact Or.inr (Or.inl hmark)
          · exact Or.inr (Or.inr hpacker)

/-- Every write of the interleaving stores its bytes and then marks its sectors: none
is refused with some of its bytes already stored. -/
def StoresThenMarks (d : Shared ι) : Event ι → Prop
  | .begin _ memoryLength sector segs =>
    Untorn d.image.length memoryLength (sector * blkSector) 0 segs
  | _ => True

omit [DecidableEq ι] in
theorem storesThenMarks_single (d : Shared ι) (w : ι) (memoryLength sector : ℕ)
    (seg : VringSegment) : StoresThenMarks d (.begin w memoryLength sector [seg]) :=
  untorn_single seg

theorem consistent_step (baseline : List UInt8) (d : Shared ι) (e : Event ι)
    (h : Consistent baseline d) (hwrite : StoresThenMarks d e) :
    Consistent baseline (d.step e) := by
  cases e with
  | begin w memoryLength sector segs => exact consistent_begin h w hwrite
  | store w byte => exact consistent_store h w byte
  | mark w => exact consistent_mark h w
  | pack => exact consistent_pack h

end Writers

end Shared

/-- In every interleaving of writers and packs, the overlays of all packs and of one
last pack with no write in progress restore the image. -/
theorem saves_converge {ι : Type} [DecidableEq ι] (disk : StateDiskBacking)
    (events : List (Event ι))
    (hwrites : Along Shared.StoresThenMarks Shared.step (Shared.start disk) events) :
    let d := run Shared.step (Shared.start disk) events
    (∀ w, d.writers w = .done) → d.packer = .idle →
      applyAll (d.overlays ++ [(packDirtySectors d.image d.bitmap true).1]) disk.image =
        .ok () d.image := by
  intro d hwriters hpacker
  have hconsistent : d.Consistent disk.image :=
    run_along (Shared.Consistent disk.image) (Shared.consistent_step disk.image) events
      (Shared.consistent_start disk) hwrites
  exact Shared.consistent_pack_converges hconsistent hwriters hpacker

/-- A pack that runs in the middle of a write misses it; the last one does not. -/
theorem saves_converge_one_byte :
    let events : List (Event Unit) := [.begin () 1 0 [⟨0, 1⟩], .pack, .store () 0xFF, .pack,
      .pack, .pack, .mark ()]
    let d := run Shared.step (Shared.start zeroDisk) events
    d.overlays.length = 1 ∧
      applyAll (d.overlays ++ [(packDirtySectors d.image d.bitmap true).1]) zeroDisk.image =
        .ok () d.image := by
  refine ⟨by decide +kernel, saves_converge zeroDisk _ ?_ (fun w => ?_) (by decide +kernel)⟩
  · refine ⟨?_, trivial, trivial, trivial, trivial, trivial, trivial, trivial⟩
    generalize Shared.start zeroDisk = d
    exact Shared.storesThenMarks_single d () 1 0 ⟨0, 1⟩
  · cases w
    decide +kernel

end NixWasm.BlkSaves
