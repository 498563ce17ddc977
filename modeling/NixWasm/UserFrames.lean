import NixWasm.UserTranslate

/-!
The host's translation by pages: a page has a frame or none, and every byte of the page is at the
same offset in the frame. What the translation reads are two table entries, so a memory that has
the same entries translates the same.
-/
namespace NixWasm.UserAccess

open Bytes ByteStore

/-- Where the level-1 entry of a page stands. -/
def pgdOffset (root vpage : ℕ) : ℕ := root + (vpage >>> 10) <<< 2

/-- Where the level-2 entry stands that a level-1 entry leads to. -/
def pteOffset (pgdE vpage : ℕ) : ℕ := frameOf pgdE + (vpage &&& 0x3ff) <<< 2

/-- The frame of a page, if the table allows the access. -/
def frameAt (memory : List UInt8) (root vpage : ℕ) (write : Bool) : Option ℕ :=
  if root = 0 then some (vpage * page)
  else (field memory (pgdOffset root vpage) 4).bind fun pgdE =>
    if pgdE = 0 then none
    else (field memory (pteOffset pgdE vpage) 4).bind fun pte =>
      if pte &&& 1 = 0 ∨ (write = true ∧ pte &&& 2 = 0) then none else some (frameOf pte)

theorem and_pageMask (x : ℕ) : x &&& pageMask = x % page :=
  Nat.and_two_pow_sub_one_eq_mod x 12

theorem field_eq_none {memory : List UInt8} {off : ℕ} (h : off + 4 > memory.length) :
    field memory off 4 = none := by
  rw [field, load, if_neg (by omega)]
  rfl

theorem field_isSome {memory : List UInt8} {off : ℕ} (h : ¬ off + 4 > memory.length) :
    ∃ v, field memory off 4 = some v :=
  ⟨leValue ((memory.drop off).take 4), by rw [field, load, if_pos (by omega), Option.map_some]⟩

section Frames
variable {memory : List UInt8} {ptBase va : ℤ} {write : Bool}

/-- The page's frame with the offset in the page, or a fault where the page has none. -/
theorem translateUser_frame (memory : List UInt8) (ptBase va : ℤ) (write : Bool) :
    (∃ f, frameAt memory (toUint32 ptBase) (toUint32 va / page) write = some f ∧
      translateUser memory ptBase va write = .ok (f + toUint32 va % page)) ∨
    (frameAt memory (toUint32 ptBase) (toUint32 va / page) write = none ∧
      ∃ detail, translateUser memory ptBase va write =
        .error (.userFault (toUint32 va) (faultKind write) detail)) := by
  by_cases hroot : toUint32 ptBase = 0
  · refine Or.inl ⟨toUint32 va / page * page, if_pos hroot, ?_⟩
    rw [translateUser_identity hroot, Nat.div_add_mod']
  have hpage : toUint32 va / page = toUint32 va >>> 12 := by
    rw [Nat.shiftRight_eq_div_pow]
    rfl
  have hindex : toUint32 va >>> 22 = (toUint32 va >>> 12) >>> 10 := by
    rw [← Nat.shiftRight_add]
  rw [translateUser_table hroot, frameAt, if_neg hroot, hpage, hindex]
  dsimp only
  rw [show toUint32 ptBase + ((toUint32 va >>> 12) >>> 10) <<< 2 =
    pgdOffset (toUint32 ptBase) (toUint32 va >>> 12) from rfl]
  by_cases hpgd : pgdOffset (toUint32 ptBase) (toUint32 va >>> 12) + 4 > memory.length
  · rw [if_pos hpgd, field_eq_none hpgd]
    exact Or.inr ⟨rfl, _, rfl⟩
  obtain ⟨pgdE, hpgdE⟩ := field_isSome hpgd
  rw [if_neg hpgd, hpgdE, Option.bind_some]
  simp only [getUint32, hpgdE, Except.bind]
  by_cases hzero : pgdE = 0
  · rw [if_pos hzero, if_pos hzero]
    exact Or.inr ⟨rfl, _, rfl⟩
  rw [if_neg hzero, if_neg hzero]
  rw [show frameOf pgdE + ((toUint32 va >>> 12) &&& 0x3ff) <<< 2 =
    pteOffset pgdE (toUint32 va >>> 12) from rfl]
  by_cases hpte : pteOffset pgdE (toUint32 va >>> 12) + 4 > memory.length
  · rw [if_pos hpte, field_eq_none hpte]
    exact Or.inr ⟨rfl, _, rfl⟩
  obtain ⟨pte, hpteE⟩ := field_isSome hpte
  rw [if_neg hpte, hpteE, Option.bind_some]
  simp only [and_pageMask]
  by_cases hone : pte &&& 1 = 0
  · rw [if_pos (Or.inl hone), if_pos hone]
    exact Or.inr ⟨rfl, _, rfl⟩
  rw [if_neg hone]
  by_cases hwrite : write = true ∧ pte &&& 2 = 0
  · rw [if_pos (Or.inr hwrite), if_pos hwrite]
    exact Or.inr ⟨rfl, _, rfl⟩
  rw [if_neg (not_or.mpr ⟨hone, hwrite⟩), if_neg hwrite]
  exact Or.inl ⟨_, rfl, rfl⟩

/-- The address a byte is found at. -/
def physAt (memory : List UInt8) (ptBase : ℤ) (write : Bool) (a : ℕ) : Option ℕ :=
  (translateUser memory ptBase a write).toOption

/-- The byte at a virtual address, when the walk and the memory have one. -/
def byteAt (memory : List UInt8) (ptBase : ℤ) (write : Bool) (a : ℕ) : Option UInt8 :=
  (physAt memory ptBase write a).bind (memory[·]?)

theorem translateUser_of_some {a p : ℕ} (h : physAt memory ptBase write a = some p) :
    translateUser memory ptBase a write = .ok p := by
  unfold physAt at h
  cases ht : translateUser memory ptBase a write with
  | error e => rw [ht] at h; cases h
  | ok q => rw [ht] at h; cases h; rfl

theorem toUint32_natCast (a : ℕ) : toUint32 a = a % 2 ^ 32 := by
  unfold toUint32
  omega

theorem physAt_eq (a : ℕ) : physAt memory ptBase write a =
    (frameAt memory (toUint32 ptBase) (a % 2 ^ 32 / page) write).map (· + a % page) := by
  have hoff : a % 2 ^ 32 % page = a % page := Nat.mod_mod_of_dvd a ⟨2 ^ 20, rfl⟩
  obtain ⟨f, hf, hok⟩ | ⟨hf, detail, herr⟩ :=
    translateUser_frame memory ptBase a write
  · rw [toUint32_natCast, hoff] at hok
    rw [toUint32_natCast] at hf
    rw [physAt, hok, hf]
    rfl
  · rw [toUint32_natCast] at hf
    rw [physAt, herr, hf]
    rfl

/-- Where writing is allowed, so is reading. -/
theorem frameAt_read {root vpage f : ℕ} (h : frameAt memory root vpage true = some f) :
    frameAt memory root vpage false = some f := by
  unfold frameAt at h ⊢
  by_cases hroot : root = 0
  · rwa [if_pos hroot] at h ⊢
  rw [if_neg hroot] at h ⊢
  obtain ⟨pgdE, hpgdE, h⟩ := Option.bind_eq_some_iff.mp h
  rw [hpgdE, Option.bind_some]
  by_cases hzero : pgdE = 0
  · rw [if_pos hzero] at h
    cases h
  rw [if_neg hzero] at h ⊢
  obtain ⟨pte, hpte, h⟩ := Option.bind_eq_some_iff.mp h
  rw [hpte, Option.bind_some]
  by_cases hone : pte &&& 1 = 0
  · rw [if_pos (Or.inl hone)] at h
    cases h
  rw [if_neg (not_or.mpr ⟨hone, fun hwrite => Bool.false_ne_true hwrite.1⟩)]
  split at h
  · cases h
  · exact h

/-- The positions of the table entries that translating an address reads. -/
def EntryByte (memory : List UInt8) (ptBase : ℤ) (a q : ℕ) : Prop :=
  let root := toUint32 ptBase
  let vpage := a % 2 ^ 32 / page
  root ≠ 0 ∧ ((pgdOffset root vpage ≤ q ∧ q < pgdOffset root vpage + 4) ∨
    ∃ pgdE, field memory (pgdOffset root vpage) 4 = some pgdE ∧
      pteOffset pgdE vpage ≤ q ∧ q < pteOffset pgdE vpage + 4)

/-- Only the entries matter: the second one where there is a first. -/
theorem frameAt_congr {memory' : List UInt8} {root vpage : ℕ}
    (hlen : memory'.length = memory.length)
    (hpgd : root ≠ 0 → ∀ q, pgdOffset root vpage ≤ q → q < pgdOffset root vpage + 4 →
      memory'[q]? = memory[q]?)
    (hpte : root ≠ 0 → ∀ pgdE, pgdE ≠ 0 → field memory (pgdOffset root vpage) 4 = some pgdE →
      ∀ q, pteOffset pgdE vpage ≤ q → q < pteOffset pgdE vpage + 4 → memory'[q]? = memory[q]?) :
    frameAt memory' root vpage write = frameAt memory root vpage write := by
  unfold frameAt
  by_cases hroot : root = 0
  · rw [if_pos hroot, if_pos hroot]
  rw [if_neg hroot, if_neg hroot]
  have hfield : field memory' (pgdOffset root vpage) 4 = field memory (pgdOffset root vpage) 4 := by
    rw [field, field, load_congr hlen (hpgd hroot)]
  rw [hfield]
  refine Option.bind_congr fun pgdE hpgdE => ?_
  by_cases hzero : pgdE = 0
  · rw [if_pos hzero, if_pos hzero]
  rw [if_neg hzero, if_neg hzero, field, field, load_congr hlen (hpte hroot pgdE hzero hpgdE)]

end Frames

end NixWasm.UserAccess
