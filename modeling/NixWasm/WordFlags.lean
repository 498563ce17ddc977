import Mathlib.Data.BitVec

/-!
Flag words. A mask test against a fixed-width word is a statement about the bits
the mask names, and a field above the flags is a shift. The lemmas turn tests of
both shapes into statements about single bits, where the word operations act
independently.
-/
namespace NixWasm.WordFlags

variable {w : ℕ}

/-- All flags of the mask are set. -/
theorem and_eq_mask_iff (x m : BitVec w) :
    x &&& m = m ↔ ∀ i, m.getLsbD i = true → x.getLsbD i = true := by
  constructor
  · intro h i hi
    have hbit := congrArg (fun y => y.getLsbD i) h
    simpa only [BitVec.getLsbD_and, hi, Bool.and_true] using hbit
  · intro h
    apply BitVec.eq_of_getLsbD_eq
    intro i _
    cases hi : m.getLsbD i with
    | true => simp [hi, h i hi]
    | false => simp [hi]

/-- A one-bit mask tests its bit. -/
theorem and_twoPow_ne_zero_iff (x : BitVec w) {i : ℕ} (hi : i < w) :
    x &&& BitVec.twoPow w i ≠ 0 ↔ x.getLsbD i = true := by
  have hne : BitVec.twoPow w i ≠ 0 := by
    intro hzero
    have hbit := congrArg (fun y => y.getLsbD i) hzero
    simp [hi] at hbit
  rw [BitVec.and_twoPow]
  cases hx : x.getLsbD i with
  | true => simpa using hne
  | false => simp

/-- Clearing a mask leaves the bits outside it. -/
theorem getLsbD_clear (x : BitVec w) {m : BitVec w} {j : ℕ} (hm : m.getLsbD j = false) :
    (x &&& ~~~m).getLsbD j = x.getLsbD j := by
  rw [BitVec.getLsbD_and, BitVec.getLsbD_not, hm]
  by_cases hw : j < w
  · simp only [hw, decide_true, Bool.not_false, Bool.and_true]
  · rw [BitVec.getLsbD_of_ge x j (by omega), Bool.false_and]

/-- Setting a mask leaves the bits outside it. -/
theorem getLsbD_raise (x : BitVec w) {m : BitVec w} {j : ℕ} (hm : m.getLsbD j = false) :
    (x ||| m).getLsbD j = x.getLsbD j := by
  rw [BitVec.getLsbD_or, hm, Bool.or_false]

/-- The field above a word's flags only depends on the bits from there on. -/
theorem ushiftRight_congr {x y : BitVec w} (n : ℕ)
    (h : ∀ i, n ≤ i → x.getLsbD i = y.getLsbD i) : x >>> n = y >>> n := by
  apply BitVec.eq_of_getLsbD_eq
  intro i _
  simp only [BitVec.getLsbD_ushiftRight]
  exact h (n + i) (by omega)

/-- A mask of `n` ones above `k` zeros rounds down to a multiple of `2 ^ k`. -/
theorem and_shiftedMask {x n k : ℕ} (hx : x < 2 ^ (n + k)) :
    x &&& ((2 ^ n - 1) <<< k) = x / 2 ^ k * 2 ^ k := by
  rw [← Nat.shiftRight_eq_div_pow, ← Nat.shiftLeft_eq]
  refine Nat.eq_of_testBit_eq fun i => ?_
  rw [Nat.testBit_and, Nat.testBit_shiftLeft, Nat.testBit_shiftLeft, Nat.testBit_two_pow_sub_one,
    Nat.testBit_shiftRight]
  by_cases hlow : k ≤ i
  · by_cases hhigh : i - k < n
    · simp [hlow, hhigh]
    · have hbit : x.testBit i = false :=
        Nat.testBit_lt_two_pow (hx.trans_le (Nat.pow_le_pow_right (by decide) (by omega)))
      simp [hlow, hhigh, hbit]
  · simp [hlow]

end NixWasm.WordFlags
