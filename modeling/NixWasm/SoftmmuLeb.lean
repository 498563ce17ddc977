import NixWasm.Leb
import Mathlib.Data.Nat.Bitwise

/-!
The LEB128 codecs of softmmu-pass.ts. The encoders work on 32-bit integers and shift them
right until nothing is left; `readU` adds up doubles, which are exact for the numbers that
the encoders write, and `readS` works on 32-bit integers again, so that it returns only the
low bits of a longer number. Both readers stop behind the first byte without a flag.
-/
namespace NixWasm.SoftmmuLeb

open Cursor

section Encode

def toByte (x : BitVec 32) : UInt8 := UInt8.ofNat x.toNat

theorem ushiftRight_lt {v : BitVec 32} (h : ¬ v >>> 7 = 0#32) : (v >>> 7).toNat < v.toNat := by
  have hne : ¬ (v >>> 7).toNat = 0 := fun heq => h (BitVec.eq_of_toNat_eq heq)
  rw [BitVec.toNat_ushiftRight, Nat.shiftRight_eq_div_pow] at hne ⊢
  omega

/-- The loop of `u`: with a flag on each byte but the last. -/
def uLoop (v : BitVec 32) : List UInt8 :=
  if v >>> 7 = 0#32 then [toByte (v &&& 0x7f#32)]
  else toByte (v &&& 0x7f#32 ||| 0x80#32) :: uLoop (v >>> 7)
termination_by v.toNat
decreasing_by exact ushiftRight_lt ‹_›

/-- `u`; a missing number is 0. -/
def u (n : Option ℤ) : List UInt8 := uLoop (BitVec.ofInt 32 (n.getD 0))

/-- Nothing but copies of the sign is left, and the byte shows the sign. -/
def lastSigned (v : BitVec 32) : Bool :=
  v.sshiftRight 7 = 0#32 ∧ v &&& 0x40#32 = 0#32 ∨
    v.sshiftRight 7 = BitVec.allOnes 32 ∧ v &&& 0x40#32 ≠ 0#32

/-- How far a number is from its sign. -/
def magnitude (v : BitVec 32) : ℕ := if 0 ≤ v.toInt then v.toInt.toNat else (-1 - v.toInt).toNat

theorem toInt_sshiftRight_seven (v : BitVec 32) : (v.sshiftRight 7).toInt = v.toInt / 128 := by
  rw [BitVec.toInt_sshiftRight, Int.shiftRight_eq_div_pow]
  rfl

theorem magnitude_lt {v : BitVec 32} (h : ¬ lastSigned v = true) :
    magnitude (v.sshiftRight 7) < magnitude v := by
  have hshift := toInt_sshiftRight_seven v
  by_cases hsmall : v.toInt = 0 ∨ v.toInt = -1
  · exfalso
    apply h
    rcases hsmall with hzero | hone
    · obtain rfl : v = 0#32 := BitVec.eq_of_toInt_eq hzero
      decide
    · obtain rfl : v = BitVec.allOnes 32 := BitVec.eq_of_toInt_eq hone
      decide
  · unfold magnitude
    rw [hshift]
    split <;> split <;> omega

/-- The loop of `s`. -/
def sLoop (v : BitVec 32) : List UInt8 :=
  if lastSigned v then [toByte (v &&& 0x7f#32)]
  else toByte (v &&& 0x7f#32 ||| 0x80#32) :: sLoop (v.sshiftRight 7)
termination_by magnitude v
decreasing_by exact magnitude_lt ‹_›

/-- `s`; a missing number is 0. -/
def s (n : Option ℤ) : List UInt8 := sLoop (BitVec.ofInt 32 (n.getD 0))

end Encode

section Decode

/-- The loop of `readU`, over the bytes from its index on: the number, and how many bytes it takes.
An undefined byte past the end has no digit and no flag. -/
def readULoop : List UInt8 → ℕ → ℕ → ℕ × ℕ
  | [], r, _ => (r, 1)
  | x :: rest, r, sh =>
    if x &&& 0x80 = 0 then (r + (x &&& 0x7f).toNat * 2 ^ sh, 1)
    else ((readULoop rest (r + (x &&& 0x7f).toNat * 2 ^ sh) (sh + 7)).1,
      (readULoop rest (r + (x &&& 0x7f).toNat * 2 ^ sh) (sh + 7)).2 + 1)

def readU (b : List UInt8) (i : ℕ) : ℕ × ℕ :=
  ((readULoop (b.drop i) 0 0).1, i + (readULoop (b.drop i) 0 0).2)

/-- `readS`; its loop is the signed reader of cursors. -/
def readS (b : List UInt8) (i : ℕ) : ℤ × ℕ :=
  ((slebAt (b.drop i) 0 0).1.toInt, i + (slebAt (b.drop i) 0 0).2)

theorem toNat_digit (x : UInt8) : (x &&& 0x7f).toNat = x.toNat % 128 := by
  rw [UInt8.toNat_and]
  exact Nat.and_two_pow_sub_one_eq_mod x.toNat 7

theorem flag_eq_zero (x : UInt8) : x &&& 0x80 = 0 ↔ x < 0x80 := by
  have hall : ∀ n : Fin 256, UInt8.ofNat n.val &&& 0x80 = 0 ↔ UInt8.ofNat n.val < 0x80 := by
    decide +kernel
  have h := hall ⟨x.toNat, x.toNat_lt⟩
  rwa [UInt8.ofNat_toNat] at h

/-- The loop adds the digits up as the reader of cursors does. -/
theorem readULoop_eq (b : List UInt8) (r sh : ℕ) :
    readULoop b r sh = (r + (ulebAt b).1 * 2 ^ sh, (ulebAt b).2) := by
  induction b generalizing r sh with
  | nil => simp [readULoop, ulebAt]
  | cons x b ih =>
    rw [readULoop, ulebAt, toNat_digit]
    by_cases hlast : x < 0x80
    · have hsmall : x.toNat < 128 := UInt8.lt_iff_toNat_lt.mp hlast
      rw [if_pos ((flag_eq_zero x).mpr hlast), if_pos hlast, Nat.mod_eq_of_lt hsmall]
    · rw [if_neg fun h => hlast ((flag_eq_zero x).mp h), if_neg hlast, ih, Nat.pow_add]
      simp only [Prod.mk.injEq, and_true]
      ring

theorem readU_eq (b : List UInt8) (i : ℕ) :
    readU b i = ((ulebAt (b.drop i)).1, i + (ulebAt (b.drop i)).2) := by
  simp [readU, readULoop_eq]

end Decode

section RoundTrip

theorem toNat_low (v : BitVec 32) : (v &&& 0x7f#32).toNat = v.toNat % 128 := by
  rw [BitVec.toNat_and]
  exact Nat.and_two_pow_sub_one_eq_mod v.toNat 7

theorem toNat_flagged (v : BitVec 32) :
    (v &&& 0x7f#32 ||| 0x80#32).toNat = v.toNat % 128 + 128 := by
  have hsmall : v.toNat % 128 < 2 ^ 7 := Nat.mod_lt _ (by decide)
  have hadd := Nat.two_pow_add_eq_or_of_lt hsmall 1
  rw [BitVec.toNat_or, toNat_low, Nat.or_comm]
  exact hadd.symm.trans (Nat.add_comm _ _)

theorem toNat_toByte {x : BitVec 32} (h : x.toNat < 256) : (toByte x).toNat = x.toNat := by
  rw [toByte, UInt8.toNat_ofNat']
  exact Nat.mod_eq_of_lt h

theorem toNat_byte_low (v : BitVec 32) : (toByte (v &&& 0x7f#32)).toNat = v.toNat % 128 := by
  rw [toNat_toByte (by rw [toNat_low]; omega), toNat_low]

theorem toNat_byte_flagged (v : BitVec 32) :
    (toByte (v &&& 0x7f#32 ||| 0x80#32)).toNat = v.toNat % 128 + 128 := by
  rw [toNat_toByte (by rw [toNat_flagged]; omega), toNat_flagged]

theorem byte_low_lt (v : BitVec 32) : toByte (v &&& 0x7f#32) < 0x80 := by
  rw [UInt8.lt_iff_toNat_lt, toNat_byte_low]
  exact Nat.mod_lt _ (by decide)

theorem byte_flagged_not_lt (v : BitVec 32) : ¬ toByte (v &&& 0x7f#32 ||| 0x80#32) < 0x80 := by
  rw [UInt8.lt_iff_toNat_lt, toNat_byte_flagged]
  exact Nat.not_lt.mpr (Nat.le_add_left _ _)

/-- An unsigned number is read back, digit by digit. -/
theorem ulebAt_uLoop (v : BitVec 32) (rest : List UInt8) :
    ulebAt (uLoop v ++ rest) = (v.toNat, (uLoop v).length) := by
  induction v using uLoop.induct with
  | case1 v hlast =>
    have hsmall : v.toNat < 128 := by
      have hzero := congrArg BitVec.toNat hlast
      rw [BitVec.toNat_ushiftRight, Nat.shiftRight_eq_div_pow] at hzero
      simp only [BitVec.toNat_ofNat, Nat.zero_mod] at hzero
      omega
    rw [uLoop, if_pos hlast, List.cons_append, List.nil_append, ulebAt, if_pos (byte_low_lt v),
      toNat_byte_low, Nat.mod_eq_of_lt hsmall]
    rfl
  | case2 v hmore ih =>
    rw [uLoop, if_neg hmore, List.cons_append, ulebAt, if_neg (byte_flagged_not_lt v), ih,
      toNat_byte_flagged, BitVec.toNat_ushiftRight, Nat.shiftRight_eq_div_pow, List.length_cons]
    simp only [Prod.mk.injEq, and_true]
    omega

theorem signBit_eq_zero (v : BitVec 32) : v &&& 0x40#32 = 0#32 ↔ v.toNat % 128 < 64 := by
  have hbit : (v &&& 0x40#32).toNat = (v.toNat.testBit 6).toNat * 2 ^ 6 := by
    rw [BitVec.toNat_and]
    exact Nat.and_two_pow v.toNat 6
  rw [← BitVec.toNat_inj, hbit, Nat.testBit_eq_decide_div_mod_eq]
  by_cases hset : v.toNat / 2 ^ 6 % 2 = 1
  · simp only [hset, decide_true, Bool.toNat_true, BitVec.toNat_ofNat]
    omega
  · simp only [hset, decide_false, Bool.toNat_false, BitVec.toNat_ofNat]
    omega

theorem getLsbD_digit (v : BitVec 32) (i : ℕ) :
    (BitVec.ofNat 32 (v.toNat % 128)).getLsbD i = (decide (i < 7) && v.getLsbD i) := by
  have hmod : (v.toNat % 128).testBit i = (decide (i < 7) && v.toNat.testBit i) :=
    Nat.testBit_mod_two_pow v.toNat 7 i
  rw [BitVec.getLsbD_ofNat, hmod, BitVec.testBit_toNat]
  by_cases hi : i < 7
  · simp [hi, show i < 32 by omega]
  · simp [hi]

/-- The low `sh` bits of `n`, which the reader has collected. -/
def Collected (n r : BitVec 32) (sh : ℕ) : Prop :=
  ∀ i, i < 32 → r.getLsbD i = (decide (i < sh) && n.getLsbD i)

/-- One more digit is collected. -/
theorem collected_digit {n r : BitVec 32} {sh : ℕ} (hr : Collected n r sh) (hsh : sh < 32) :
    Collected n (r ||| (BitVec.ofNat 32 ((n.sshiftRight sh).toNat % 128) <<< (sh % 32)))
      (sh + 7) := by
  intro i hi
  rw [Nat.mod_eq_of_lt hsh, BitVec.getLsbD_or, hr i hi, BitVec.getLsbD_shiftLeft, getLsbD_digit,
    BitVec.getLsbD_sshiftRight]
  by_cases hlow : i < sh
  · simp [hlow, show i < sh + 7 by omega]
  · have hback : sh + (i - sh) = i := by omega
    by_cases hhigh : i < sh + 7
    · simp [hlow, hhigh, hi, hback, show i - sh < 7 by omega, show i - sh < 32 by omega]
    · simp [hlow, hhigh, show ¬ i - sh < 7 by omega]

/-- The bits that are left to read. -/
theorem getLsbD_rest (n : BitVec 32) {sh i : ℕ} (hlow : sh + 7 ≤ i) (hi : i < 32) :
    ((n.sshiftRight sh).sshiftRight 7).getLsbD (i - (sh + 7)) = n.getLsbD i := by
  have hback : sh + 7 + (i - (sh + 7)) = i := by omega
  rw [← BitVec.sshiftRight_add, BitVec.getLsbD_sshiftRight, hback, if_pos hi]
  simp [show i - (sh + 7) < 32 by omega]

/-- The fifth digit is always the last one. -/
theorem lastSigned_fifth (n : BitVec 32) : lastSigned (n.sshiftRight 28) = true := by
  have hint : (n.sshiftRight 28).toInt = n.toInt / 2 ^ 28 := by
    rw [BitVec.toInt_sshiftRight, Int.shiftRight_eq_div_pow]
    rfl
  have hrange : -2 ^ 31 ≤ n.toInt ∧ n.toInt < 2 ^ 31 := ⟨BitVec.le_toInt n, BitVec.toInt_lt⟩
  have hcond := BitVec.toInt_eq_toNat_cond (n.sshiftRight 28)
  have hshift := toInt_sshiftRight_seven (n.sshiftRight 28)
  have hlt := (n.sshiftRight 28).isLt
  generalize n.sshiftRight 28 = v at hint hcond hshift hlt ⊢
  refine decide_eq_true ?_
  rw [ne_eq, signBit_eq_zero]
  by_cases hneg : n.toInt < 0
  · have hv : -8 ≤ v.toInt ∧ v.toInt ≤ -1 := by omega
    right
    refine ⟨BitVec.eq_of_toInt_eq (by rw [hshift]; change _ = (-1 : ℤ); omega), ?_⟩
    split at hcond <;> omega
  · have hv : 0 ≤ v.toInt ∧ v.toInt ≤ 7 := by omega
    left
    refine ⟨BitVec.eq_of_toInt_eq (by rw [hshift]; change _ = (0 : ℤ); omega), ?_⟩
    split at hcond <;> omega

/-- The last digit brings the sign with it, if it does not fill the 32 bits itself. -/
theorem collected_last {n r : BitVec 32} {sh : ℕ} (hr : Collected n r (sh + 7))
    (hlast : lastSigned (n.sshiftRight sh) = true) :
    (if sh + 7 < 32 ∧ n.sshiftRight sh &&& 0x40#32 ≠ 0#32 then
      r ||| (BitVec.allOnes 32 <<< (sh + 7)) else r) = n := by
  have hcases := of_decide_eq_true hlast
  apply BitVec.eq_of_getLsbD_eq
  intro i hi
  by_cases hext : sh + 7 < 32 ∧ n.sshiftRight sh &&& 0x40#32 ≠ 0#32
  · rw [if_pos hext, BitVec.getLsbD_or, hr i hi, BitVec.getLsbD_shiftLeft, BitVec.getLsbD_allOnes]
    have hones : (n.sshiftRight sh).sshiftRight 7 = BitVec.allOnes 32 := by
      rcases hcases with ⟨-, hzero⟩ | ⟨hones, -⟩
      · exact absurd hzero hext.2
      · exact hones
    by_cases hlow : i < sh + 7
    · simp [hlow]
    · have hhigh : sh + 7 ≤ i := by omega
      rw [← getLsbD_rest n hhigh hi, hones, BitVec.getLsbD_allOnes]
      simp [hi, hlow]
  · rw [if_neg hext, hr i hi]
    by_cases hlow : i < sh + 7
    · simp [hlow]
    · have hzeros : (n.sshiftRight sh).sshiftRight 7 = 0#32 := by
        rcases hcases with ⟨hzeros, -⟩ | ⟨-, hset⟩
        · exact hzeros
        · exact absurd ⟨by omega, hset⟩ hext
      have hhigh : sh + 7 ≤ i := by omega
      rw [← getLsbD_rest n hhigh hi, hzeros]
      simp

theorem byte_low_sign (v : BitVec 32) :
    (0x40 : UInt8) ≤ toByte (v &&& 0x7f#32) ↔ v &&& 0x40#32 ≠ 0#32 := by
  rw [ne_eq, signBit_eq_zero, UInt8.le_iff_toNat_le, toNat_byte_low]
  exact Nat.not_lt.symm

/-- A signed number is read back. -/
theorem slebAt_sLoop {n v r : BitVec 32} {sh : ℕ} (rest : List UInt8) (hv : v = n.sshiftRight sh)
    (hr : Collected n r sh) (hsh : ∃ k ≤ 4, sh = 7 * k) :
    slebAt (sLoop v ++ rest) sh r = (n, (sLoop v).length) := by
  obtain ⟨k, hk, rfl⟩ := hsh
  have hcollected := collected_digit hr (by omega)
  induction v using sLoop.induct generalizing k r with
  | case1 v hlast =>
    subst hv
    have hdone := collected_last hcollected hlast
    rw [sLoop, if_pos hlast, List.cons_append, List.nil_append, slebAt, toNat_byte_low,
      Nat.mod_mod, if_neg (UInt8.not_le.mpr (byte_low_lt _))]
    simp only [byte_low_sign]
    rw [← apply_ite (fun x => (x, 1)), hdone]
    rfl
  | case2 v hmore ih =>
    subst hv
    have hk' : k ≠ 4 := by
      rintro rfl
      exact hmore (lastSigned_fifth n)
    rw [sLoop, if_neg hmore, List.cons_append, slebAt, toNat_byte_flagged, Nat.add_mod_right,
      Nat.mod_mod, if_pos (UInt8.not_lt.mp (byte_flagged_not_lt _))]
    have hv : (n.sshiftRight (7 * k)).sshiftRight 7 = n.sshiftRight (7 * (k + 1)) :=
      BitVec.sshiftRight_add.symm
    have hnext := ih (k + 1) (by omega) hv hcollected (collected_digit hcollected (by omega))
    rw [show 7 * k + 7 = 7 * (k + 1) by omega, hnext]
    rfl

theorem readU_u (n : BitVec 32) (pre rest : List UInt8) :
    readU (pre ++ (u (some n.toNat) ++ rest)) pre.length =
      (n.toNat, pre.length + (u (some n.toNat)).length) := by
  have hword : BitVec.ofInt 32 ((some (n.toNat : ℤ)).getD 0) = n := by
    rw [Option.getD_some, BitVec.ofInt_natCast, BitVec.ofNat_toNat, BitVec.setWidth_eq]
  rw [readU_eq, List.drop_left, u, hword, ulebAt_uLoop]

theorem readS_s (n : BitVec 32) (pre rest : List UInt8) :
    readS (pre ++ (s (some n.toInt) ++ rest)) pre.length =
      (n.toInt, pre.length + (s (some n.toInt)).length) := by
  have hword : BitVec.ofInt 32 ((some n.toInt).getD 0) = n := by
    rw [Option.getD_some, BitVec.ofInt_toInt]
  have hread : slebAt (sLoop n ++ rest) 0 0 = (n, (sLoop n).length) :=
    slebAt_sLoop rest (by simp) (fun i _ => by simp) ⟨0, by omega, rfl⟩
  rw [readS, List.drop_left, s, hword, hread]

/-- The signed reader stops behind every number, however long. -/
theorem readS_stops (l : Leb) (pre rest : List UInt8) :
    (readS (pre ++ (l.bytes ++ rest)) pre.length).2 = pre.length + l.bytes.length := by
  rw [readS, List.drop_left, slebAt_bytes]

end RoundTrip

end NixWasm.SoftmmuLeb
