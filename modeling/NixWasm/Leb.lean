import NixWasm.Bytes
import NixWasm.Cursor

/-!
LEB128 numbers with their paddings. A `Leb` is the sequence of the seven-bit digits as
written, so that every way of writing a number is a value of its own and none is cut
short. Both kinds of readers give back its value and consume exactly its bytes.
-/
namespace NixWasm

instance neZero_digit : NeZero 128 := ⟨by decide⟩

/-- A LEB128 number as written, lowest digit first. -/
structure Leb where
  more : List (Fin 128)
  last : Fin 128
  deriving DecidableEq

namespace Leb

def bytes (l : Leb) : List UInt8 :=
  l.more.map (fun d => UInt8.ofNat (d.val + 128)) ++ [UInt8.ofNat l.last.val]

/-- Value of the digits as an unsigned number. -/
def value (l : Leb) : ℕ := l.more.foldr (fun d v => d.val + 128 * v) l.last.val

def prepend (d : Fin 128) (l : Leb) : Leb := ⟨d :: l.more, l.last⟩

/-- The digits of a number, with no padding; `fuel` rounds are enough from `v ≤ fuel` on. -/
def digits : ℕ → ℕ → Leb
  | 0, v => ⟨[], Fin.ofNat 128 v⟩
  | fuel + 1, v =>
    if v < 128 then ⟨[], Fin.ofNat 128 v⟩
    else prepend (Fin.ofNat 128 v) (digits fuel (v / 128))

/-- The shortest way of writing a number. -/
def ofNat (v : ℕ) : Leb := digits v v

theorem value_digits (fuel v : ℕ) (h : v ≤ fuel) : (digits fuel v).value = v := by
  induction fuel generalizing v with
  | zero =>
    obtain rfl : v = 0 := by omega
    rfl
  | succ fuel ih =>
    rw [digits]
    split
    · rename_i hsmall
      simp only [value, List.foldr_nil, Fin.val_ofNat]
      omega
    · have htail := ih (v / 128) (by omega)
      simp only [value, prepend, List.foldr_cons, Fin.val_ofNat] at htail ⊢
      rw [htail]
      omega

@[simp] theorem value_ofNat (v : ℕ) : (ofNat v).value = v := value_digits v v (Nat.le_refl v)

theorem bytes_eq_cons (d : Fin 128) (more : List (Fin 128)) (last : Fin 128) :
    (⟨d :: more, last⟩ : Leb).bytes =
      UInt8.ofNat (d.val + 128) :: (⟨more, last⟩ : Leb).bytes := rfl

theorem toNat_continued (d : Fin 128) : (UInt8.ofNat (d.val + 128)).toNat = d.val + 128 := by
  rw [UInt8.toNat_ofNat']
  omega

theorem toNat_final (d : Fin 128) : (UInt8.ofNat d.val).toNat = d.val := by
  rw [UInt8.toNat_ofNat']
  omega

theorem continued_not_lt (d : Fin 128) : ¬ UInt8.ofNat (d.val + 128) < 0x80 := by
  rw [UInt8.lt_iff_toNat_lt, toNat_continued]
  change ¬ d.val + 128 < 128
  omega

theorem final_lt (d : Fin 128) : UInt8.ofNat d.val < 0x80 := by
  rw [UInt8.lt_iff_toNat_lt, toNat_final]
  exact d.isLt

theorem bytes_length_pos (l : Leb) : 0 < l.bytes.length := by simp [bytes]

end Leb

/-- Read an unsigned number; running out of bytes fails. -/
def readUleb : List UInt8 → Option (ℕ × List UInt8)
  | [] => none
  | b :: rest =>
    if b < 0x80 then some (b.toNat, rest)
    else (readUleb rest).map fun r => (b.toNat % 128 + 128 * r.1, r.2)

/-- What is read is a number as written. -/
theorem readUleb_sound {bytes rest : List UInt8} {v : ℕ} (h : readUleb bytes = some (v, rest)) :
    ∃ l : Leb, bytes = l.bytes ++ rest ∧ l.value = v := by
  induction bytes generalizing v with
  | nil => cases h
  | cons b bytes ih =>
    rw [readUleb] at h
    split at h
    · rename_i hsmall
      rw [UInt8.lt_iff_toNat_lt] at hsmall
      cases h
      exact ⟨⟨[], ⟨b.toNat, hsmall⟩⟩, by simp [Leb.bytes], rfl⟩
    · rename_i hlarge
      rw [UInt8.lt_iff_toNat_lt] at hlarge
      change ¬ b.toNat < 128 at hlarge
      obtain ⟨⟨w, rest'⟩, hread, heq⟩ := Option.map_eq_some_iff.mp h
      cases heq
      obtain ⟨⟨more, last⟩, rfl, rfl⟩ := ih hread
      refine ⟨⟨⟨b.toNat % 128, Nat.mod_lt _ (by omega)⟩ :: more, last⟩, ?_, rfl⟩
      have hlt := b.toNat_lt
      have hdigit : b.toNat % 128 + 128 = b.toNat := by omega
      rw [Leb.bytes_eq_cons, List.cons_append]
      dsimp only
      rw [hdigit, UInt8.ofNat_toNat]

/-- Skip a signed number. -/
def skipLeb : List UInt8 → Option (Unit × List UInt8)
  | [] => none
  | b :: rest => if b < 0x80 then some ((), rest) else skipLeb rest

namespace Bytes.Reader

def uleb : Reader ℕ := readUleb

def anyLeb : Reader Unit := skipLeb

theorem reads_uleb (l : Leb) : Reads uleb l.bytes l.value := by
  intro rest
  obtain ⟨more, last⟩ := l
  induction more with
  | nil =>
    simp only [uleb, readUleb, Leb.bytes, Leb.value, List.map_nil, List.nil_append,
      List.cons_append, Leb.final_lt, if_true, Leb.toNat_final, List.foldr_nil]
  | cons d more ih =>
    have htail : readUleb ((⟨more, last⟩ : Leb).bytes ++ rest) =
        some ((⟨more, last⟩ : Leb).value, rest) := ih
    rw [Leb.bytes_eq_cons, List.cons_append]
    simp only [uleb, readUleb, Leb.continued_not_lt, if_false, htail, Option.map_some,
      Leb.toNat_continued, Leb.value, List.foldr_cons]
    congr 2
    omega

theorem reads_anyLeb (l : Leb) : Reads anyLeb l.bytes () := by
  intro rest
  obtain ⟨more, last⟩ := l
  induction more with
  | nil => simp [anyLeb, skipLeb, Leb.bytes, Leb.final_lt]
  | cons d more ih =>
    rw [Leb.bytes_eq_cons, List.cons_append]
    simp only [anyLeb, skipLeb, Leb.continued_not_lt, if_false]
    exact ih

end Bytes.Reader

namespace Cursor

variable {ε : Type}

theorem ulebAt_bytes (l : Leb) (rest : List UInt8) :
    ulebAt (l.bytes ++ rest) = (l.value, l.bytes.length) := by
  obtain ⟨more, last⟩ := l
  induction more with
  | nil =>
    simp only [ulebAt, Leb.bytes, Leb.value, List.map_nil, List.nil_append, List.cons_append,
      Leb.final_lt, if_true, Leb.toNat_final, List.foldr_nil, List.length_singleton]
  | cons d more ih =>
    rw [Leb.bytes_eq_cons, List.cons_append]
    simp only [ulebAt, Leb.continued_not_lt, if_false, ih, Leb.toNat_continued, Leb.value,
      List.foldr_cons, List.length_cons]
    congr 1
    omega

/-- The signed value of a number as written, in 32-bit arithmetic. -/
def signedValue (l : Leb) : ℤ := (slebAt l.bytes 0 0).1.toInt

theorem slebAt_bytes (l : Leb) (rest : List UInt8) (s : ℕ) (r : BitVec 32) :
    slebAt (l.bytes ++ rest) s r = ((slebAt l.bytes s r).1, l.bytes.length) := by
  obtain ⟨more, last⟩ := l
  induction more generalizing s r with
  | nil =>
    have hlast : ¬ (0x80 : UInt8) ≤ UInt8.ofNat last.val := UInt8.not_le.mpr (Leb.final_lt last)
    simp only [Leb.bytes, List.map_nil, List.nil_append, List.cons_append, slebAt, hlast,
      if_false, List.length_singleton]
    split <;> rfl
  | cons d more ih =>
    have hmore : (0x80 : UInt8) ≤ UInt8.ofNat (d.val + 128) :=
      UInt8.not_lt.mp (Leb.continued_not_lt d)
    rw [Leb.bytes_eq_cons, List.cons_append]
    simp only [slebAt, hmore, if_true, List.length_cons]
    rw [ih]

theorem reads_uleb (l : Leb) : Reads (uleb : Read ε ℕ) l.bytes l.value := by
  intro pre post
  simp [uleb, ulebAt_bytes]

theorem reads_sleb (l : Leb) : Reads (sleb : Read ε ℤ) l.bytes (signedValue l) := by
  intro pre post
  simp [sleb, slebAt_bytes, signedValue]

end Cursor

end NixWasm
