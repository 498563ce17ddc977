import Mathlib.Data.List.Basic
import Mathlib.Data.List.Flatten

/-!
Transcoding between UTF-16 strings and UTF-8 bytes, as the Encoding standard has it.
Encoding replaces a lone surrogate by U+FFFD; decoding replaces every malformed
sequence by U+FFFD and drops one leading byte order mark. Encoding then decoding is
the identity exactly on the well-formed strings that do not start with U+FEFF.
-/
namespace NixWasm.Unicode

/-- A string is a sequence of UTF-16 code units, well-formed or not. -/
abbrev Utf16 := List UInt16

instance : LawfulBEq Utf16 := inferInstanceAs (LawfulBEq (List UInt16))

def replacement : ℕ := 0xFFFD
def byteOrderMark : ℕ := 0xFEFF

def isHigh (u : UInt16) : Bool := 0xD800 ≤ u.toNat && u.toNat < 0xDC00
def isLow (u : UInt16) : Bool := 0xDC00 ≤ u.toNat && u.toNat < 0xE000

def IsScalar (c : ℕ) : Prop := c < 0xD800 ∨ 0xE000 ≤ c ∧ c < 0x110000

def pair (high low : UInt16) : ℕ :=
  0x10000 + (high.toNat - 0xD800) * 0x400 + (low.toNat - 0xDC00)

/-- Code points of a string; a surrogate outside a pair becomes U+FFFD. -/
def toScalars : Utf16 → List ℕ
  | [] => []
  | [u] => [if isHigh u || isLow u then replacement else u.toNat]
  | u :: v :: rest =>
    if isHigh u && isLow v then pair u v :: toScalars rest
    else (if isHigh u || isLow u then replacement else u.toNat) :: toScalars (v :: rest)

def toUnits (c : ℕ) : Utf16 :=
  if c < 0x10000 then [UInt16.ofNat c]
  else [UInt16.ofNat (0xD800 + (c - 0x10000) / 0x400),
    UInt16.ofNat (0xDC00 + (c - 0x10000) % 0x400)]

/-- Every surrogate stands in a high-low pair. -/
def WellFormed : Utf16 → Prop
  | [] => True
  | [u] => ¬ (isHigh u || isLow u)
  | u :: v :: rest =>
    if isHigh u && isLow v then WellFormed rest
    else ¬ (isHigh u || isLow u) ∧ WellFormed (v :: rest)

def encodeScalar (c : ℕ) : List UInt8 :=
  if c < 0x80 then [UInt8.ofNat c]
  else if c < 0x800 then [UInt8.ofNat (0xC0 + c / 64), UInt8.ofNat (0x80 + c % 64)]
  else if c < 0x10000 then
    [UInt8.ofNat (0xE0 + c / 4096), UInt8.ofNat (0x80 + c / 64 % 64),
      UInt8.ofNat (0x80 + c % 64)]
  else
    [UInt8.ofNat (0xF0 + c / 262144), UInt8.ofNat (0x80 + c / 4096 % 64),
      UInt8.ofNat (0x80 + c / 64 % 64), UInt8.ofNat (0x80 + c % 64)]

/-- `TextEncoder.encode`. -/
def utf8Encode (s : Utf16) : List UInt8 := (toScalars s).flatMap encodeScalar

/-- A started sequence: the bits so far, the continuation bytes still needed, and
the range the next one must lie in. -/
structure Pending where
  bits : ℕ
  needed : ℕ
  lower : ℕ
  upper : ℕ

/-- A byte outside any sequence: a code point, the start of one, or an error. -/
def leadByte (b : ℕ) : List ℕ × Option Pending :=
  if b < 0x80 then ([b], none)
  else if 0xC2 ≤ b ∧ b ≤ 0xDF then ([], some ⟨b % 32, 1, 0x80, 0xBF⟩)
  else if 0xE0 ≤ b ∧ b ≤ 0xEF then
    ([], some ⟨b % 16, 2, if b = 0xE0 then 0xA0 else 0x80, if b = 0xED then 0x9F else 0xBF⟩)
  else if 0xF0 ≤ b ∧ b ≤ 0xF4 then
    ([], some ⟨b % 8, 3, if b = 0xF0 then 0x90 else 0x80, if b = 0xF4 then 0x8F else 0xBF⟩)
  else ([replacement], none)

/-- An unexpected byte ends the sequence with an error and is then read afresh. -/
def decodeByte : Option Pending → ℕ → List ℕ × Option Pending
  | none, b => leadByte b
  | some p, b =>
    if p.lower ≤ b ∧ b ≤ p.upper then
      if p.needed = 1 then ([p.bits * 64 + b % 64], none)
      else ([], some ⟨p.bits * 64 + b % 64, p.needed - 1, 0x80, 0xBF⟩)
    else (replacement :: (leadByte b).1, (leadByte b).2)

def decodeFrom : Option Pending → List UInt8 → List ℕ
  | none, [] => []
  | some _, [] => [replacement]
  | state, b :: bs => (decodeByte state b.toNat).1 ++ decodeFrom (decodeByte state b.toNat).2 bs

def dropByteOrderMark : List ℕ → List ℕ
  | [] => []
  | c :: cs => if c = byteOrderMark then cs else c :: cs

/-- `TextDecoder.decode` with the default options. -/
def utf8Decode (bs : List UInt8) : Utf16 :=
  (dropByteOrderMark (decodeFrom none bs)).flatMap toUnits

theorem toNat_ofNat_byte {n : ℕ} (h : n < 256) : (UInt8.ofNat n).toNat = n := by
  rw [UInt8.toNat_ofNat', Nat.mod_eq_of_lt h]

theorem decodeFrom_lead {b : ℕ} {p : Pending} (hb : b < 256) (h : leadByte b = ([], some p))
    (rest : List UInt8) :
    decodeFrom none (UInt8.ofNat b :: rest) = decodeFrom (some p) rest := by
  simp only [decodeFrom, decodeByte, toNat_ofNat_byte hb, h, List.nil_append]

/-- The last continuation byte completes the code point. -/
theorem decodeFrom_last {bits lower upper k : ℕ} (hk : k < 64) (hlower : lower ≤ 0x80 + k)
    (hupper : 0x80 + k ≤ upper) (rest : List UInt8) :
    decodeFrom (some ⟨bits, 1, lower, upper⟩) (UInt8.ofNat (0x80 + k) :: rest) =
      (bits * 64 + k) :: decodeFrom none rest := by
  have hmod : (0x80 + k) % 64 = k := by omega
  simp only [decodeFrom, decodeByte, toNat_ofNat_byte (n := 0x80 + k) (by omega), hmod,
    hlower, hupper, and_self, if_true, List.cons_append, List.nil_append]

theorem decodeFrom_more {bits needed lower upper k : ℕ} (hk : k < 64)
    (hlower : lower ≤ 0x80 + k) (hupper : 0x80 + k ≤ upper) (rest : List UInt8) :
    decodeFrom (some ⟨bits, needed + 2, lower, upper⟩) (UInt8.ofNat (0x80 + k) :: rest) =
      decodeFrom (some ⟨bits * 64 + k, needed + 1, 0x80, 0xBF⟩) rest := by
  have hmod : (0x80 + k) % 64 = k := by omega
  have hneeded : ¬ needed + 2 = 1 := by omega
  simp only [decodeFrom, decodeByte, toNat_ofNat_byte (n := 0x80 + k) (by omega), hmod,
    hlower, hupper, and_self, if_true, hneeded, if_false, List.nil_append]
  rfl

/-- A complete code point is read back, whatever follows it. -/
theorem decodeFrom_encodeScalar (c : ℕ) (hc : IsScalar c) (rest : List UInt8) :
    decodeFrom none (encodeScalar c ++ rest) = c :: decodeFrom none rest := by
  unfold IsScalar at hc
  unfold encodeScalar
  split
  · rename_i h1
    simp [decodeFrom, decodeByte, leadByte, toNat_ofNat_byte (n := c) (by omega), h1]
  · split
    · rename_i h1 h2
      have hlead : leadByte (0xC0 + c / 64) = ([], some ⟨c / 64, 1, 0x80, 0xBF⟩) := by
        unfold leadByte
        rw [if_neg (by omega), if_pos (by omega)]
        congr 3
        omega
      rw [List.cons_append, decodeFrom_lead (by omega) hlead, List.cons_append,
        decodeFrom_last (by omega) (by omega) (by omega), List.nil_append]
      congr 1
      omega
    · split
      · rename_i h1 h2 h3
        -- the narrowed range of the second byte excludes overlong forms and surrogates
        have hlead : leadByte (0xE0 + c / 4096) = ([], some ⟨c / 4096, 2,
            if 0xE0 + c / 4096 = 0xE0 then 0xA0 else 0x80,
            if 0xE0 + c / 4096 = 0xED then 0x9F else 0xBF⟩) := by
          unfold leadByte
          rw [if_neg (by omega), if_neg (by omega), if_pos (by omega)]
          congr 3
          omega
        rw [List.cons_append, decodeFrom_lead (by omega) hlead, List.cons_append,
          decodeFrom_more (by omega) (by split <;> omega) (by split <;> omega),
          List.cons_append, decodeFrom_last (by omega) (by omega) (by omega), List.nil_append]
        congr 1
        omega
      · rename_i h1 h2 h3
        have hlead : leadByte (0xF0 + c / 262144) = ([], some ⟨c / 262144, 3,
            if 0xF0 + c / 262144 = 0xF0 then 0x90 else 0x80,
            if 0xF0 + c / 262144 = 0xF4 then 0x8F else 0xBF⟩) := by
          unfold leadByte
          rw [if_neg (by omega), if_neg (by omega), if_neg (by omega), if_pos (by omega)]
          congr 3
          omega
        rw [List.cons_append, decodeFrom_lead (by omega) hlead, List.cons_append,
          decodeFrom_more (by omega) (by split <;> omega) (by split <;> omega),
          List.cons_append, decodeFrom_more (by omega) (by omega) (by omega),
          List.cons_append, decodeFrom_last (by omega) (by omega) (by omega), List.nil_append]
        congr 1
        omega

theorem decodeFrom_encodeScalars (cs : List ℕ) (hcs : ∀ c ∈ cs, IsScalar c) :
    decodeFrom none (cs.flatMap encodeScalar) = cs := by
  induction cs with
  | nil => rfl
  | cons c cs ih =>
    rw [List.flatMap_cons, decodeFrom_encodeScalar c (hcs c (by simp)),
      ih fun d hd => hcs d (by simp [hd])]

theorem isScalar_unit (u : UInt16) (h : ¬ (isHigh u || isLow u)) : IsScalar u.toNat := by
  have hu : u.toNat < 65536 := u.toNat_lt
  simp only [isHigh, isLow, Bool.or_eq_true, Bool.and_eq_true, decide_eq_true_eq] at h
  unfold IsScalar
  omega

theorem isScalar_pair (u v : UInt16) (h : isHigh u && isLow v) : IsScalar (pair u v) := by
  simp only [isHigh, isLow, Bool.and_eq_true, decide_eq_true_eq] at h
  unfold IsScalar pair
  omega

theorem isScalar_replaced (u : UInt16) :
    IsScalar (if isHigh u || isLow u then replacement else u.toNat) := by
  split
  · exact Or.inr (by decide)
  · rename_i h
    exact isScalar_unit u h

theorem toScalars_isScalar (s : Utf16) : ∀ c ∈ toScalars s, IsScalar c := by
  fun_induction toScalars s with
  | case1 => simp
  | case2 u =>
    intro c hc
    rw [List.mem_singleton.mp hc]
    exact isScalar_replaced u
  | case3 u v rest h ih =>
    intro c hc
    rcases List.mem_cons.mp hc with hpair | hc
    · rw [hpair]
      exact isScalar_pair u v h
    · exact ih c hc
  | case4 u v rest h ih =>
    intro c hc
    rcases List.mem_cons.mp hc with rfl | hc
    · exact isScalar_replaced u
    · exact ih c hc

/-- Encoding loses nothing but the lone surrogates. -/
theorem decodeFrom_utf8Encode (s : Utf16) : decodeFrom none (utf8Encode s) = toScalars s :=
  decodeFrom_encodeScalars _ (toScalars_isScalar s)

theorem toUnits_unit (u : UInt16) : toUnits u.toNat = [u] := by
  have hu : u.toNat < 65536 := u.toNat_lt
  simp [toUnits, hu]

theorem toUnits_pair (u v : UInt16) (h : isHigh u && isLow v) : toUnits (pair u v) = [u, v] := by
  simp only [isHigh, isLow, Bool.and_eq_true, decide_eq_true_eq] at h
  have hhigh : 0xD800 + (pair u v - 0x10000) / 0x400 = u.toNat := by unfold pair; omega
  have hlow : 0xDC00 + (pair u v - 0x10000) % 0x400 = v.toNat := by unfold pair; omega
  have hbig : ¬ pair u v < 0x10000 := by unfold pair; omega
  simp [toUnits, hbig, hhigh, hlow]

theorem toUnits_replaced_length (u : UInt16) :
    (toUnits (if isHigh u || isLow u then replacement else u.toNat)).length = 1 := by
  split
  · rfl
  · rw [toUnits_unit]
    rfl

/-- Replacing lone surrogates keeps the number of code units. -/
theorem flatMap_toUnits_length (s : Utf16) :
    ((toScalars s).flatMap toUnits).length = s.length := by
  fun_induction toScalars s with
  | case1 => rfl
  | case2 u => simpa using toUnits_replaced_length u
  | case3 u v rest h ih =>
    simp only [List.flatMap_cons, List.length_append, ih, toUnits_pair u v h, List.length_cons,
      List.length_nil]
    omega
  | case4 u v rest h ih =>
    simp only [List.flatMap_cons, List.length_append, ih, toUnits_replaced_length,
      List.length_cons]
    omega

theorem toUnits_replaced_eq_iff (u : UInt16) :
    toUnits (if isHigh u || isLow u then replacement else u.toNat) = [u] ↔
      ¬ (isHigh u || isLow u) := by
  split
  · rename_i h
    simp only [h, not_true_eq_false, iff_false]
    intro heq
    have hu : UInt16.ofNat replacement = u := by simpa [toUnits, replacement] using heq
    rw [← hu] at h
    exact absurd h (by decide)
  · rename_i h
    simp [toUnits_unit, h]

/-- The well-formed strings are those that survive the replacement. -/
theorem flatMap_toUnits_eq_iff (s : Utf16) :
    (toScalars s).flatMap toUnits = s ↔ WellFormed s := by
  fun_induction toScalars s with
  | case1 => simp [WellFormed]
  | case2 u => simpa [WellFormed] using toUnits_replaced_eq_iff u
  | case3 u v rest h ih =>
    simp only [List.flatMap_cons, toUnits_pair u v h, WellFormed, h, if_true]
    simpa using ih
  | case4 u v rest h ih =>
    rw [List.flatMap_cons, WellFormed, if_neg h, ← ih, ← toUnits_replaced_eq_iff u]
    constructor
    · intro heq
      rw [← List.singleton_append (x := u)] at heq
      have hlen := toUnits_replaced_length u
      exact List.append_inj heq (by simpa using hlen)
    · rintro ⟨hu, hrest⟩
      rw [hu, hrest]
      rfl

theorem toScalars_surrogates {high low : ℕ} (hhigh : high < 0x400) (hlow : low < 0x400)
    (rest : Utf16) : toScalars ([UInt16.ofNat (0xD800 + high), UInt16.ofNat (0xDC00 + low)] ++
      rest) = (0x10000 + high * 0x400 + low) :: toScalars rest := by
  have hu : (UInt16.ofNat (0xD800 + high)).toNat = 0xD800 + high := by
    rw [UInt16.toNat_ofNat']
    omega
  have hv : (UInt16.ofNat (0xDC00 + low)).toNat = 0xDC00 + low := by
    rw [UInt16.toNat_ofNat']
    omega
  generalize UInt16.ofNat (0xD800 + high) = u at hu
  generalize UInt16.ofNat (0xDC00 + low) = v at hv
  have hpair : (isHigh u && isLow v) = true := by
    simp only [isHigh, isLow, hu, hv, Bool.and_eq_true, decide_eq_true_eq]
    omega
  have hvalue : pair u v = 0x10000 + high * 0x400 + low := by
    unfold pair
    omega
  rw [← hvalue, List.cons_append, List.cons_append, List.nil_append, toScalars, if_pos hpair]

theorem toScalars_toUnits_append (c : ℕ) (hc : IsScalar c) (rest : Utf16) :
    toScalars (toUnits c ++ rest) = c :: toScalars rest := by
  unfold IsScalar at hc
  by_cases hsmall : c < 0x10000
  · rw [toUnits, if_pos hsmall]
    have hval : (UInt16.ofNat c).toNat = c := by
      rw [UInt16.toNat_ofNat']
      omega
    have hhigh : isHigh (UInt16.ofNat c) = false := by
      simp only [isHigh, hval, Bool.and_eq_false_iff, decide_eq_false_iff_not]
      omega
    have hlow : isLow (UInt16.ofNat c) = false := by
      simp only [isLow, hval, Bool.and_eq_false_iff, decide_eq_false_iff_not]
      omega
    cases rest with
    | nil => simp only [List.append_nil, toScalars, hhigh, hlow, hval, Bool.or_self,
        Bool.false_eq_true, if_false]
    | cons v rest => simp only [List.cons_append, List.nil_append, toScalars, hhigh, hlow, hval,
        Bool.or_self, Bool.false_and, Bool.false_eq_true, if_false]
  · rw [toUnits, if_neg hsmall]
    obtain ⟨high, low, hlow, rfl⟩ : ∃ high low, low < 0x400 ∧ c = 0x10000 + high * 0x400 + low :=
      ⟨(c - 0x10000) / 0x400, (c - 0x10000) % 0x400, by omega, by omega⟩
    have hdiv : (0x10000 + high * 0x400 + low - 0x10000) / 0x400 = high := by omega
    have hmod : (0x10000 + high * 0x400 + low - 0x10000) % 0x400 = low := by omega
    rw [hdiv, hmod]
    exact toScalars_surrogates (by omega) hlow rest

/-- Scalar values are recovered from their code units. -/
theorem toScalars_flatMap_toUnits (cs : List ℕ) (h : ∀ c ∈ cs, IsScalar c) :
    toScalars (cs.flatMap toUnits) = cs := by
  induction cs with
  | nil => rfl
  | cons c cs ih =>
    rw [List.flatMap_cons, toScalars_toUnits_append c (h c (by simp)),
      ih fun d hd => h d (by simp [hd])]

/-- Strings that encoding and decoding give back. -/
def Faithful (s : Utf16) : Prop :=
  WellFormed s ∧ s.head? ≠ some (UInt16.ofNat byteOrderMark)

theorem replaced_eq_byteOrderMark_iff (u : UInt16) :
    (if isHigh u || isLow u then replacement else u.toNat) = byteOrderMark ↔
      u = UInt16.ofNat byteOrderMark := by
  split
  · rename_i h
    constructor
    · intro heq
      exact absurd heq (by decide)
    · intro hu
      rw [hu] at h
      exact absurd h (by decide)
  · rw [← UInt16.toNat_inj, show (UInt16.ofNat byteOrderMark).toNat = byteOrderMark from rfl]

theorem toScalars_head_iff (s : Utf16) : (toScalars s).head? = some byteOrderMark ↔
    s.head? = some (UInt16.ofNat byteOrderMark) := by
  fun_cases toScalars s with
  | case1 => simp
  | case2 u => simpa using replaced_eq_byteOrderMark_iff u
  | case3 u v rest h =>
    simp only [List.head?_cons, Option.some.injEq]
    constructor
    · intro heq
      unfold pair byteOrderMark at heq
      omega
    · rintro rfl
      exact absurd h (by simp [isHigh, byteOrderMark])
  | case4 u v rest h => simpa using replaced_eq_byteOrderMark_iff u

theorem dropByteOrderMark_eq (cs : List ℕ) : dropByteOrderMark cs =
    if cs.head? = some byteOrderMark then cs.tail else cs := by
  cases cs with
  | nil => rfl
  | cons c cs => simp [dropByteOrderMark]

/-- Encoding then decoding is the identity exactly on the faithful strings. -/
theorem utf8Decode_utf8Encode_eq_iff (s : Utf16) :
    utf8Decode (utf8Encode s) = s ↔ Faithful s := by
  unfold utf8Decode Faithful
  rw [decodeFrom_utf8Encode, dropByteOrderMark_eq, ne_eq, ← toScalars_head_iff]
  split
  · rename_i hmark
    simp only [hmark, not_true_eq_false, and_false, iff_false]
    intro heq
    -- the mark was one code unit, so the result is shorter than the string
    obtain ⟨cs, hcs⟩ := List.head?_eq_some_iff.mp hmark
    have hlen := flatMap_toUnits_length s
    have hshort := congrArg List.length heq
    rw [hcs] at hlen hshort
    simp only [List.flatMap_cons, List.length_append, List.tail_cons] at hlen hshort
    have hone : (toUnits byteOrderMark).length = 1 := rfl
    omega
  · rename_i hmark
    rw [flatMap_toUnits_eq_iff]
    exact ⟨fun h => ⟨h, hmark⟩, fun h => h.1⟩

instance decidableWellFormed : (s : Utf16) → Decidable (WellFormed s)
  | [] => inferInstanceAs (Decidable True)
  | [u] => inferInstanceAs (Decidable (¬ (isHigh u || isLow u)))
  | u :: v :: rest =>
    have := decidableWellFormed rest
    have := decidableWellFormed (v :: rest)
    inferInstanceAs (Decidable (if isHigh u && isLow v then WellFormed rest
      else ¬ (isHigh u || isLow u) ∧ WellFormed (v :: rest)))

instance (s : Utf16) : Decidable (Faithful s) := by
  unfold Faithful
  infer_instance

end NixWasm.Unicode
