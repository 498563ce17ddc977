import NixWasm.MemVfs
import Mathlib.Data.Nat.Bitwise

/-!
The content-addressed store of nix-store.ts. A package's files are serialised in the order of
their sorted paths, each as its path, its decimal length and its bytes, and the hash of that
becomes part of the store path. The SHA-256 function is a parameter. The trees that buildTree
makes are the seeds of MemVfs.
-/
namespace NixWasm.NixStore

open Unicode NinepServer MemVfs

/-- An object from paths to bytes: its keys are distinct. -/
structure NixPackageFiles where
  entries : List (Utf16 × List UInt8)
  distinct : (entries.map Prod.fst).Nodup

structure NixPackage where
  name : Utf16
  version : Utf16
  files : NixPackageFiles

def nixB32 : List Char := "0123456789abcdfghijklmnpqrsvwxyz".toList
def hashLen : ℕ := 32

/-- The inner loop of base32: digits of five bits, from the top. -/
def takeDigits (len bits value : ℕ) (out : List Char) : ℕ × ℕ × List Char :=
  if 5 ≤ bits ∧ out.length < len then
    let digit := nixB32.getD (value >>> (bits - 5) &&& 31) '0'
    takeDigits len (bits - 5) (value % 2 ^ (bits - 5)) (out ++ [digit])
  else (bits, value, out)
termination_by bits
decreasing_by omega

/-- The loop of base32 over the bytes. -/
def takeBytes (len : ℕ) : ℕ → ℕ → List Char → List UInt8 → List Char
  | _, _, out, [] => out
  | bits, value, out, b :: bs =>
    if out.length < len then
      let (bits, value, out) := takeDigits len (bits + 8) (value <<< 8 ||| b.toNat) out
      takeBytes len bits value out bs
    else out

def base32 (bytes : List UInt8) (len : ℕ) : List Char :=
  let out := takeBytes len 0 0 [] bytes
  out ++ List.replicate (len - out.length) '0'

/-- `String(n)` of a length. -/
def decimal (n : ℕ) : Utf16 := (Nat.toDigits 10 n).map fun c => UInt16.ofNat c.toNat

namespace NixPackageFiles

/-- `Object.keys(files).sort()`: by UTF-16 code units. -/
def names (files : NixPackageFiles) : List Utf16 :=
  (files.entries.map Prod.fst).mergeSort fun a b => decide (a ≤ b)

/-- `files[name]` of a key. -/
def bytesOf (files : NixPackageFiles) (name : Utf16) : List UInt8 :=
  ((JsMap.mk files.entries).get name).getD []

/-- The bytes that contentHash hashes. -/
def serialize (files : NixPackageFiles) : List UInt8 :=
  files.names.flatMap fun name =>
    let bytes := files.bytesOf name
    utf8Encode (name ++ 0 :: decimal bytes.length ++ [0]) ++ bytes

def contentHash (sha256 : List UInt8 → List UInt8) (files : NixPackageFiles) : List Char :=
  base32 (sha256 files.serialize) hashLen

end NixPackageFiles

/-- The directory of a package in the store. -/
def NixPackage.dir (sha256 : List UInt8 → List UInt8) (pkg : NixPackage) : Utf16 :=
  (pkg.files.contentHash sha256).map (fun c => UInt16.ofNat c.toNat) ++ 0x2D :: pkg.name ++
    if pkg.version = [] then [] else 0x2D :: pkg.version

/-- No path holds a NUL, and each has a UTF-8 form. -/
def NixPackageFiles.PlainNames (files : NixPackageFiles) : Prop :=
  ∀ f ∈ files.entries, 0 ∉ f.1 ∧ WellFormed f.1

section Entries

variable {files : NixPackageFiles}

theorem bytesOf_eq {name : Utf16} {bytes : List UInt8} (h : (name, bytes) ∈ files.entries) :
    files.bytesOf name = bytes := by
  obtain ⟨entries, hdistinct⟩ := files
  unfold NixPackageFiles.bytesOf
  dsimp only at h ⊢
  induction entries with
  | nil => cases h
  | cons e entries ih =>
    rw [List.map_cons, List.nodup_cons] at hdistinct
    rcases List.mem_cons.mp h with rfl | hin
    · simp [JsMap.get]
    · have hne : e.1 ≠ name := by
        intro heq
        exact hdistinct.1 (heq ▸ List.mem_map_of_mem (f := Prod.fst) hin)
      have hrest := ih hdistinct.2 hin
      simpa [JsMap.get, hne] using hrest

/-- The sorted entries. -/
def NixPackageFiles.sorted (files : NixPackageFiles) : List (Utf16 × List UInt8) :=
  files.names.map fun name => (name, files.bytesOf name)

theorem sorted_perm (files : NixPackageFiles) : files.sorted.Perm files.entries := by
  have hnames : files.names.Perm (files.entries.map Prod.fst) := List.mergeSort_perm _ _
  have hentries : (files.entries.map Prod.fst).map (fun name => (name, files.bytesOf name)) =
      files.entries := by
    rw [List.map_map]
    conv_rhs => rw [← List.map_id files.entries]
    refine List.map_congr_left fun e he => ?_
    simp [bytesOf_eq (show (e.1, e.2) ∈ files.entries from he)]
  rw [NixPackageFiles.sorted]
  exact (hnames.map _).trans (List.Perm.of_eq hentries)

/-- The same entries in another order have the same sorted names. -/
theorem names_congr {f g : NixPackageFiles} (h : f.entries.Perm g.entries) : f.names = g.names := by
  have hsorted (files : NixPackageFiles) : files.names.Pairwise (· ≤ ·) := by
    have hpairs := @List.pairwise_mergeSort Utf16 (fun a b => decide (a ≤ b))
      (fun a b c hab hbc =>
        decide_eq_true (List.le_trans (of_decide_eq_true hab) (of_decide_eq_true hbc)))
      (fun a b => by simpa using List.le_total a b) (files.entries.map Prod.fst)
    exact hpairs.imp fun hle => of_decide_eq_true hle
  have hperm : f.names.Perm g.names :=
    (List.mergeSort_perm _ _).trans ((h.map Prod.fst).trans (List.mergeSort_perm _ _).symm)
  exact hperm.eq_of_pairwise (fun a b _ _ => List.le_antisymm) (hsorted f) (hsorted g)

theorem sorted_congr {f g : NixPackageFiles} (h : f.entries.Perm g.entries) :
    f.sorted = g.sorted := by
  rw [NixPackageFiles.sorted, NixPackageFiles.sorted, ← names_congr h]
  refine List.map_congr_left fun name hname => ?_
  have hkey : name ∈ f.entries.map Prod.fst := (List.mergeSort_perm _ _).subset hname
  obtain ⟨⟨_, bytes⟩, hmem, rfl⟩ := List.mem_map.mp hkey
  rw [bytesOf_eq hmem, bytesOf_eq (h.subset hmem)]

end Entries

section Records

/-- One file of the serialisation. -/
def record (e : Utf16 × List UInt8) : List UInt8 :=
  utf8Encode (e.1 ++ 0 :: decimal e.2.length ++ [0]) ++ e.2

theorem serialize_eq (files : NixPackageFiles) : files.serialize = files.sorted.flatMap record := by
  rw [NixPackageFiles.sorted, List.flatMap_map]
  rfl

theorem toScalars_cons_zero (t : Utf16) : toScalars (0 :: t) = 0 :: toScalars t := by
  have hhigh : isHigh 0 = false := by decide
  have hlow : isLow 0 = false := by decide
  cases t with
  | nil => simp [toScalars, hhigh, hlow]
  | cons v t => simp [toScalars, hhigh, hlow]

/-- A NUL pairs with nothing before it. -/
theorem toScalars_append_zero (s t : Utf16) :
    toScalars (s ++ 0 :: t) = toScalars s ++ 0 :: toScalars t := by
  have hlow : isLow 0 = false := by decide
  fun_induction toScalars s with
  | case1 => exact toScalars_cons_zero t
  | case2 u => simp [toScalars, hlow, toScalars_cons_zero]
  | case3 u v rest h ih => simp [toScalars, h, ih]
  | case4 u v rest h ih => simp only [List.cons_append, toScalars, if_neg h, ← ih]

theorem utf8Encode_append_zero (s t : Utf16) :
    utf8Encode (s ++ 0 :: t) = utf8Encode s ++ 0 :: utf8Encode t := by
  rw [utf8Encode, toScalars_append_zero, List.flatMap_append, List.flatMap_cons]
  rfl

theorem zero_mem_of_toScalars {s : Utf16} (h : 0 ∈ toScalars s) : 0 ∈ s := by
  have hreplaced (u : UInt16) (hu : 0 = if isHigh u || isLow u then replacement else u.toNat) :
      u = 0 := by
    split at hu
    · cases hu
    · exact UInt16.toNat_inj.mp hu.symm
  fun_induction toScalars s with
  | case1 => cases h
  | case2 u =>
    rw [hreplaced u (List.mem_singleton.mp h)]
    exact List.mem_cons_self
  | case3 u v rest hpair ih =>
    rcases List.mem_cons.mp h with hzero | hin
    · unfold pair at hzero
      omega
    · exact List.mem_cons_of_mem _ (List.mem_cons_of_mem _ (ih hin))
  | case4 u v rest hpair ih =>
    rcases List.mem_cons.mp h with hzero | hin
    · rw [hreplaced u hzero]
      exact List.mem_cons_self
    · exact List.mem_cons_of_mem _ (ih hin)

/-- Only NUL has a zero byte in its encoding. -/
theorem zero_mem_encodeScalar {c : ℕ} (hc : IsScalar c) (h : 0 ∈ encodeScalar c) : c = 0 := by
  have hbyte {n : ℕ} (hn : n < 256) (hzero : (0 : UInt8) = UInt8.ofNat n) : n = 0 := by
    rw [← toNat_ofNat_byte hn, ← hzero]
    rfl
  have hlt : c < 0x110000 := by
    rcases hc with hlow | hhigh <;> omega
  unfold encodeScalar at h
  split at h
  · exact hbyte (by omega) (List.mem_singleton.mp h)
  split at h
  · rcases List.mem_cons.mp h with h | h
    · have hlead := hbyte (by omega) h
      omega
    · have hlast := hbyte (by omega) (List.mem_singleton.mp h)
      omega
  split at h
  · rcases List.mem_cons.mp h with h | h
    · have hlead := hbyte (by omega) h
      omega
    rcases List.mem_cons.mp h with h | h
    · have hmid := hbyte (by omega) h
      omega
    · have hlast := hbyte (by omega) (List.mem_singleton.mp h)
      omega
  · rcases List.mem_cons.mp h with h | h
    · have hlead := hbyte (by omega) h
      omega
    rcases List.mem_cons.mp h with h | h
    · have hmid := hbyte (by omega) h
      omega
    rcases List.mem_cons.mp h with h | h
    · have hmid := hbyte (by omega) h
      omega
    · have hlast := hbyte (by omega) (List.mem_singleton.mp h)
      omega

theorem zero_notMem_utf8Encode {s : Utf16} (h : 0 ∉ s) : 0 ∉ utf8Encode s := by
  intro hzero
  obtain ⟨c, hc, hbyte⟩ := List.mem_flatMap.mp hzero
  have hnul := zero_mem_encodeScalar (toScalars_isScalar s c hc) hbyte
  exact h (zero_mem_of_toScalars (hnul ▸ hc))

theorem digit_range {n : ℕ} {c : Char} (h : c ∈ Nat.toDigits 10 n) :
    48 ≤ c.toNat ∧ c.toNat ≤ 57 := by
  have hdigit := Nat.isDigit_of_mem_toDigits (by decide) (by decide) h
  rw [Char.isDigit, Bool.and_eq_true] at hdigit
  exact ⟨UInt32.le_iff_toNat_le.mp (of_decide_eq_true hdigit.1),
    UInt32.le_iff_toNat_le.mp (of_decide_eq_true hdigit.2)⟩

theorem decimal_unit {n : ℕ} {u : UInt16} (h : u ∈ decimal n) : 48 ≤ u.toNat ∧ u.toNat ≤ 57 := by
  obtain ⟨c, hc, rfl⟩ := List.mem_map.mp h
  have hrange := digit_range hc
  rw [UInt16.toNat_ofNat']
  omega

theorem decimal_inj {m n : ℕ} (h : decimal m = decimal n) : m = n := by
  have hback (n : ℕ) : (decimal n).map (fun u => Char.ofNat u.toNat) = Nat.toDigits 10 n := by
    rw [decimal, List.map_map]
    conv_rhs => rw [← List.map_id (Nat.toDigits 10 n)]
    refine List.map_congr_left fun c hc => ?_
    have hrange := digit_range hc
    rw [Function.comp_apply, UInt16.toNat_ofNat', Nat.mod_eq_of_lt (by omega), Char.ofNat_toNat]
    rfl
  have hdigits : Nat.toDigits 10 m = Nat.toDigits 10 n := by rw [← hback, h, hback]
  rw [← Nat.ofDigitChars_ten_toDigits (n := m), hdigits, Nat.ofDigitChars_ten_toDigits]

theorem zero_notMem_decimal (n : ℕ) : 0 ∉ decimal n := by
  intro hzero
  exact absurd (decimal_unit hzero).1 (by decide)

theorem wellFormed_decimal (n : ℕ) : WellFormed (decimal n) := by
  have hplain : ∀ u ∈ decimal n, isHigh u = false ∧ isLow u = false := by
    intro u hu
    have hrange := decimal_unit hu
    constructor
    · simp only [isHigh, Bool.and_eq_false_iff, decide_eq_false_iff_not]
      omega
    · simp only [isLow, Bool.and_eq_false_iff, decide_eq_false_iff_not]
      omega
  generalize decimal n = s at hplain
  fun_induction WellFormed s with
  | case1 => trivial
  | case2 u => simp [hplain u List.mem_cons_self]
  | case3 u v rest h ih =>
    rw [(hplain u List.mem_cons_self).1] at h
    cases h
  | case4 u v rest h ih =>
    refine ⟨by simp [hplain u List.mem_cons_self], ih fun w hw => ?_⟩
    exact hplain w (List.mem_cons_of_mem _ hw)

/-- A part that ends at the first zero. -/
theorem append_zero_inj {α : Type} [Zero α] {xs ys r s : List α} (hx : 0 ∉ xs) (hy : 0 ∉ ys)
    (h : xs ++ 0 :: r = ys ++ 0 :: s) : xs = ys ∧ r = s := by
  induction xs generalizing ys with
  | nil =>
    cases ys with
    | nil => exact ⟨rfl, (List.cons.inj h).2⟩
    | cons y ys =>
      exact absurd (List.mem_cons.mpr (Or.inl (List.cons.inj h).1)) hy
  | cons x xs ih =>
    cases ys with
    | nil => exact absurd (List.mem_cons.mpr (Or.inl (List.cons.inj h).1.symm)) hx
    | cons y ys =>
      obtain ⟨hhead, htail⟩ := List.cons.inj h
      obtain ⟨hrest, hr⟩ := ih (fun hin => hx (List.mem_cons_of_mem _ hin))
        (fun hin => hy (List.mem_cons_of_mem _ hin)) htail
      exact ⟨by rw [hhead, hrest], hr⟩

theorem utf8Encode_inj {s t : Utf16} (hs : WellFormed s) (ht : WellFormed t)
    (h : utf8Encode s = utf8Encode t) : s = t := by
  rw [← (flatMap_toUnits_eq_iff s).mpr hs, ← decodeFrom_utf8Encode, h, decodeFrom_utf8Encode,
    (flatMap_toUnits_eq_iff t).mpr ht]

/-- A record can be told from what follows it. -/
theorem record_inj {e f : Utf16 × List UInt8} {r s : List UInt8} (he : 0 ∉ e.1 ∧ WellFormed e.1)
    (hf : 0 ∉ f.1 ∧ WellFormed f.1) (h : record e ++ r = record f ++ s) : e = f ∧ r = s := by
  have hparts (e : Utf16 × List UInt8) (r : List UInt8) : record e ++ r =
      utf8Encode e.1 ++ 0 :: (utf8Encode (decimal e.2.length) ++ 0 :: (e.2 ++ r)) := by
    rw [record, utf8Encode_append_zero, utf8Encode_append_zero]
    simp [utf8Encode, toScalars]
  rw [hparts, hparts] at h
  obtain ⟨hname, hrest⟩ := append_zero_inj (zero_notMem_utf8Encode he.1)
    (zero_notMem_utf8Encode hf.1) h
  obtain ⟨hlength, hbytes⟩ := append_zero_inj (zero_notMem_utf8Encode (zero_notMem_decimal _))
    (zero_notMem_utf8Encode (zero_notMem_decimal _)) hrest
  have hlen : e.2.length = f.2.length :=
    decimal_inj (utf8Encode_inj (wellFormed_decimal _) (wellFormed_decimal _) hlength)
  obtain ⟨hcontent, htail⟩ := List.append_inj hbytes hlen
  exact ⟨Prod.ext (utf8Encode_inj he.2 hf.2 hname) hcontent, htail⟩

theorem record_ne_nil (e : Utf16 × List UInt8) : record e ≠ [] := by
  rw [record, utf8Encode_append_zero]
  simp

theorem records_inj {es fs : List (Utf16 × List UInt8)} (he : ∀ e ∈ es, 0 ∉ e.1 ∧ WellFormed e.1)
    (hf : ∀ f ∈ fs, 0 ∉ f.1 ∧ WellFormed f.1) (h : es.flatMap record = fs.flatMap record) :
    es = fs := by
  induction es generalizing fs with
  | nil =>
    cases fs with
    | nil => rfl
    | cons f fs =>
      rw [List.flatMap_nil, List.flatMap_cons] at h
      exact absurd (List.append_eq_nil_iff.mp h.symm).1 (record_ne_nil f)
  | cons e es ih =>
    cases fs with
    | nil =>
      rw [List.flatMap_nil, List.flatMap_cons] at h
      exact absurd (List.append_eq_nil_iff.mp h).1 (record_ne_nil e)
    | cons f fs =>
      rw [List.flatMap_cons, List.flatMap_cons] at h
      obtain ⟨hhead, htail⟩ := record_inj (he e List.mem_cons_self) (hf f List.mem_cons_self) h
      rw [hhead, ih (fun e he' => he e (List.mem_cons_of_mem _ he'))
        (fun f hf' => hf f (List.mem_cons_of_mem _ hf')) htail]

/-- Two packages are hashed from the same bytes exactly when they hold the same files, in
whatever order these were listed. -/
theorem serialize_eq_iff {f g : NixPackageFiles} (hf : f.PlainNames) (hg : g.PlainNames) :
    f.serialize = g.serialize ↔ f.entries.Perm g.entries := by
  constructor
  · intro h
    rw [serialize_eq, serialize_eq] at h
    have hsorted := records_inj (fun e he => hf e ((sorted_perm f).subset he))
      (fun e he => hg e ((sorted_perm g).subset he)) h
    exact (sorted_perm f).symm.trans (hsorted ▸ sorted_perm g)
  · intro h
    rw [serialize_eq, serialize_eq, sorted_congr h]

end Records

section Hash

theorem takeDigits_length (len bits value : ℕ) (out : List Char) (h : out.length ≤ len) :
    (takeDigits len bits value out).2.2.length ≤ len := by
  fun_induction takeDigits len bits value out with
  | case1 bits value out hmore digit ih =>
    apply ih
    rw [List.length_append, List.length_singleton]
    omega
  | case2 bits value out hdone => exact h

theorem takeBytes_length (len bits value : ℕ) (out : List Char) (bytes : List UInt8)
    (h : out.length ≤ len) : (takeBytes len bits value out bytes).length ≤ len := by
  induction bytes generalizing bits value out with
  | nil => exact h
  | cons b bs ih =>
    rw [takeBytes]
    by_cases hroom : out.length < len
    · rw [if_pos hroom]
      exact ih _ _ _ (takeDigits_length _ _ _ _ h)
    · rw [if_neg hroom]
      exact h

/-- A hash has as many digits as were asked for, whatever the digest. -/
theorem base32_length (bytes : List UInt8) (len : ℕ) : (base32 bytes len).length = len := by
  have hle := takeBytes_length len 0 0 [] bytes (Nat.zero_le len)
  rw [base32, List.length_append, List.length_replicate]
  omega

/-- The store path does not depend on the order of the files. -/
theorem dir_congr (sha256 : List UInt8 → List UInt8) {pkg other : NixPackage}
    (hname : pkg.name = other.name) (hversion : pkg.version = other.version)
    (h : pkg.files.entries.Perm other.files.entries) : pkg.dir sha256 = other.dir sha256 := by
  have hserial : pkg.files.serialize = other.files.serialize := by
    rw [serialize_eq, serialize_eq, sorted_congr h]
  rw [NixPackage.dir, NixPackage.dir, NixPackageFiles.contentHash, NixPackageFiles.contentHash,
    hserial, hname, hversion]

end Hash

end NixWasm.NixStore
