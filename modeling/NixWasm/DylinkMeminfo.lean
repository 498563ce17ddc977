import NixWasm.Dylink
import NixWasm.Effects
import NixWasm.Leb

/-!
The kernel's reader of the memory info of a program, parse_dylink0_meminfo of the software MMU
patch. It walks the subsections from just past the name of the `dylink.0` section up to the first
MEMINFO, in a copy of the whole file, and what it may read ends where the file ends. The function
that decodes the numbers is not part of the patch; what is known of it is `VarU32`. The addresses
that are read are logged.
-/
namespace NixWasm.DylinkMeminfo

open Effects

/-- wasm_consume_varU32: one unsigned LEB128 of at most the given number of bytes, as its value
and length. `looks` is how many bytes it reads, also when it fails. -/
structure VarU32 where
  decode : List UInt8 → ℕ → Option (ℕ × ℕ)
  looks : List UInt8 → ℕ → ℕ
  sound : ∀ bytes n v k, decode bytes n = some (v, k) → ∃ l : Leb, l.bytes <+: bytes ∧
    l.bytes.length = k ∧ k ≤ n ∧ l.value = v ∧ v < 2 ^ 32
  complete : ∀ bytes n (l : Leb), l.bytes <+: bytes → l.bytes.length ≤ n → l.value < 2 ^ 32 →
    decode bytes n = some (l.value, l.bytes.length)
  looks_le : ∀ bytes n, looks bytes n ≤ n
  looks_of_decode : ∀ bytes n v k, decode bytes n = some (v, k) → looks bytes n = k

/-- The kernel's copy of a program file, below the end of the address space. -/
structure Binary where
  bin : ℕ
  file : List UInt8
  fits : bin + file.length < 2 ^ 32

namespace Binary

/-- The pointer `end` of the caller. -/
def stop (b : Binary) : ℕ := b.bin + b.file.length

/-- The bytes from a pointer on. -/
def rest (b : Binary) (p : ℕ) : List UInt8 := b.file.drop (p - b.bin)

end Binary

inductive Failure
  /-- -ENOEXEC, and what is printed. -/
  | enoexec (printed : Option String)
  | outOfFuel
deriving DecidableEq

/-- The state is the log of the addresses read. -/
abbrev Kernel := EStateM Failure (List ℕ)

def wasmDylinkMeminfo : UInt8 := 1

def pageSize : ℕ := 4096

/-- PAGE_ALIGN of an unsigned int. -/
def pageAlign (v : ℕ) : ℕ := (v + (pageSize - 1)) % 2 ^ 32 / pageSize * pageSize

/-- The fields of a MEMINFO are sizes and exponents of alignments. -/
inductive FieldKind
  | size
  | align

def meminfoFields : List FieldKind := [.size, .align, .size, .align]

/-- What is stored for a number, which an exponent over 31 refuses. -/
def convert : FieldKind → ℕ → Option ℕ
  | .size, v => some (pageAlign v)
  | .align, v => if 31 < v then none else some (2 ^ v)

section Reader
variable (V : VarU32) (b : Binary)

def look (addresses : List ℕ) : Kernel Unit := modify fun log => log ++ addresses

/-- A number at `p` of at most `n` bytes, and the pointer behind it. -/
def consumeVarU32 (p n : ℕ) : Kernel (Option (ℕ × ℕ)) := do
  look (List.range' p (V.looks (b.rest p) n))
  return (V.decode (b.rest p) n).map fun x => (x.1, p + x.2)

/-- The fields of a MEMINFO up to `stop`, in order. -/
def readFields (stop : ℕ) : List FieldKind → ℕ → Kernel (List ℕ)
  | [], _ => return []
  | kind :: kinds, p => do
    match ← consumeVarU32 V b p (min 5 (stop - p)) with
    | none => throw (.enoexec none)
    | some (v, p) =>
      match convert kind v with
      | none => throw (.enoexec none)
      | some x => return x :: (← readFields stop kinds p)

/-- The loop of parse_dylink0_meminfo: data size, data alignment, table size and table
alignment. -/
def parseFrom : ℕ → ℕ → Kernel (List ℕ)
  | 0, _ => throw .outOfFuel
  | fuel + 1, p => do
    if p = b.stop then throw (.enoexec "No dylink.0 subsection id")
    look [p]
    let id := (b.rest p).head?
    match ← consumeVarU32 V b (p + 1) (min 5 (b.stop - (p + 1))) with
    | none => throw (.enoexec "Failed to read dylink.0 subsection length")
    | some (length, p) =>
      let stop := (p + length) % 2 ^ 32
      if stop < p ∨ b.stop < stop then throw (.enoexec "dylink.0 subsection length overflow")
      if id = some wasmDylinkMeminfo then readFields V b stop meminfoFields p
      else parseFrom fuel stop

/-- parse_dylink0_meminfo from `p` on; each round reads a byte. -/
def parseDylink0Meminfo (p : ℕ) : Kernel (List ℕ) := parseFrom V b (b.stop - p + 1) p

end Reader

section Subsections
variable (V : VarU32) (b : Binary)

/-- A subsection at `p`: its id, and the pointers to its payload and behind it. -/
structure Subsection (p : ℕ) (id : UInt8) (start stop : ℕ) : Prop where
  id : (b.rest p).head? = some id
  length : ∃ n k, V.decode (b.rest (p + 1)) (min 5 (b.stop - (p + 1))) = some (n, k) ∧
    start = p + 1 + k ∧ stop = start + n

/-- The numbers of a MEMINFO that are taken, each within its limit. -/
inductive Fields (stop : ℕ) : List FieldKind → ℕ → List ℕ → Prop
  | nil {p : ℕ} : Fields stop [] p []
  | cons {kind : FieldKind} {kinds : List FieldKind} {p v k x : ℕ} {vs : List ℕ}
    (hread : V.decode (b.rest p) (min 5 (stop - p)) = some (v, k)) (hkind : convert kind v = some x)
    (hrest : Fields stop kinds (p + k) vs) : Fields stop (kind :: kinds) p (v :: vs)

/-- From `p` on the first MEMINFO has its payload between `start` and `stop`. -/
inductive FirstMeminfo : ℕ → ℕ → ℕ → Prop
  | here {p start stop : ℕ} (hsub : Subsection V b p wasmDylinkMeminfo start stop)
    (hstop : stop ≤ b.stop) : FirstMeminfo p start stop
  | skip {p start stop start' stop' : ℕ} {id : UInt8} (hsub : Subsection V b p id start stop)
    (hid : id ≠ wasmDylinkMeminfo) (hstop : stop ≤ b.stop)
    (hrest : FirstMeminfo stop start' stop') : FirstMeminfo p start' stop'

/-- The first MEMINFO from `p` on, at `start`, declares these numbers. -/
def Declares (p start : ℕ) (vs : List ℕ) : Prop :=
  ∃ stop, FirstMeminfo V b p start stop ∧ Fields V b stop meminfoFields start vs

/-- The bytes a number is looked for in lie before `limit`. -/
def LooksWithin (limit p n : ℕ) : Prop := ∀ a ∈ List.range' p (V.looks (b.rest p) n), a < limit

instance (limit p n : ℕ) : Decidable (LooksWithin V b limit p n) := by
  unfold LooksWithin
  infer_instance

/-- The fields of a MEMINFO, up to the first that is refused, lie before `limit`. -/
inductive FieldsWithin (limit stop : ℕ) : List FieldKind → ℕ → Prop
  | nil {p : ℕ} : FieldsWithin limit stop [] p
  | unread {kind : FieldKind} {kinds : List FieldKind} {p : ℕ}
    (hlooks : LooksWithin V b limit p (min 5 (stop - p)))
    (hread : V.decode (b.rest p) (min 5 (stop - p)) = none) :
    FieldsWithin limit stop (kind :: kinds) p
  | refused {kind : FieldKind} {kinds : List FieldKind} {p v k : ℕ}
    (hlooks : LooksWithin V b limit p (min 5 (stop - p)))
    (hread : V.decode (b.rest p) (min 5 (stop - p)) = some (v, k)) (hkind : convert kind v = none) :
    FieldsWithin limit stop (kind :: kinds) p
  | cons {kind : FieldKind} {kinds : List FieldKind} {p v k x : ℕ}
    (hlooks : LooksWithin V b limit p (min 5 (stop - p)))
    (hread : V.decode (b.rest p) (min 5 (stop - p)) = some (v, k)) (hkind : convert kind v = some x)
    (hrest : FieldsWithin limit stop kinds (p + k)) : FieldsWithin limit stop (kind :: kinds) p

/-- From `p` on the section that ends at `limit` settles the walk: it has a MEMINFO, or a
subsection that is malformed, before it ends. A walk that comes to the end of the file is over
as well. -/
inductive Settles (limit : ℕ) : ℕ → Prop
  | fileEnd {p : ℕ} (hp : p = b.stop) : Settles limit p
  | malformed {p : ℕ} (hp : p < limit)
    (hlooks : LooksWithin V b limit (p + 1) (min 5 (b.stop - (p + 1))))
    (hread : ∀ id start stop, Subsection V b p id start stop → b.stop < stop) : Settles limit p
  | meminfo {p start stop : ℕ} (hp : p < limit)
    (hlooks : LooksWithin V b limit (p + 1) (min 5 (b.stop - (p + 1))))
    (hsub : Subsection V b p wasmDylinkMeminfo start stop) (hstop : stop ≤ b.stop)
    (hfields : FieldsWithin V b limit stop meminfoFields start) : Settles limit p
  | skip {p start stop : ℕ} {id : UInt8} (hp : p < limit)
    (hlooks : LooksWithin V b limit (p + 1) (min 5 (b.stop - (p + 1))))
    (hsub : Subsection V b p id start stop) (hid : id ≠ wasmDylinkMeminfo) (hstop : stop ≤ b.stop)
    (hrest : Settles limit stop) : Settles limit p

end Subsections

section Steps
variable {V : VarU32} {b : Binary} {log : List ℕ} {limit stop p : ℕ}

theorem decode_pos {bytes : List UInt8} {n v k : ℕ} (h : V.decode bytes n = some (v, k)) :
    0 < k ∧ k ≤ n ∧ v < 2 ^ 32 := by
  obtain ⟨l, -, hlength, hle, -, hlt⟩ := V.sound bytes n v k h
  have hpos := l.bytes_length_pos
  omega

theorem consumeVarU32_run (p n : ℕ) (log : List ℕ) :
    consumeVarU32 V b p n log =
      .ok ((V.decode (b.rest p) n).map fun x => (x.1, p + x.2))
        (log ++ List.range' p (V.looks (b.rest p) n)) := rfl

theorem readFields_cons (kind : FieldKind) (kinds : List FieldKind) (log : List ℕ) :
    readFields V b stop (kind :: kinds) p log =
      let log' := log ++ List.range' p (V.looks (b.rest p) (min 5 (stop - p)))
      match V.decode (b.rest p) (min 5 (stop - p)) with
      | none => .error (.enoexec none) log'
      | some (v, k) =>
        match convert kind v with
        | none => .error (.enoexec none) log'
        | some x =>
          match readFields V b stop kinds (p + k) log' with
          | .ok xs end_ => .ok (x :: xs) end_
          | .error e end_ => .error e end_ := by
  rw [readFields]
  change EStateM.bind (consumeVarU32 V b p (min 5 (stop - p))) _ log = _
  rw [EStateM.bind, consumeVarU32_run]
  cases V.decode (b.rest p) (min 5 (stop - p)) with
  | none => rfl
  | some x =>
    obtain ⟨v, k⟩ := x
    dsimp only [Option.map_some]
    cases convert kind v with
    | none => rfl
    | some y =>
      change EStateM.bind (readFields V b stop kinds (p + k)) _ _ = _
      rw [EStateM.bind]
      cases readFields V b stop kinds (p + k) _ <;> rfl

/-- The check of the subsection's end against 32-bit wrap-around. -/
theorem wrap_iff {q n : ℕ} (hq : q ≤ b.stop) (hn : n < 2 ^ 32) :
    ((q + n) % 2 ^ 32 < q ∨ b.stop < (q + n) % 2 ^ 32) ↔ b.stop < q + n := by
  have hfits : b.stop < 2 ^ 32 := b.fits
  omega

/-- One round of the loop. -/
theorem parseFrom_succ (fuel : ℕ) (hp : p < b.stop) (log : List ℕ) :
    parseFrom V b (fuel + 1) p log =
      let log' := log ++ p ::
        List.range' (p + 1) (V.looks (b.rest (p + 1)) (min 5 (b.stop - (p + 1))))
      match V.decode (b.rest (p + 1)) (min 5 (b.stop - (p + 1))) with
      | none => .error (.enoexec "Failed to read dylink.0 subsection length") log'
      | some (n, k) =>
        if b.stop < p + 1 + k + n then
          .error (.enoexec "dylink.0 subsection length overflow") log'
        else if (b.rest p).head? = some wasmDylinkMeminfo then
          readFields V b (p + 1 + k + n) meminfoFields (p + 1 + k) log'
        else parseFrom V b fuel (p + 1 + k + n) log' := by
  have hrun : parseFrom V b (fuel + 1) p log =
      (consumeVarU32 V b (p + 1) (min 5 (b.stop - (p + 1))) >>= fun found =>
        match found with
        | none => throw (.enoexec "Failed to read dylink.0 subsection length")
        | some (length, q) =>
          if (q + length) % 2 ^ 32 < q ∨ b.stop < (q + length) % 2 ^ 32 then
            throw (.enoexec "dylink.0 subsection length overflow")
          else if (b.rest p).head? = some wasmDylinkMeminfo then
            readFields V b ((q + length) % 2 ^ 32) meminfoFields q
          else parseFrom V b fuel ((q + length) % 2 ^ 32) : Kernel (List ℕ)) (log ++ [p]) := by
    rw [parseFrom, if_neg (Nat.ne_of_lt hp)]
    rfl
  rw [hrun]
  change EStateM.bind (consumeVarU32 V b (p + 1) _) _ _ = _
  rw [EStateM.bind, consumeVarU32_run, List.append_assoc, List.singleton_append]
  cases hread : V.decode (b.rest (p + 1)) (min 5 (b.stop - (p + 1))) with
  | none => rfl
  | some x =>
    obtain ⟨n, k⟩ := x
    obtain ⟨hk, hle, hn⟩ := decode_pos hread
    have hq : p + 1 + k ≤ b.stop := by omega
    have hwrap := wrap_iff hq hn
    dsimp only [Option.map_some]
    by_cases hover : b.stop < p + 1 + k + n
    · rw [if_pos (hwrap.mpr hover), if_pos hover]
      rfl
    · have hfits : b.stop < 2 ^ 32 := b.fits
      have hmod : (p + 1 + k + n) % 2 ^ 32 = p + 1 + k + n := Nat.mod_eq_of_lt (by omega)
      rw [if_neg (fun h => hover (hwrap.mp h)), if_neg hover, hmod]
      split <;> rfl

theorem forall_append_lt {log more : List ℕ} :
    (∀ a ∈ log ++ more, a < limit) ↔ (∀ a ∈ log, a < limit) ∧ ∀ a ∈ more, a < limit := by
  simp only [List.mem_append, or_imp, forall_and]

/-- The fields read are those before the limit. -/
theorem readFields_within (kinds : List FieldKind) (p : ℕ) (log : List ℕ) :
    (∀ a ∈ final (readFields V b stop kinds p log), a < limit) ↔
      (∀ a ∈ log, a < limit) ∧ FieldsWithin V b limit stop kinds p := by
  induction kinds generalizing p log with
  | nil => exact ⟨fun h => ⟨h, .nil⟩, fun h => h.1⟩
  | cons kind kinds ih =>
    rw [readFields_cons]
    dsimp only
    cases hread : V.decode (b.rest p) (min 5 (stop - p)) with
    | none =>
      dsimp only [final]
      rw [forall_append_lt]
      constructor
      · rintro ⟨hlog, hlooks⟩
        exact ⟨hlog, .unread hlooks hread⟩
      · rintro ⟨hlog, hwithin⟩
        cases hwithin with
        | unread hlooks => exact ⟨hlog, hlooks⟩
        | refused hlooks hsome => simp [hread] at hsome
        | cons hlooks hsome => simp [hread] at hsome
    | some x =>
      obtain ⟨v, k⟩ := x
      dsimp only
      cases hkind : convert kind v with
      | none =>
        dsimp only [final]
        rw [forall_append_lt]
        constructor
        · rintro ⟨hlog, hlooks⟩
          exact ⟨hlog, .refused hlooks hread hkind⟩
        · rintro ⟨hlog, hwithin⟩
          cases hwithin with
          | unread hlooks => exact ⟨hlog, hlooks⟩
          | refused hlooks => exact ⟨hlog, hlooks⟩
          | cons hlooks => exact ⟨hlog, hlooks⟩
      | some x =>
        have hrest := ih (p + k)
          (log ++ List.range' p (V.looks (b.rest p) (min 5 (stop - p))))
        have hsame : ∀ r : EStateM.Result Failure (List ℕ) (List ℕ),
            final (match r with
              | .ok xs end_ => (.ok (x :: xs) end_ : EStateM.Result Failure (List ℕ) (List ℕ))
              | .error e end_ => .error e end_) = final r := by
          intro r
          cases r <;> rfl
        dsimp only
        rw [hsame, hrest, forall_append_lt]
        constructor
        · rintro ⟨⟨hlog, hlooks⟩, hwithin⟩
          exact ⟨hlog, .cons hlooks hread hkind hwithin⟩
        · rintro ⟨hlog, hwithin⟩
          cases hwithin with
          | unread _ hnone => simp [hread] at hnone
          | refused _ hsome hrefused =>
            rw [hread] at hsome
            cases hsome
            simp [hkind] at hrefused
          | cons hlooks hsome _ hwithin =>
            rw [hread] at hsome
            cases hsome
            exact ⟨⟨hlog, hlooks⟩, hwithin⟩

/-- What is stored for the numbers of the fields. -/
def stored (kinds : List FieldKind) (vs : List ℕ) : List ℕ :=
  List.zipWith (fun kind v => (convert kind v).getD 0) kinds vs

theorem readFields_ok {kinds : List FieldKind} {log log' : List ℕ} {xs : List ℕ}
    (h : readFields V b stop kinds p log = .ok xs log') :
    ∃ vs, Fields V b stop kinds p vs ∧ xs = stored kinds vs := by
  induction kinds generalizing p log log' xs with
  | nil =>
    cases h
    exact ⟨[], .nil, rfl⟩
  | cons kind kinds ih =>
    rw [readFields_cons] at h
    dsimp only at h
    cases hread : V.decode (b.rest p) (min 5 (stop - p)) with
    | none => simp [hread] at h
    | some x =>
      obtain ⟨v, k⟩ := x
      cases hkind : convert kind v with
      | none => simp [hread, hkind] at h
      | some x =>
        simp only [hread, hkind] at h
        split at h
        · rename_i xs' log'' hrest
          obtain ⟨vs, hfields, rfl⟩ := ih hrest
          cases h
          exact ⟨v :: vs, .cons hread hkind hfields, by simp [stored, hkind]⟩
        · cases h

theorem readFields_no_fuel {kinds : List FieldKind} {log log' : List ℕ} {e : Failure}
    (h : readFields V b stop kinds p log = .error e log') : e ≠ .outOfFuel := by
  induction kinds generalizing p log with
  | nil => cases h
  | cons kind kinds ih =>
    rw [readFields_cons] at h
    dsimp only at h
    split at h
    · cases h
      simp
    · split at h
      · cases h
        simp
      · split at h
        · cases h
        · rename_i hrest
          cases h
          exact ih hrest

/-- The id of a subsection that the walk comes to. -/
theorem head_of_lt (hbin : b.bin ≤ p) (hp : p < b.stop) : ∃ id, (b.rest p).head? = some id := by
  have hlt : p - b.bin < b.file.length := by
    unfold Binary.stop at hp
    omega
  exact ⟨b.file[p - b.bin], by rw [Binary.rest, List.head?_drop, List.getElem?_eq_getElem hlt]⟩

theorem Subsection.unique {id id' : UInt8} {start start' stop' : ℕ}
    (h : Subsection V b p id start stop) (h' : Subsection V b p id' start' stop') :
    id' = id ∧ start' = start ∧ stop' = stop := by
  obtain ⟨hid, n, k, hread, rfl, rfl⟩ := h
  obtain ⟨hid', n', k', hread', rfl, rfl⟩ := h'
  rw [hread] at hread'
  rw [hid] at hid'
  cases hread'
  cases hid'
  exact ⟨rfl, rfl, rfl⟩

theorem settles_malformed (hend : p ≠ b.stop)
    (hbad : ∀ id start stop, Subsection V b p id start stop → b.stop < stop) :
    Settles V b limit p ↔
      p < limit ∧ LooksWithin V b limit (p + 1) (min 5 (b.stop - (p + 1))) := by
  constructor
  · intro h
    cases h with
    | fileEnd hp => exact absurd hp hend
    | malformed hin hlooks => exact ⟨hin, hlooks⟩
    | meminfo hin hlooks => exact ⟨hin, hlooks⟩
    | skip hin hlooks => exact ⟨hin, hlooks⟩
  · rintro ⟨hin, hlooks⟩
    exact .malformed hin hlooks hbad

theorem settles_meminfo {start : ℕ} (hend : p ≠ b.stop)
    (hsub : Subsection V b p wasmDylinkMeminfo start stop) (hstop : stop ≤ b.stop) :
    Settles V b limit p ↔
      (p < limit ∧ LooksWithin V b limit (p + 1) (min 5 (b.stop - (p + 1)))) ∧
        FieldsWithin V b limit stop meminfoFields start := by
  constructor
  · intro h
    cases h with
    | fileEnd hp => exact absurd hp hend
    | malformed _ _ hbad => exact absurd hstop (Nat.not_le_of_lt (hbad _ _ _ hsub))
    | meminfo hin hlooks hsub' _ hfields =>
      obtain ⟨-, rfl, rfl⟩ := hsub.unique hsub'
      exact ⟨⟨hin, hlooks⟩, hfields⟩
    | skip _ _ hsub' hne => exact absurd (hsub.unique hsub').1 hne
  · rintro ⟨⟨hin, hlooks⟩, hfields⟩
    exact .meminfo hin hlooks hsub hstop hfields

theorem settles_skip {id : UInt8} {start : ℕ} (hend : p ≠ b.stop)
    (hsub : Subsection V b p id start stop) (hid : id ≠ wasmDylinkMeminfo) (hstop : stop ≤ b.stop) :
    Settles V b limit p ↔
      (p < limit ∧ LooksWithin V b limit (p + 1) (min 5 (b.stop - (p + 1)))) ∧
        Settles V b limit stop := by
  constructor
  · intro h
    cases h with
    | fileEnd hp => exact absurd hp hend
    | malformed _ _ hbad => exact absurd hstop (Nat.not_le_of_lt (hbad _ _ _ hsub))
    | meminfo _ _ hsub' => exact absurd (hsub.unique hsub').1.symm hid
    | skip hin hlooks hsub' _ _ hrest =>
      obtain ⟨-, -, rfl⟩ := hsub.unique hsub'
      exact ⟨⟨hin, hlooks⟩, hrest⟩
  · rintro ⟨⟨hin, hlooks⟩, hrest⟩
    exact .skip hin hlooks hsub hid hstop hrest

theorem parseFrom_end (fuel : ℕ) (hp : p = b.stop) (log : List ℕ) :
    parseFrom V b (fuel + 1) p log = .error (.enoexec "No dylink.0 subsection id") log := by
  rw [parseFrom, if_pos hp]
  rfl

/-- The walk reads inside the section exactly when the section settles it. -/
theorem parseFrom_within (fuel p : ℕ) (log : List ℕ) (hbin : b.bin ≤ p) (hp : p ≤ b.stop)
    (hfuel : b.stop - p < fuel) :
    (∀ a ∈ final (parseFrom V b fuel p log), a < limit) ↔
      (∀ a ∈ log, a < limit) ∧ Settles V b limit p := by
  induction fuel generalizing p log with
  | zero => omega
  | succ fuel ih =>
    by_cases hend : p = b.stop
    · rw [parseFrom_end fuel hend]
      exact ⟨fun h => ⟨h, .fileEnd hend⟩, fun h => h.1⟩
    · have hlt : p < b.stop := by omega
      obtain ⟨id, hid⟩ := head_of_lt hbin hlt
      have hhead : (∀ a ∈ log ++ p :: List.range' (p + 1)
          (V.looks (b.rest (p + 1)) (min 5 (b.stop - (p + 1)))), a < limit) ↔
          (∀ a ∈ log, a < limit) ∧ p < limit ∧
            LooksWithin V b limit (p + 1) (min 5 (b.stop - (p + 1))) := by
        rw [forall_append_lt, List.forall_mem_cons, LooksWithin]
      rw [parseFrom_succ fuel hlt]
      dsimp only
      cases hread : V.decode (b.rest (p + 1)) (min 5 (b.stop - (p + 1))) with
      | none =>
        have hbad : ∀ id start stop, Subsection V b p id start stop → b.stop < stop := by
          rintro id start stop ⟨-, n, k, hsome, -⟩
          simp [hread] at hsome
        rw [settles_malformed hend hbad]
        exact hhead
      | some x =>
        obtain ⟨n, k⟩ := x
        obtain ⟨hk, hle, -⟩ := decode_pos hread
        have hsub : Subsection V b p id (p + 1 + k) (p + 1 + k + n) :=
          ⟨hid, n, k, hread, rfl, rfl⟩
        dsimp only
        by_cases hover : b.stop < p + 1 + k + n
        · have hbad : ∀ id start stop, Subsection V b p id start stop → b.stop < stop := by
            intro id' start stop hsub'
            rw [(hsub.unique hsub').2.2]
            exact hover
          rw [if_pos hover, settles_malformed hend hbad]
          exact hhead
        · have hstop := Nat.le_of_not_lt hover
          rw [if_neg hover, hid]
          by_cases hinfo : id = wasmDylinkMeminfo
          · subst hinfo
            rw [if_pos rfl, readFields_within, hhead, settles_meminfo hend hsub hstop, and_assoc]
          · have hne : ¬ some id = some wasmDylinkMeminfo := fun h => hinfo (Option.some.inj h)
            rw [if_neg hne, ih _ _ (by omega) hstop (by omega), hhead,
              settles_skip hend hsub hinfo hstop, and_assoc]

theorem readFields_from (kinds : List FieldKind) (p : ℕ) (log : List ℕ) :
    ∀ a ∈ final (readFields V b stop kinds p log), a ∈ log ∨ p ≤ a := by
  induction kinds generalizing p log with
  | nil => exact fun a ha => .inl ha
  | cons kind kinds ih =>
    have hlooks : ∀ a ∈ log ++ List.range' p (V.looks (b.rest p) (min 5 (stop - p))),
        a ∈ log ∨ p ≤ a := by
      intro a ha
      rw [List.mem_append, List.mem_range'_1] at ha
      exact ha.imp_right And.left
    intro a ha
    rw [readFields_cons] at ha
    dsimp only at ha
    split at ha
    · exact hlooks a ha
    · rename_i v k _
      split at ha
      · exact hlooks a ha
      · have hrest : a ∈ final (readFields V b stop kinds (p + k)
            (log ++ List.range' p (V.looks (b.rest p) (min 5 (stop - p))))) := by
          split at ha <;> simp_all [final]
        rcases ih (p + k) _ a hrest with hold | hge
        · exact hlooks a hold
        · exact .inr (by omega)

/-- The addresses read are from where the walk starts on. -/
theorem parseFrom_from (fuel p : ℕ) (log : List ℕ) (hp : p ≤ b.stop) :
    ∀ a ∈ final (parseFrom V b fuel p log), a ∈ log ∨ p ≤ a := by
  induction fuel generalizing p log with
  | zero => exact fun a ha => .inl ha
  | succ fuel ih =>
    by_cases hend : p = b.stop
    · rw [parseFrom_end fuel hend]
      exact fun a ha => .inl ha
    · have hlooks : ∀ a ∈ log ++ p :: List.range' (p + 1)
          (V.looks (b.rest (p + 1)) (min 5 (b.stop - (p + 1)))), a ∈ log ∨ p ≤ a := by
        intro a ha
        rw [List.mem_append, List.mem_cons, List.mem_range'_1] at ha
        rcases ha with hold | rfl | hin
        · exact .inl hold
        · exact .inr (Nat.le_refl _)
        · exact .inr (by omega)
      intro a ha
      rw [parseFrom_succ fuel (by omega)] at ha
      dsimp only at ha
      split at ha
      · exact hlooks a ha
      · rename_i n k _
        split at ha
        · exact hlooks a ha
        · split at ha
          · rcases readFields_from _ _ _ a ha with hold | hge
            · exact hlooks a hold
            · exact .inr (by omega)
          · rcases ih (p + 1 + k + n) _ (by omega) a ha with hold | hge
            · exact hlooks a hold
            · exact .inr (by omega)

theorem Fields.run {kinds : List FieldKind} {p : ℕ} {vs : List ℕ}
    (h : Fields V b stop kinds p vs) (log : List ℕ) :
    ∃ log', readFields V b stop kinds p log = .ok (stored kinds vs) log' := by
  induction h generalizing log with
  | nil => exact ⟨log, rfl⟩
  | cons hread hkind _ ih =>
    obtain ⟨log', hrest⟩ :=
      ih (log ++ List.range' _ (V.looks (b.rest _) (min 5 (stop - _))))
    refine ⟨log', ?_⟩
    rw [readFields_cons]
    dsimp only
    rw [hread]
    dsimp only
    rw [hkind]
    dsimp only
    rw [hrest]
    simp [stored, hkind]

/-- A MEMINFO that declares numbers is taken. -/
theorem FirstMeminfo.run {fuel p start : ℕ} {vs : List ℕ} (h : FirstMeminfo V b p start stop)
    (hfields : Fields V b stop meminfoFields start vs) (hfuel : b.stop - p < fuel)
    (log : List ℕ) : ∃ log', parseFrom V b fuel p log = .ok (stored meminfoFields vs) log' := by
  induction h generalizing fuel log with
  | @here p start stop hsub hstop =>
    obtain ⟨hid, n, k, hread, rfl, rfl⟩ := hsub
    obtain ⟨fuel, rfl⟩ : ∃ m, fuel = m + 1 := ⟨fuel - 1, by omega⟩
    obtain ⟨hk, -, -⟩ := decode_pos hread
    rw [parseFrom_succ fuel (by omega)]
    dsimp only
    rw [hread]
    dsimp only
    rw [if_neg (by omega), if_pos hid]
    exact hfields.run _
  | @skip p start stop start' stop' id hsub hid hstop _ ih =>
    obtain ⟨hhead, n, k, hread, rfl, rfl⟩ := hsub
    obtain ⟨fuel, rfl⟩ : ∃ m, fuel = m + 1 := ⟨fuel - 1, by omega⟩
    obtain ⟨hk, -, -⟩ := decode_pos hread
    rw [parseFrom_succ fuel (by omega)]
    dsimp only
    rw [hread]
    dsimp only
    rw [if_neg (by omega), hhead, if_neg (fun h => hid (Option.some.inj h))]
    exact ih hfields (by omega) _

/-- The walk ends, and with a success only at a MEMINFO it took. -/
theorem parseFrom_ends (fuel p : ℕ) (log : List ℕ) (hbin : b.bin ≤ p) (hp : p ≤ b.stop)
    (hfuel : b.stop - p < fuel) :
    match parseFrom V b fuel p log with
    | .ok xs _ => ∃ start vs, Declares V b p start vs ∧ xs = stored meminfoFields vs
    | .error e _ => e ≠ .outOfFuel := by
  induction fuel generalizing p log with
  | zero => omega
  | succ fuel ih =>
    by_cases hend : p = b.stop
    · rw [parseFrom_end fuel hend]
      simp
    · have hlt : p < b.stop := by omega
      obtain ⟨id, hid⟩ := head_of_lt hbin hlt
      rw [parseFrom_succ fuel hlt]
      dsimp only
      cases hread : V.decode (b.rest (p + 1)) (min 5 (b.stop - (p + 1))) with
      | none => simp
      | some x =>
        obtain ⟨n, k⟩ := x
        obtain ⟨hk, hle, -⟩ := decode_pos hread
        have hsub : Subsection V b p id (p + 1 + k) (p + 1 + k + n) :=
          ⟨hid, n, k, hread, rfl, rfl⟩
        dsimp only
        by_cases hover : b.stop < p + 1 + k + n
        · rw [if_pos hover]
          simp
        · have hstop := Nat.le_of_not_lt hover
          rw [if_neg hover, hid]
          by_cases hinfo : id = wasmDylinkMeminfo
          · subst hinfo
            rw [if_pos rfl]
            split
            · rename_i xs log' hok
              obtain ⟨vs, hfields, rfl⟩ := readFields_ok hok
              exact ⟨_, vs, ⟨_, .here hsub hstop, hfields⟩, rfl⟩
            · rename_i e log' herror
              exact readFields_no_fuel herror
          · have hne : ¬ some id = some wasmDylinkMeminfo := fun h => hinfo (Option.some.inj h)
            have hrest := ih (p + 1 + k + n) (log ++ p :: List.range' (p + 1)
              (V.looks (b.rest (p + 1)) (min 5 (b.stop - (p + 1))))) (by omega) hstop (by omega)
            rw [if_neg hne]
            split at hrest
            · obtain ⟨start, vs, ⟨stop, hfirst, hfields⟩, hxs⟩ := hrest
              exact ⟨start, vs, ⟨stop, .skip hsub hinfo hstop hfirst, hfields⟩, hxs⟩
            · exact hrest

theorem FirstMeminfo.unique {p start start' stop' : ℕ} (h : FirstMeminfo V b p start stop)
    (h' : FirstMeminfo V b p start' stop') : start' = start ∧ stop' = stop := by
  induction h with
  | here hsub =>
    cases h' with
    | here hsub' => exact (hsub.unique hsub').2
    | skip hsub' hne => exact absurd (hsub.unique hsub').1 hne
  | skip hsub hne _ _ ih =>
    cases h' with
    | here hsub' => exact absurd (hsub.unique hsub').1.symm hne
    | skip hsub' _ _ hrest =>
      obtain ⟨-, -, rfl⟩ := hsub.unique hsub'
      exact ih hrest

end Steps

section Sizes

/-- Rounding is up exactly for sizes that leave the last page. -/
theorem le_pageAlign_iff {v : ℕ} (hv : v < 2 ^ 32) : v ≤ pageAlign v ↔ v ≤ 2 ^ 32 - pageSize := by
  simp only [pageAlign, pageSize]
  omega

theorem dvd_pageAlign (v : ℕ) : pageSize ∣ pageAlign v := ⟨_, Nat.mul_comm ..⟩

variable {V : VarU32} {b : Binary} {stop p : ℕ}

/-- The first number, and the numbers after it. -/
theorem Fields.head {kind : FieldKind} {kinds : List FieldKind} {vs : List ℕ}
    (h : Fields V b stop (kind :: kinds) p vs) :
    ∃ v k x vs', vs = v :: vs' ∧ V.decode (b.rest p) (min 5 (stop - p)) = some (v, k) ∧
      convert kind v = some x ∧ Fields V b stop kinds (p + k) vs' := by
  cases h with
  | cons hread hkind hrest => exact ⟨_, _, _, _, rfl, hread, hkind, hrest⟩

theorem Fields.eq_nil {vs : List ℕ} (h : Fields V b stop [] p vs) : vs = [] := by
  cases h
  rfl

/-- The numbers of a MEMINFO and what is stored for them. -/
theorem fields_meminfo {vs : List ℕ} (h : Fields V b stop meminfoFields p vs) :
    ∃ ds da ts ta, vs = [ds, da, ts, ta] ∧ ds < 2 ^ 32 ∧ ts < 2 ^ 32 ∧
      stored meminfoFields vs = [pageAlign ds, 2 ^ da, pageAlign ts, 2 ^ ta] := by
  obtain ⟨ds, _, _, _, rfl, hds, -, h⟩ := h.head
  obtain ⟨da, _, _, _, rfl, -, hda, h⟩ := h.head
  obtain ⟨ts, _, _, _, rfl, hts, -, h⟩ := h.head
  obtain ⟨ta, _, _, _, rfl, -, hta, h⟩ := h.head
  obtain rfl := h.eq_nil
  have halign : ∀ {v x : ℕ}, convert .align v = some x → (convert .align v).getD 0 = 2 ^ v := by
    intro v x hx
    simp only [convert] at hx ⊢
    split at hx
    · cases hx
    · rw [if_neg ‹_›, Option.getD_some]
  refine ⟨ds, da, ts, ta, rfl, (decode_pos hds).2.2, (decode_pos hts).2.2, ?_⟩
  have hsize : ∀ v, (convert .size v).getD 0 = pageAlign v := fun v => by
    rw [convert, Option.getD_some]
  simp only [stored, meminfoFields, List.zipWith_cons_cons, List.zipWith_nil_left, halign hda,
    halign hta, hsize]

end Sizes

end NixWasm.DylinkMeminfo
