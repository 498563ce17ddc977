import NixWasm.RawFfi
import NixWasm.WordFlags

/-!
What the lowering of a call leaves in the buffers: the code and the slot of every parameter, in
order, and nothing outside the buffers. It aborts on more parameters than there is room for, on a
buffer of variadic arguments that would run over, and on a type that cannot be passed; it never
writes past the end of a buffer.
-/
namespace NixWasm.RawFfi

open Bytes ByteStore Effects Wasm FfiCodegen
open Trampolines (FfiType isScalar wasmFfiMaxArgs)

section Frames
variable {ω : Type} {l : Locals} {σ₀ σ : Store ω}

/-- The buffers of a stack frame: in the memory, and apart from each other. -/
structure Locals.Fits (l : Locals) (len : ℕ) : Prop where
  small : len ≤ 2 ^ 32
  sig : l.sig + 90 ≤ len
  args : l.args + 704 ≤ len
  varbuf : l.varbuf + 704 ≤ len
  retbuf : l.retbuf + 16 ≤ len
  sig_args : l.sig + 90 ≤ l.args ∨ l.args + 704 ≤ l.sig
  sig_varbuf : l.sig + 90 ≤ l.varbuf ∨ l.varbuf + 704 ≤ l.sig
  args_varbuf : l.args + 704 ≤ l.varbuf ∨ l.varbuf + 704 ≤ l.args
  retbuf_sig : l.retbuf + 16 ≤ l.sig ∨ l.sig + 90 ≤ l.retbuf
  retbuf_args : l.retbuf + 16 ≤ l.args ∨ l.args + 704 ≤ l.retbuf
  retbuf_varbuf : l.retbuf + 16 ≤ l.varbuf ∨ l.varbuf + 704 ≤ l.retbuf

/-- The bytes of the buffers. -/
def Locals.Owns (l : Locals) (q : ℕ) : Prop :=
  (l.sig ≤ q ∧ q < l.sig + 90) ∨ (l.args ≤ q ∧ q < l.args + 704) ∨
    (l.varbuf ≤ q ∧ q < l.varbuf + 704) ∨ (l.retbuf ≤ q ∧ q < l.retbuf + 16)

def setMemory (σ : Store ω) (memory : List UInt8) : Store ω := { σ with memory }

@[simp] theorem setMemory_memory (memory : List UInt8) : (setMemory σ memory).memory = memory := rfl

/-- Only the buffers differ. -/
structure SameOutside (l : Locals) (σ₀ σ : Store ω) : Prop where
  rest : σ = setMemory σ₀ σ.memory
  length : σ.memory.length = σ₀.memory.length
  bytes : ∀ q, ¬ l.Owns q → σ.memory[q]? = σ₀.memory[q]?

theorem SameOutside.refl (l : Locals) (σ : Store ω) : SameOutside l σ σ :=
  ⟨rfl, rfl, fun _ _ => rfl⟩

/-- A range that no buffer meets. -/
def Clear (l : Locals) (p n : ℕ) : Prop := ∀ q, p ≤ q → q < p + n → ¬ l.Owns q

theorem SameOutside.load (h : SameOutside l σ₀ σ) {p n : ℕ} (hclear : Clear l p n) :
    load σ.memory p n = load σ₀.memory p n :=
  load_congr h.length fun q hlow hhigh => h.bytes q (hclear q hlow hhigh)

theorem SameOutside.splice (h : SameOutside l σ₀ σ) {p : ℕ} {bytes : List UInt8}
    (hin : p + bytes.length ≤ σ.memory.length)
    (howns : ∀ q, p ≤ q → q < p + bytes.length → l.Owns q) :
    SameOutside l σ₀ (setMemory σ (splice σ.memory p bytes)) := by
  refine ⟨?_, (splice_length hin).trans h.length, fun q hq => ?_⟩
  · rw [h.rest]
    rfl
  · have hout : q < p ∨ p + bytes.length ≤ q := by
      by_contra hin'
      exact hq (howns q (by omega) (by omega))
    exact (getElem?_splice_outside hin hout).trans (h.bytes q hq)

theorem writeBytes_eq {p : ℕ} {bytes : List UInt8} (h : p + bytes.length ≤ σ.memory.length) :
    writeBytes p bytes σ = .ok () (setMemory σ (splice σ.memory p bytes)) := by
  simp only [writeBytes, run_bind, run_get, store, if_pos h, run_modify]
  rfl

theorem bind_of_ok {α β : Type} {x : Run ω α} {a : α} {σ₁ : Store ω} (h : x σ = .ok a σ₁)
    (f : α → Run ω β) : (x >>= f) σ = f a σ₁ := by
  change EStateM.bind x f σ = _
  rw [EStateM.bind, h]

theorem readBytes_eq {p n : ℕ} {bytes : List UInt8} (h : load σ.memory p n = some bytes) :
    readBytes p n σ = .ok bytes σ := by
  simp only [readBytes, run_bind, run_get, h]
  rfl

/-- A write inside its buffer is made. -/
theorem put_eq {b : Buffer} {off : ℕ} {bytes : List UInt8} (h : off + bytes.length ≤ b.size)
    (hb : b.addr + b.size ≤ σ.memory.length) :
    put b off bytes σ = .ok () (setMemory σ (splice σ.memory (b.addr + off) bytes)) := by
  have hput : put b off bytes = writeBytes (b.addr + off) bytes (ω := ω) :=
    if_neg (Nat.not_lt_of_le h)
  rw [hput, writeBytes_eq (by omega)]

end Frames

section Arguments

/-- A scalar as its C type is passed. -/
def toValue : FfiType → List UInt8 → Value
  | .sint8, bytes => .i32 ((BitVec.ofNat 8 (leValue bytes)).signExtend 32)
  | .sint16, bytes => .i32 ((BitVec.ofNat 16 (leValue bytes)).signExtend 32)
  | .uint64, bytes => ValType.i64.ofBytes bytes
  | .sint64, bytes => ValType.i64.ofBytes bytes
  | .float, bytes => ValType.f32.ofBytes bytes
  | .double, bytes => ValType.f64.ofBytes bytes
  | _, bytes => ValType.i32.ofBytes bytes

def scalarValue (memory : List UInt8) (t : FfiType) (p : ℕ) : Option Value :=
  (load memory p (scalarSize t)).map (toValue t)

/-- The value of a fixed argument: a scalar, or the pointer of an aggregate. -/
def argValue (memory : List UInt8) (a : ArgType × ℕ) : Option Value :=
  if isAggregate a.1.type then some (.i32 (BitVec.ofNat 32 a.2))
  else if isScalar a.1.type then scalarValue memory a.1.type a.2
  else none

/-- The code of a value type in a descriptor. -/
def code : ValType → UInt8
  | .i32 => wsigI32
  | .i64 => wsigI64
  | .f32 => wsigF32
  | .f64 => wsigF64

/-- The storage of an argument, other than an aggregate's: in the memory, and not in a buffer. -/
def Readable (l : Locals) (memory : List UInt8) (a : ArgType × ℕ) : Prop :=
  isAggregate a.1.type = false → a.2 + a.1.size ≤ memory.length ∧ Clear l a.2 a.1.size

theorem bytes_length (v : Value) : v.bytes.length = v.type.width := leBytes_length ..

theorem width_cases (t : ValType) : t.width = 4 ∨ t.width = 8 := by
  cases t
  · exact Or.inl rfl
  · exact Or.inr rfl
  · exact Or.inl rfl
  · exact Or.inr rfl

theorem ofBytes_bytes (v : Value) : v.type.ofBytes v.bytes = v := by
  cases v with
  | i32 a | f32 a =>
    have hvalue : leValue (leBytes 4 a.toNat) = a.toNat := by
      rw [leValue_leBytes]
      exact Nat.mod_eq_of_lt (by have := a.isLt; omega)
    simp [Value.bytes, Value.type, ValType.ofBytes, ValType.width, Value.bits, hvalue]
  | i64 a | f64 a =>
    have hvalue : leValue (leBytes 8 a.toNat) = a.toNat := by
      rw [leValue_leBytes]
      exact Nat.mod_eq_of_lt (by have := a.isLt; omega)
    simp [Value.bytes, Value.type, ValType.ofBytes, ValType.width, Value.bits, hvalue]

/-- The bytes of a value of full width are those it was made of. -/
theorem bytes_ofBytes {t : ValType} {bytes : List UInt8} (h : bytes.length = t.width) :
    (t.ofBytes bytes).bytes = bytes := by
  have hlt := leValue_lt bytes
  have hback := leBytes_leValue bytes
  rw [h] at hlt hback
  cases t with
  | i32 | f32 =>
    simp only [ValType.width] at hlt hback
    simp [Value.bytes, Value.type, ValType.ofBytes, ValType.width, Value.bits,
      Nat.mod_eq_of_lt (show leValue bytes < 4294967296 by omega), hback]
  | i64 | f64 =>
    simp only [ValType.width] at hlt hback
    simp [Value.bytes, Value.type, ValType.ofBytes, ValType.width, Value.bits,
      Nat.mod_eq_of_lt (show leValue bytes < 18446744073709551616 by omega), hback]

theorem code_toValue (t : FfiType) (bytes : List UInt8) :
    code (toValue t bytes).type = scalarWcode t := by
  cases t <;> rfl

theorem bytes_pointer {p : ℕ} (h : p < 2 ^ 32) :
    (Value.i32 (BitVec.ofNat 32 p)).bytes = leBytes 4 p := by
  simp only [Value.bytes, Value.type, ValType.width, Value.bits, BitVec.toNat_ofNat]
  rw [Nat.mod_eq_of_lt h]

variable {ω : Type} {σ : Store ω}

theorem map_readBytes {α : Type} (f : List UInt8 → α) {p n : ℕ} {bytes : List UInt8}
    (h : load σ.memory p n = some bytes) :
    (f <$> readBytes p n : Run ω α) σ = .ok (f bytes) σ := by
  change EStateM.map f (readBytes p n) σ = _
  rw [EStateM.map, readBytes_eq h]

/-- Loading an i32 argument, by its C type. -/
theorem loadI32Arg_eq {t : FfiType} {p : ℕ} (hscalar : isScalar t = true)
    (hcode : scalarWcode t = wsigI32) {v : Value} (h : scalarValue σ.memory t p = some v) :
    ∃ b, v = .i32 b ∧ loadI32Arg t p σ = .ok b σ := by
  obtain ⟨bytes, hload, rfl⟩ := Option.map_eq_some_iff.mp h
  cases t with
  | void | longdouble | struct | complex => cases hscalar
  | uint64 | sint64 | float | double => exact absurd hcode (by decide)
  | int | pointer | uint8 | sint8 | uint16 | sint16 | uint32 | sint32 =>
    exact ⟨_, rfl, map_readBytes _ hload⟩

end Arguments

section Parameters
variable {ω : Type} {l : Locals} {σ₀ σ : Store ω} {vs : List Value}

/-- The parameters so far: their codes and their slots, and nothing outside the buffers. -/
structure Lowered (l : Locals) (σ₀ σ : Store ω) (vs : List Value) : Prop where
  same : SameOutside l σ₀ σ
  codes : ∀ i v, vs[i]? = some v → σ.memory[l.sig + (2 + i)]? = some (code v.type)
  slots : ∀ i v, vs[i]? = some v →
    load σ.memory (l.args + i * 8) v.type.width = some v.bytes

theorem Lowered.nil (l : Locals) (σ : Store ω) : Lowered l σ σ [] :=
  ⟨.refl l σ, fun _ _ h => (nomatch h), fun _ _ h => (nomatch h)⟩

/-- A write to the buffers behind the parameters so far. -/
theorem Lowered.splice (h : Lowered l σ₀ σ vs) {p : ℕ} {bytes : List UInt8}
    (hin : p + bytes.length ≤ σ.memory.length)
    (howns : ∀ q, p ≤ q → q < p + bytes.length → l.Owns q)
    (hsig : p + bytes.length ≤ l.sig + 2 ∨ l.sig + 2 + vs.length ≤ p)
    (hargs : p + bytes.length ≤ l.args ∨ l.args + vs.length * 8 ≤ p) :
    Lowered l σ₀ (setMemory σ (ByteStore.splice σ.memory p bytes)) vs := by
  refine ⟨h.same.splice hin howns, fun i v hv => ?_, fun i v hv => ?_⟩
  · have hi := (List.getElem?_eq_some_iff.mp hv).1
    exact (getElem?_splice_outside hin (by omega)).trans (h.codes i v hv)
  · have hi := (List.getElem?_eq_some_iff.mp hv).1
    have hwidth := width_cases v.type
    exact (load_splice_apart hin (by omega)).trans (h.slots i v hv)

/-- With its slot filled, a parameter's code makes it one of them. -/
theorem Lowered.add (hfits : l.Fits σ₀.memory.length) (h : Lowered l σ₀ σ vs)
    (hlen : vs.length < 88) {v : Value}
    (hslot : load σ.memory (l.args + vs.length * 8) v.type.width = some v.bytes) :
    Lowered l σ₀ (setMemory σ
      (ByteStore.splice σ.memory (l.sig + (2 + vs.length)) [code v.type])) (vs ++ [v]) := by
  have hlength := h.same.length
  have hsig := hfits.sig
  have hapart := hfits.sig_args
  have hin : l.sig + (2 + vs.length) + [code v.type].length ≤ σ.memory.length := by
    rw [List.length_singleton]
    omega
  have hwidth := width_cases v.type
  have hold := h.splice hin (fun q hlow hhigh => Or.inl (by
    rw [List.length_singleton] at hhigh
    omega)) (Or.inr (by omega)) (by rw [List.length_singleton]; omega)
  refine ⟨hold.same, fun i w hw => ?_, fun i w hw => ?_⟩
  · rcases Nat.lt_or_ge i vs.length with hi | hi
    · rw [List.getElem?_append_left hi] at hw
      exact hold.codes i w hw
    · obtain ⟨hi', hw'⟩ := List.getElem?_eq_some_iff.mp hw
      rw [List.length_append, List.length_singleton] at hi'
      obtain rfl : i = vs.length := by omega
      rw [List.getElem_append_right hi] at hw'
      simp only [Nat.sub_self, List.getElem_cons_zero] at hw'
      subst hw'
      refine (getElem?_splice_inside hin (Nat.le_refl _) (by simp)).trans ?_
      rw [Nat.sub_self]
      rfl
  · rcases Nat.lt_or_ge i vs.length with hi | hi
    · rw [List.getElem?_append_left hi] at hw
      exact hold.slots i w hw
    · obtain ⟨hi', hw'⟩ := List.getElem?_eq_some_iff.mp hw
      rw [List.length_append, List.length_singleton] at hi'
      obtain rfl : i = vs.length := by omega
      rw [List.getElem_append_right hi] at hw'
      simp only [Nat.sub_self, List.getElem_cons_zero] at hw'
      subst hw'
      refine (load_splice_apart hin ?_).trans hslot
      rw [List.length_singleton]
      omega

theorem owns_args {l : Locals} {off n q : ℕ} (h : off + n ≤ 704) (hlow : l.args + off ≤ q)
    (hhigh : q < l.args + off + n) : l.Owns q :=
  Or.inr (Or.inl (by omega))

/-- A slot, and then its code. -/
theorem Lowered.push (hfits : l.Fits σ₀.memory.length) (h : Lowered l σ₀ σ vs)
    (hlen : vs.length < 88) (v : Value) :
    ∃ σ₁, (put l.argsBuf (vs.length * 8) v.bytes >>= fun _ =>
      put l.sigBuf (2 + vs.length) [code v.type] : Run ω Unit) σ = .ok () σ₁ ∧
      Lowered l σ₀ σ₁ (vs ++ [v]) ∧
      ∀ q, l.varbuf ≤ q → q < l.varbuf + 704 → σ₁.memory[q]? = σ.memory[q]? := by
  have hvarbuf := hfits.sig_varbuf
  have hvarbuf' := hfits.args_varbuf
  have hlength := h.same.length
  have hsig := hfits.sig
  have hargs := hfits.args
  have hapart := hfits.sig_args
  have hwidth := width_cases v.type
  have hbytes := bytes_length v
  have hin : l.args + vs.length * 8 + v.bytes.length ≤ σ.memory.length := by omega
  have hput := @put_eq ω σ l.argsBuf (vs.length * 8) v.bytes
    (show vs.length * 8 + v.bytes.length ≤ 8 * 88 by omega)
    (show l.args + 8 * 88 ≤ σ.memory.length by omega)
  have hkept := h.splice hin (fun q hlow hhigh => owns_args (by omega) hlow hhigh) (by omega)
    (Or.inr (Nat.le_refl _))
  have hslot := load_splice_self hin
  rw [hbytes] at hslot
  have hput' := @put_eq ω (setMemory σ (ByteStore.splice σ.memory (l.args + vs.length * 8) v.bytes))
    l.sigBuf (2 + vs.length) [code v.type] (show 2 + vs.length + 1 ≤ 2 + 88 by omega)
    (show l.sig + (2 + 88) ≤ _ by
      rw [setMemory_memory, splice_length hin]
      omega)
  refine ⟨_, (bind_of_ok hput _).trans hput', hkept.add hfits hlen hslot, fun q hlow hhigh => ?_⟩
  have hin' : l.sig + (2 + vs.length) + [code v.type].length ≤
      (ByteStore.splice σ.memory (l.args + vs.length * 8) v.bytes).length := by
    rw [splice_length hin, List.length_singleton]
    omega
  refine (getElem?_splice_outside hin' ?_).trans (getElem?_splice_outside hin (by omega))
  rw [List.length_singleton]
  omega

end Parameters

section Fixed
variable {ω : Type} {l : Locals} {σ₀ σ : Store ω} {vs : List Value}

/-- A scalar goes to its slot as the value it is passed as. -/
theorem writeScalarSlot_eq (b : Buffer) (slot : ℕ) {t : FfiType} {p : ℕ}
    (hscalar : isScalar t = true) {v : Value} (h : scalarValue σ.memory t p = some v) :
    writeScalarSlot b slot t p σ = put b slot v.bytes σ := by
  by_cases hcode : scalarWcode t = wsigI32
  · obtain ⟨a, rfl, hload⟩ := loadI32Arg_eq hscalar hcode h
    have hrun : writeScalarSlot b slot t p σ =
        EStateM.bind (loadI32Arg t p) (fun v => put b slot (leBytes 4 v.toNat)) σ := by
      unfold writeScalarSlot
      rw [hcode, if_neg (by decide), if_neg (by decide), if_neg (by decide)]
      rfl
    rw [hrun, EStateM.bind, hload]
    rfl
  · obtain ⟨bytes, hload, rfl⟩ := Option.map_eq_some_iff.mp h
    have hread := readBytes_eq hload
    have hlength := load_length hload
    cases t with
    | void | longdouble | struct | complex => cases hscalar
    | int | pointer | uint8 | sint8 | uint16 | sint16 | uint32 | sint32 => exact absurd rfl hcode
    | uint64 | sint64 | float | double =>
      rw [toValue, bytes_ofBytes hlength]
      exact bind_of_ok hread _

/-- What the backend cannot pass by value it refuses. -/
theorem writeScalarSlot_refused (b : Buffer) (slot : ℕ) {t : FfiType} (p : ℕ)
    (haggregate : isAggregate t = false) (hscalar : isScalar t = false) :
    writeScalarSlot b slot t p σ = .error (.unsupported "by-value argument type") σ := by
  cases t <;> first | cases haggregate; done | cases hscalar; done | rfl

theorem lowerArg_eq (hfits : l.Fits σ₀.memory.length) (h : Lowered l σ₀ σ vs)
    (hlen : vs.length < 88) {a : ArgType × ℕ} (hp : a.2 < 2 ^ 32) {v : Value}
    (hv : argValue σ.memory a = some v) :
    ∃ σ₁, lowerArg l a.1 a.2 vs.length σ = .ok () σ₁ ∧ Lowered l σ₀ σ₁ (vs ++ [v]) := by
  obtain ⟨σ₁, hpush, hlowered, -⟩ := h.push hfits hlen v
  refine ⟨σ₁, ?_, hlowered⟩
  unfold argValue at hv
  unfold lowerArg
  by_cases haggregate : isAggregate a.1.type = true
  · rw [if_pos haggregate] at hv ⊢
    cases hv
    rwa [bytes_pointer hp] at hpush
  · rw [if_neg haggregate] at hv ⊢
    by_cases hscalar : isScalar a.1.type = true
    · rw [if_pos hscalar] at hv
      have hwrite := writeScalarSlot_eq l.argsBuf (vs.length * 8) hscalar hv
      obtain ⟨bytes, -, rfl⟩ := Option.map_eq_some_iff.mp hv
      rw [code_toValue] at hpush
      change EStateM.bind (writeScalarSlot _ _ _ _) _ σ = _
      rw [EStateM.bind, hwrite]
      exact hpush
    · rw [if_neg hscalar] at hv
      cases hv

/-- Every fixed argument can be passed. -/
def Passable (args : List (ArgType × ℕ)) : Prop :=
  ∀ a ∈ args, isAggregate a.1.type = true ∨ isScalar a.1.type = true

theorem Readable.value (h : SameOutside l σ₀ σ) {a : ArgType × ℕ} (hread : Readable l σ₀.memory a)
    (hpassable : isAggregate a.1.type = true ∨ isScalar a.1.type = true) :
    ∃ v, argValue σ.memory a = some v ∧ argValue σ₀.memory a = some v := by
  unfold argValue
  by_cases haggregate : isAggregate a.1.type = true
  · rw [if_pos haggregate, if_pos haggregate]
    exact ⟨_, rfl, rfl⟩
  · have hscalar := hpassable.resolve_left haggregate
    have hsize := a.1.scalar hscalar
    obtain ⟨hin, hclear⟩ := hread (by simpa using haggregate)
    rw [hsize] at hin hclear
    rw [if_neg haggregate, if_neg haggregate, if_pos hscalar, if_pos hscalar, scalarValue,
      scalarValue, h.load hclear, load, if_pos hin]
    exact ⟨_, rfl, rfl⟩

/-- The fixed arguments become parameters in their order, or the call aborts: too many, or one that
cannot be passed. -/
theorem lowerFixed_wp (hfits : l.Fits σ₀.memory.length) (args : List (ArgType × ℕ)) (σ : Store ω)
    (vs : List Value) (h : Lowered l σ₀ σ vs) (hlen : vs.length < 88)
    (hread : ∀ a ∈ args, a.2 < 2 ^ 32 ∧ Readable l σ₀.memory a) :
    Effects.Wp (lowerFixed l args vs.length)
      (fun np σ₁ => ∃ more, args.mapM (argValue σ₀.memory) = some more ∧
        np = (vs ++ more).length ∧ np < 88 ∧ Lowered l σ₀ σ₁ (vs ++ more))
      (fun e _ => (∃ what, e = .unsupported what) ∧
        ¬ (Passable args ∧ vs.length + args.length < 88)) σ := by
  induction args generalizing σ vs with
  | nil => exact ⟨[], rfl, by rw [List.append_nil], hlen, by rwa [List.append_nil]⟩
  | cons a args ih =>
    obtain ⟨hp, hreada⟩ := hread a (List.mem_cons_self ..)
    have hrest := fun b hb => hread b (List.mem_cons_of_mem a hb)
    have hrun : lowerFixed l (a :: args) vs.length = (lowerArg l a.1 a.2 vs.length >>= fun _ =>
        if vs.length + 1 ≥ wsigMax then throw (.unsupported "too many lowered arguments")
        else lowerFixed l args (vs.length + 1) : Run ω ℕ) := rfl
    rw [hrun, wp_bind]
    by_cases hpassable : isAggregate a.1.type = true ∨ isScalar a.1.type = true
    · obtain ⟨v, hv, hv₀⟩ := hreada.value h.same hpassable
      obtain ⟨σ₁, harg, hlowered⟩ := lowerArg_eq hfits h hlen hp hv
      rw [wp_of_ok harg, Effects.wp_ite]
      constructor
      · intro hfull
        refine ⟨⟨_, rfl⟩, fun hroom => ?_⟩
        have hmax : vs.length + 1 ≥ 88 := hfull
        have hlt := hroom.2
        rw [List.length_cons] at hlt
        omega
      · intro hroom
        have hlen' : (vs ++ [v]).length = vs.length + 1 := by simp
        have hmax : ¬ vs.length + 1 ≥ 88 := hroom
        have hih := ih σ₁ (vs ++ [v]) hlowered (by omega) hrest
        rw [hlen'] at hih
        refine hih.mono (fun np σ₂ => ?_) fun e _ => ?_
        · rintro ⟨more, hmore, hnp, hlt, hlow⟩
          rw [List.append_assoc, List.singleton_append] at hnp hlow
          refine ⟨v :: more, ?_, hnp, hlt, hlow⟩
          rw [List.mapM_cons, hv₀, hmore]
          rfl
        · rintro ⟨hwhat, hnot⟩
          refine ⟨hwhat, fun hall => hnot ⟨fun b hb => hall.1 b (List.mem_cons_of_mem a hb), ?_⟩⟩
          have hlt := hall.2
          rw [List.length_cons] at hlt
          omega
    · have hnot := not_or.mp hpassable
      have hrefused : lowerArg l a.1 a.2 vs.length σ =
          .error (.unsupported "by-value argument type") σ := by
        unfold lowerArg
        rw [if_neg hnot.1]
        change EStateM.bind (writeScalarSlot _ _ _ _) _ σ = _
        rw [EStateM.bind, writeScalarSlot_refused _ _ _ (by simpa using hnot.1)
          (by simpa using hnot.2)]
      unfold Effects.Wp
      rw [hrefused]
      exact ⟨⟨_, rfl⟩, fun hall => hpassable (hall.1 a (List.mem_cons_self ..))⟩

end Fixed

section Variadic
variable {ω : Type} {l : Locals} {σ₀ σ : Store ω} {vs : List Value}

/-- Where the variadic arguments go in their buffer. -/
def varPieces : List (ArgType × ℕ) → ℕ → List (ℕ × ArgType × ℕ)
  | [], _ => []
  | a :: rest, off =>
    (alignUp off (varAlign a.1), a) :: varPieces rest (alignUp off (varAlign a.1) + varSize a.1)

/-- The bytes of a variadic argument: its storage, or the pointer of an aggregate. -/
def varBytes (memory : List UInt8) (a : ArgType × ℕ) : List UInt8 :=
  if isAggregate a.1.type then leBytes 4 a.2 else (memory.drop a.2).take a.1.size

/-- All of them end inside the buffer. -/
def VarFits (args : List (ArgType × ℕ)) (off : ℕ) : Prop :=
  ∀ x ∈ varPieces args off, x.1 + varSize x.2.1 ≤ 704

theorem alignUp_ge {off k : ℕ} (hoff : off ≤ 704) (hk : k ≤ 4) : off ≤ alignUp off (2 ^ k) := by
  have hpow : 2 ^ k ≤ 2 ^ 4 := Nat.pow_le_pow_right (by decide) hk
  have hpos := Nat.two_pow_pos k
  have hsum : 32 - k + k = 32 := by omega
  have hmask : 2 ^ 32 - 1 - (2 ^ k - 1) = (2 ^ (32 - k) - 1) <<< k := by
    rw [Nat.shiftLeft_eq, Nat.sub_mul, ← pow_add, hsum]
    omega
  have hlt : off + (2 ^ k - 1) < 2 ^ (32 - k + k) := by
    rw [hsum]
    omega
  rw [alignUp, hmask, WordFlags.and_shiftedMask hlt]
  have hdiv := Nat.div_add_mod' (off + (2 ^ k - 1)) (2 ^ k)
  have hmod := Nat.mod_lt (off + (2 ^ k - 1)) hpos
  omega

theorem varAlign_pow (t : ArgType) : ∃ k ≤ 4, varAlign t = 2 ^ k := by
  unfold varAlign
  split
  · exact ⟨2, by decide, rfl⟩
  · rename_i haggregate
    exact (t.plain (by simpa using haggregate)).2

theorem start_ge {off : ℕ} (hoff : off ≤ 704) (t : ArgType) : off ≤ alignUp off (varAlign t) := by
  obtain ⟨k, hk, halign⟩ := varAlign_pow t
  rw [halign]
  exact alignUp_ge hoff hk

/-- One piece: its bytes, where there is room for them. -/
theorem packArg_eq (hfits : l.Fits σ₀.memory.length) (h : Lowered l σ₀ σ vs)
    (hcount : vs.length ≤ 88) {a : ArgType × ℕ} (hread : Readable l σ₀.memory a) {start : ℕ}
    (hroom : start + varSize a.1 ≤ 704) :
    (varBytes σ₀.memory a).length = varSize a.1 ∧
    packArg l a.1 a.2 start σ =
      .ok () (setMemory σ (splice σ.memory (l.varbuf + start) (varBytes σ₀.memory a))) ∧
    Lowered l σ₀ (setMemory σ (splice σ.memory (l.varbuf + start) (varBytes σ₀.memory a))) vs := by
  have hlength := h.same.length
  have hvarbuf := hfits.varbuf
  have hlen : (varBytes σ₀.memory a).length = varSize a.1 := by
    unfold varBytes varSize
    split
    · exact leBytes_length ..
    · rename_i haggregate
      have hin := (hread (by simpa using haggregate)).1
      rw [List.length_take, List.length_drop]
      omega
  have hbuf : l.varbuf + 8 * 88 ≤ σ.memory.length := by omega
  have hput := @put_eq ω σ l.varbufBuf start (varBytes σ₀.memory a)
    (show start + _ ≤ 8 * 88 by omega) hbuf
  have hsig := hfits.sig_varbuf
  have hargs := hfits.args_varbuf
  refine ⟨hlen, ?_, h.splice (by omega) (fun q hlow hhigh => Or.inr (Or.inr (Or.inl (by omega))))
    (by omega) (by omega)⟩
  unfold packArg
  by_cases haggregate : isAggregate a.1.type = true
  · have hbytes : varBytes σ₀.memory a = leBytes 4 a.2 := if_pos haggregate
    rw [hbytes] at hput ⊢
    rw [if_pos haggregate]
    exact hput
  · obtain ⟨hin, hclear⟩ := hread (by simpa using haggregate)
    have hbytes : varBytes σ₀.memory a = (σ₀.memory.drop a.2).take a.1.size := if_neg haggregate
    have hload : load σ.memory a.2 a.1.size = some (varBytes σ₀.memory a) := by
      rw [h.same.load hclear, load, if_pos hin, hbytes]
    rw [if_neg haggregate]
    exact (bind_of_ok (readBytes_eq hload) _).trans hput

/-- The variadic arguments go to their places, or the buffer is too small for them. -/
theorem packVariadic_wp (hfits : l.Fits σ₀.memory.length) (args : List (ArgType × ℕ)) (off : ℕ)
    (σ : Store ω) (h : Lowered l σ₀ σ vs) (hcount : vs.length ≤ 88) (hoff : off ≤ 704)
    (hread : ∀ a ∈ args, Readable l σ₀.memory a) :
    Effects.Wp (packVariadic l args off)
      (fun _ σ₁ => Lowered l σ₀ σ₁ vs ∧ VarFits args off ∧
        (∀ x ∈ varPieces args off,
          load σ₁.memory (l.varbuf + x.1) (varSize x.2.1) = some (varBytes σ₀.memory x.2)) ∧
        ∀ q, l.varbuf ≤ q → q < l.varbuf + off → σ₁.memory[q]? = σ.memory[q]?)
      (fun e _ => (∃ what, e = .unsupported what) ∧ ¬ VarFits args off) σ := by
  induction args generalizing off σ with
  | nil => exact ⟨h, fun x hx => (nomatch hx), fun x hx => (nomatch hx), fun _ _ _ => rfl⟩
  | cons a args ih =>
    have hreada := hread a (List.mem_cons_self ..)
    have hrest := fun b hb => hread b (List.mem_cons_of_mem a hb)
    have hge := start_ge hoff a.1
    set start := alignUp off (varAlign a.1) with hstart
    have hrun : packVariadic l (a :: args) off =
        (if start + varSize a.1 > l.varbufBuf.size then
          throw (.unsupported "varargs buffer overflow")
        else
          packArg l a.1 a.2 start >>= fun _ =>
            packVariadic l args (start + varSize a.1) : Run ω Unit) := rfl
    rw [hrun, Effects.wp_ite]
    refine ⟨fun hover => ⟨⟨_, rfl⟩, fun hall => ?_⟩, fun hroom => ?_⟩
    · have hmax : start + varSize a.1 > 704 := hover
      have hle := hall _ (List.mem_cons_self ..)
      dsimp only at hle
      omega
    · have hmax : ¬ start + varSize a.1 > 704 := hroom
      obtain ⟨hlen, hput, hlowered⟩ :=
        @packArg_eq ω l σ₀ σ vs hfits h hcount a hreada start (by omega)
      have hin : l.varbuf + start + (varBytes σ₀.memory a).length ≤ σ.memory.length := by
        have hvarbuf := hfits.varbuf
        have hlength := h.same.length
        omega
      rw [wp_bind, wp_of_ok hput]
      refine (ih (start + varSize a.1) _ hlowered (by omega) hrest).mono (fun _ σ₁ => ?_)
        fun e _ => ?_
      · rintro ⟨hlow, hall, hpieces, hkept⟩
        refine ⟨hlow, fun x hx => ?_, fun x hx => ?_, fun q hq hq' => ?_⟩
        · rcases List.mem_cons.mp hx with rfl | hx
          · dsimp only
            omega
          · exact hall x hx
        · rcases List.mem_cons.mp hx with rfl | hx
          · dsimp only
            have hself := load_splice_self hin
            rw [hlen] at hself
            refine (load_congr ?_ fun q hq hq' => hkept q (by omega) (by omega)).trans hself
            rw [hlow.same.length, ← h.same.length, setMemory_memory, splice_length hin]
          · exact hpieces x hx
        · rw [hkept q hq (by omega), setMemory_memory, getElem?_splice_outside hin (by omega)]
      · rintro ⟨hwhat, hnot⟩
        exact ⟨hwhat, fun hall => hnot fun x hx => hall x (List.mem_cons_of_mem _ hx)⟩

end Variadic

section Whole
variable {ω : Type} {l : Locals} {σ₀ σ σ₁ : Store ω} {vs : List Value}

/-- The variadic arguments in their buffer. -/
structure Packed (l : Locals) (σ₀ σ : Store ω) (args : List (ArgType × ℕ)) : Prop where
  fits : VarFits args 0
  pieces : ∀ x ∈ varPieces args 0,
    load σ.memory (l.varbuf + x.1) (varSize x.2.1) = some (varBytes σ₀.memory x.2)

theorem Packed.nil (l : Locals) (σ₀ σ : Store ω) : Packed l σ₀ σ [] :=
  ⟨fun _ hx => (nomatch hx), fun _ hx => (nomatch hx)⟩

theorem Packed.keep {args : List (ArgType × ℕ)} (h : Packed l σ₀ σ args)
    (hlength : σ₁.memory.length = σ.memory.length)
    (hsame : ∀ q, l.varbuf ≤ q → q < l.varbuf + 704 → σ₁.memory[q]? = σ.memory[q]?) :
    Packed l σ₀ σ₁ args := by
  refine ⟨h.fits, fun x hx => (load_congr hlength fun q hlow hhigh => ?_).trans (h.pieces x hx)⟩
  have hle := h.fits x hx
  exact hsame q (by omega) (by omega)

/-- The place of a returned structure. -/
def retParam (rtype : FfiType) (rvalue : ℕ) : List Value :=
  if isAggregate rtype then [.i32 (BitVec.ofNat 32 rvalue)] else []

/-- The buffer of the variadic arguments. -/
def varParam (cif : FfiCif) (l : Locals) : List Value :=
  if cif.nfixedargs ≠ cif.argTypes.length then [.i32 (BitVec.ofNat 32 l.varbuf)] else []

/-- The parameters of the call, by the C types. -/
def params (cif : FfiCif) (l : Locals) (rvalue : ℕ) (avalue : List ℕ) (memory : List UInt8) :
    Option (List Value) :=
  (((cif.argTypes.zip avalue).take cif.nfixedargs).mapM (argValue memory)).map fun fixed =>
    retParam cif.rtype rvalue ++ (fixed ++ varParam cif l)

/-- A call that the backend does not abort. -/
structure Lowerable (cif : FfiCif) (avalue : List ℕ) : Prop where
  passable : Passable ((cif.argTypes.zip avalue).take cif.nfixedargs)
  few : (if isAggregate cif.rtype then 1 else 0) + cif.nfixedargs < 88
  packs : VarFits ((cif.argTypes.zip avalue).drop cif.nfixedargs) 0

/-- The parameters in the buffers, and their descriptor. -/
structure Described (cif : FfiCif) (l : Locals) (avalue : List ℕ) (σ₀ σ : Store ω)
    (vs : List Value) : Prop where
  lowered : Lowered l σ₀ σ vs
  count : σ.memory[l.sig]? = some (UInt8.ofNat vs.length)
  result : σ.memory[l.sig + 1]? = some (retcode cif.rtype)
  packed : Packed l σ₀ σ ((cif.argTypes.zip avalue).drop cif.nfixedargs)

theorem lowerReturn_eq (hfits : l.Fits σ.memory.length) (rtype : FfiType) {rvalue : ℕ}
    (hrvalue : rvalue < 2 ^ 32) : ∃ σ₁, lowerReturn l rtype rvalue σ =
      .ok (retParam rtype rvalue).length σ₁ ∧ Lowered l σ σ₁ (retParam rtype rvalue) := by
  unfold lowerReturn retParam
  by_cases haggregate : isAggregate rtype = true
  · rw [if_pos haggregate, if_pos haggregate]
    have hargs := hfits.args
    have hsig := hfits.sig
    have hapart := hfits.sig_args
    have hlen : ∀ v : ℕ, (leBytes 4 v).length = 4 := fun v => leBytes_length 4 v
    have hfirst := @put_eq ω σ l.argsBuf 0 (leBytes 4 rvalue)
      (show 0 + (leBytes 4 rvalue).length ≤ 8 * 88 by rw [hlen]; decide)
      (show l.args + 8 * 88 ≤ _ by omega)
    have hin : l.args + 0 + (leBytes 4 rvalue).length ≤ σ.memory.length := by
      rw [hlen]
      omega
    have hkept := (Lowered.nil l σ).splice hin
      (fun q hlow hhigh => owns_args (by rw [hlen]; decide) hlow hhigh)
      (by rw [hlen, List.length_nil]; omega) (Or.inr (by simp))
    set σ' := setMemory σ (splice σ.memory (l.args + 0) (leBytes 4 rvalue)) with hσ'
    have hlength : σ'.memory.length = σ.memory.length := splice_length hin
    have hsecond := @put_eq ω σ' l.argsBuf 4 (leBytes 4 0)
      (show 4 + (leBytes 4 0).length ≤ 8 * 88 by rw [hlen]; decide)
      (show l.args + 8 * 88 ≤ _ by omega)
    have hin' : l.args + 4 + (leBytes 4 0).length ≤ σ'.memory.length := by
      rw [hlen]
      omega
    have hkept' := hkept.splice hin'
      (fun q hlow hhigh => owns_args (by rw [hlen]; decide) hlow hhigh)
      (by rw [hlen, List.length_nil]; omega) (Or.inr (by simp))
    have hslot : load (splice σ'.memory (l.args + 4) (leBytes 4 0))
        (l.args + ([] : List Value).length * 8) 4 = some (leBytes 4 rvalue) := by
      have hself := load_splice_self hin
      rw [hlen] at hself
      refine (load_splice_apart hin' ?_).trans hself
      rw [hlen, List.length_nil]
      omega
    rw [← bytes_pointer hrvalue] at hslot
    have hadd := @Lowered.add ω l σ _ [] hfits hkept' (by simp) (.i32 (BitVec.ofNat 32 rvalue))
      hslot
    set σ'' := setMemory σ' (splice σ'.memory (l.args + 4) (leBytes 4 0)) with hσ''
    have hlength' : σ''.memory.length = σ'.memory.length := splice_length hin'
    have hthird := @put_eq ω σ'' l.sigBuf 2 [wsigI32] (show 2 + 1 ≤ 2 + 88 by decide)
      (show l.sig + (2 + 88) ≤ _ by omega)
    refine ⟨_, ?_, hadd⟩
    exact (bind_of_ok hfirst _).trans ((bind_of_ok hsecond _).trans (bind_of_ok hthird _))
  · rw [if_neg haggregate, if_neg haggregate]
    exact ⟨σ, rfl, Lowered.nil l σ⟩

/-- The pointer to the variadic arguments, where there are any. -/
theorem lowerVariadic_wp (hfits : l.Fits σ₀.memory.length) (cif : FfiCif)
    (args : List (ArgType × ℕ)) (hnone : cif.nfixedargs = cif.argTypes.length → args = [])
    (h : Lowered l σ₀ σ vs) (hlen : vs.length < 88) (hread : ∀ a ∈ args, Readable l σ₀.memory a) :
    Effects.Wp (lowerVariadic l cif args vs.length)
      (fun np σ₁ => np = (vs ++ varParam cif l).length ∧ Lowered l σ₀ σ₁ (vs ++ varParam cif l) ∧
        Packed l σ₀ σ₁ args)
      (fun e _ => (∃ what, e = .unsupported what) ∧ ¬ VarFits args 0) σ := by
  unfold lowerVariadic varParam
  by_cases hvariadic : cif.nfixedargs ≠ cif.argTypes.length
  · rw [if_pos hvariadic, if_pos hvariadic, wp_bind]
    refine (packVariadic_wp hfits args 0 σ h (by omega) (by decide) hread).mono
      (fun _ σ₁ hpack => ?_) fun e _ herror => herror
    obtain ⟨hlow, hall, hpieces, -⟩ := hpack
    have hvarbuf := hfits.varbuf
    have hsmall := hfits.small
    obtain ⟨σ₂, hpush, hlow', hsame⟩ := hlow.push hfits hlen (.i32 (BitVec.ofNat 32 l.varbuf))
    rw [bytes_pointer (by omega)] at hpush
    have hrun : (put l.argsBuf (vs.length * 8) (leBytes 4 l.varbuf) >>= fun _ =>
        put l.sigBuf (2 + vs.length) [wsigI32] >>= fun _ => pure (vs.length + 1) : Run ω ℕ) σ₁ =
        .ok (vs.length + 1) σ₂ := by
      have hassoc : (put l.argsBuf (vs.length * 8) (leBytes 4 l.varbuf) >>= fun _ =>
          put l.sigBuf (2 + vs.length) [wsigI32] >>= fun _ => pure (vs.length + 1) : Run ω ℕ) =
          ((put l.argsBuf (vs.length * 8) (leBytes 4 l.varbuf) >>= fun _ =>
            put l.sigBuf (2 + vs.length) [wsigI32]) >>= fun _ => pure (vs.length + 1)) := by
        rw [bind_assoc]
      rw [hassoc]
      exact bind_of_ok hpush _
    refine (wp_of_ok hrun).mpr ⟨by rw [List.length_append, List.length_singleton], hlow', ?_⟩
    exact Packed.keep ⟨hall, hpieces⟩ (hlow'.same.length.trans hlow.same.length.symm) hsame
  · rw [if_neg hvariadic, if_neg hvariadic, List.append_nil]
    obtain rfl := hnone (not_not.mp hvariadic)
    exact ⟨rfl, h, Packed.nil l σ₀ σ⟩

/-- The count and the result code, before the codes. -/
theorem describe_eq (hfits : l.Fits σ₀.memory.length) (cif : FfiCif) {avalue : List ℕ}
    (h : Lowered l σ₀ σ vs) (hcount : vs.length ≤ 88)
    (hpacked : Packed l σ₀ σ ((cif.argTypes.zip avalue).drop cif.nfixedargs)) :
    ∃ σ₁, (put l.sigBuf 0 [UInt8.ofNat vs.length] >>= fun _ =>
        put l.sigBuf 1 [retcode cif.rtype] >>= fun _ => pure vs.length : Run ω ℕ) σ =
        .ok vs.length σ₁ ∧ Described cif l avalue σ₀ σ₁ vs := by
  have hsig := hfits.sig
  have hargs := hfits.sig_args
  have hvarbuf := hfits.sig_varbuf
  have hlength := h.same.length
  have hown : ∀ off, off < 90 → ∀ b : UInt8, ∀ q, l.sig + off ≤ q → q < l.sig + off + [b].length →
      l.Owns q := by
    intro off hoff b q hlow hhigh
    rw [List.length_singleton] at hhigh
    exact Or.inl (by omega)
  have hin : l.sig + 0 + [UInt8.ofNat vs.length].length ≤ σ.memory.length := by
    rw [List.length_singleton]
    omega
  have hfirst := @put_eq ω σ l.sigBuf 0 [UInt8.ofNat vs.length] (show 0 + 1 ≤ 2 + 88 by decide)
    (show l.sig + (2 + 88) ≤ _ by omega)
  have hkept := h.splice hin (hown 0 (by decide) _) (Or.inl (by rw [List.length_singleton]; omega))
    (by rw [List.length_singleton]; omega)
  set σ' := setMemory σ (splice σ.memory (l.sig + 0) [UInt8.ofNat vs.length]) with hσ'
  have hlength' : σ'.memory.length = σ.memory.length := splice_length hin
  have hin' : l.sig + 1 + [retcode cif.rtype].length ≤ σ'.memory.length := by
    rw [List.length_singleton]
    omega
  have hsecond := @put_eq ω σ' l.sigBuf 1 [retcode cif.rtype] (show 1 + 1 ≤ 2 + 88 by decide)
    (show l.sig + (2 + 88) ≤ _ by omega)
  have hkept' := hkept.splice hin' (hown 1 (by decide) _)
    (Or.inl (by rw [List.length_singleton])) (by rw [List.length_singleton]; omega)
  set σ'' := setMemory σ' (splice σ'.memory (l.sig + 1) [retcode cif.rtype]) with hσ''
  have hlength'' : σ''.memory.length = σ'.memory.length := splice_length hin'
  refine ⟨σ'', (bind_of_ok hfirst _).trans (bind_of_ok hsecond _), hkept', ?_, ?_,
    hpacked.keep (hlength''.trans hlength') fun q hlow hhigh => ?_⟩
  · refine (getElem?_splice_outside hin' (Or.inl (by omega))).trans ?_
    refine (getElem?_splice_inside hin (by omega) (by simp)).trans ?_
    simp
  · refine (getElem?_splice_inside hin' (Nat.le_refl _) (by simp)).trans ?_
    simp
  · refine (getElem?_splice_outside hin' ?_).trans (getElem?_splice_outside hin ?_)
    · rw [List.length_singleton]
      omega
    · rw [List.length_singleton]
      omega

/-- The storage of all arguments. -/
def Storage (cif : FfiCif) (l : Locals) (avalue : List ℕ) (memory : List UInt8) : Prop :=
  avalue.length = cif.argTypes.length ∧
    ∀ a ∈ cif.argTypes.zip avalue, a.2 < 2 ^ 32 ∧ Readable l memory a

/-- The lowering describes the call's parameters, or it aborts a call that has no place. -/
theorem lower_wp (cif : FfiCif) {rvalue : ℕ} (avalue : List ℕ) (hfits : l.Fits σ.memory.length)
    (hrvalue : rvalue < 2 ^ 32) (hstorage : Storage cif l avalue σ.memory) :
    Effects.Wp (lower cif l rvalue avalue)
      (fun np σ₁ => ∃ vs, params cif l rvalue avalue σ.memory = some vs ∧ np = vs.length ∧
        vs.length ≤ 88 ∧ Described cif l avalue σ σ₁ vs)
      (fun e _ => (∃ what, e = .unsupported what) ∧ ¬ Lowerable cif avalue) σ := by
  obtain ⟨hcount, hread⟩ := hstorage
  obtain ⟨σ₁, hreturn, hlow⟩ := lowerReturn_eq hfits cif.rtype hrvalue
  set args := cif.argTypes.zip avalue with hargs
  have hlen : (retParam cif.rtype rvalue).length = if isAggregate cif.rtype then 1 else 0 := by
    unfold retParam
    split <;> rfl
  have hlt : (retParam cif.rtype rvalue).length < 88 := by
    rw [hlen]
    split <;> decide
  have hall : args.length = cif.argTypes.length := by
    rw [hargs, List.length_zip, hcount, Nat.min_self]
  have hfixed : (args.take cif.nfixedargs).length = cif.nfixedargs := by
    rw [List.length_take, hall]
    exact Nat.min_eq_left cif.fixed_le
  have hrun : lower cif l rvalue avalue = (lowerReturn l cif.rtype rvalue >>= fun np =>
      lowerFixed l (args.take cif.nfixedargs) np >>= fun np =>
      lowerVariadic l cif (args.drop cif.nfixedargs) np >>= fun np =>
      put l.sigBuf 0 [UInt8.ofNat np] >>= fun _ =>
      put l.sigBuf 1 [retcode cif.rtype] >>= fun _ => pure np : Run ω ℕ) := rfl
  rw [hrun, wp_bind, wp_of_ok hreturn, wp_bind]
  refine (lowerFixed_wp hfits _ σ₁ _ hlow hlt fun a ha => hread a (List.mem_of_mem_take ha)).mono
    (fun np σ₂ hlowered => ?_) fun e _ herror => ?_
  · obtain ⟨fixed, hmap, rfl, hnp, hlow'⟩ := hlowered
    rw [wp_bind]
    refine (lowerVariadic_wp hfits cif _ (fun hnone => ?_) hlow' hnp
      fun a ha => (hread a (List.mem_of_mem_drop ha)).2).mono (fun np' σ₃ hvar => ?_)
      fun e _ herror => ?_
    · rw [List.drop_eq_nil_iff, hall, hnone]
    · obtain ⟨rfl, hlow'', hpacked⟩ := hvar
      have hmax : (retParam cif.rtype rvalue ++ fixed ++ varParam cif l).length ≤ 88 := by
        have hvarParam : (varParam cif l).length ≤ 1 := by
          unfold varParam
          split <;> simp
        rw [List.length_append]
        omega
      obtain ⟨σ₄, hdescribe, hdescribed⟩ := describe_eq hfits cif hlow'' hmax hpacked
      refine (wp_of_ok hdescribe).mpr ⟨_, ?_, rfl, hmax, hdescribed⟩
      rw [params, hmap, Option.map_some, List.append_assoc]
    · exact ⟨herror.1, fun hok => herror.2 hok.packs⟩
  · refine ⟨herror.1, fun hok => herror.2 ⟨hok.passable, ?_⟩⟩
    rw [hlen, hfixed]
    exact hok.few

end Whole

end NixWasm.RawFfi
