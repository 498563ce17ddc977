import NixWasm.RawFfiLowering
import NixWasm.TrampolineKeys

/-!
The call that the host makes from a lowered call's buffers. The descriptor decodes to the types of
the parameters, and the generated trampoline reads each of them back from its slot, so that the
target gets them, and its result comes back through the buffer for it. A static trampoline calls
the target with the same values and stores the same result.
-/
namespace NixWasm.RawFfi

open Bytes ByteStore Effects Wasm FfiCodegen
open Trampolines (FfiType isScalar wasmFfiMaxArgs argClass retClass)

section Descriptor
variable {ω : Type} {l : Locals} {σ₀ σ : Store ω} {vs : List Value}

/-- The type that a scalar is passed and returned as. -/
def wasmType : FfiType → ValType
  | .uint64 | .sint64 => .i64
  | .float => .f32
  | .double => .f64
  | _ => .i32

/-- The result of the lowered call. -/
def retType (rtype : FfiType) : Option ValType :=
  if isAggregate rtype then none
  else if rtype = .void then none
  else some (wasmType rtype)

theorem type_toValue (t : FfiType) (bytes : List UInt8) : (toValue t bytes).type = wasmType t := by
  cases t <;> rfl

theorem code_wasmType (t : FfiType) : code (wasmType t) = scalarWcode t := by
  cases t <;> rfl

theorem codes_code (t : ValType) : (codes[(code t).toNat]?).join = some t := by
  cases t <;> rfl

theorem codes_retcode (rtype : FfiType) :
    (retcode rtype).toNat < codes.length ∧
      (codes[(retcode rtype).toNat]?).join = retType rtype := by
  cases rtype <;> exact ⟨by decide, rfl⟩

theorem mapM_codes (vs : List Value) :
    (vs.map fun v => code v.type).mapM (fun c => (codes[c.toNat]?).join) =
      some (vs.map Value.type) := by
  induction vs with
  | nil => rfl
  | cons v vs ih =>
    rw [List.map_cons, List.mapM_cons, codes_code, ih]
    rfl

/-- The bytes that describe a call. -/
def descriptor (rtype : FfiType) (vs : List Value) : List UInt8 :=
  UInt8.ofNat vs.length :: retcode rtype :: vs.map fun v => code v.type

theorem decode_descriptor (rtype : FfiType) (hcount : vs.length ≤ 88) :
    decode (descriptor rtype vs) = some ⟨vs.map Value.type, retType rtype⟩ := by
  obtain ⟨hlt, hret⟩ := codes_retcode rtype
  have hnp : (UInt8.ofNat vs.length).toNat = vs.length := by
    rw [UInt8.toNat_ofNat']
    omega
  have hok : ¬ ((UInt8.ofNat vs.length :: retcode rtype :: vs.map fun v => code v.type).length ≠
      2 + (UInt8.ofNat vs.length).toNat ∨ codes.length ≤ (retcode rtype).toNat) := by
    rw [hnp, List.length_cons, List.length_cons, List.length_map]
    omega
  rw [descriptor, decode, if_neg hok, mapM_codes, hret]
  rfl

/-- A range is loaded by its bytes. -/
theorem load_of_bytes {bytes out : List UInt8} {pos : ℕ} (hfits : pos + out.length ≤ bytes.length)
    (h : ∀ i, i < out.length → bytes[pos + i]? = out[i]?) :
    load bytes pos out.length = some out := by
  rw [load, if_pos hfits]
  refine congrArg some (List.ext_getElem? fun i => ?_)
  by_cases hi : i < out.length
  · rw [List.getElem?_take_of_lt hi, List.getElem?_drop, h i hi]
  · rw [List.getElem?_eq_none (by simp; omega), List.getElem?_eq_none (by omega)]

theorem Described.load {cif : FfiCif} {avalue : List ℕ} (hfits : l.Fits σ₀.memory.length)
    (h : Described cif l avalue σ₀ σ vs) (hcount : vs.length ≤ 88) :
    ByteStore.load σ.memory l.sig (2 + vs.length) = some (descriptor cif.rtype vs) := by
  have hsig := hfits.sig
  have hlength := h.lowered.same.length
  have hlen : (descriptor cif.rtype vs).length = 2 + vs.length := by
    rw [descriptor, List.length_cons, List.length_cons, List.length_map]
    omega
  rw [← hlen]
  refine load_of_bytes (by omega) fun i hi => ?_
  match i with
  | 0 => exact h.count
  | 1 => exact h.result
  | i + 2 =>
    have hi' : i < vs.length := by omega
    have hcode := h.lowered.codes i vs[i] (List.getElem?_eq_getElem hi')
    rw [Nat.add_comm i 2, hcode, descriptor, Nat.add_comm 2 i]
    simp [hi']

/-- The trampoline reads every parameter from its slot. -/
theorem loadArgs_of_slots {memory : List UInt8} {args : ℕ} (ws : List Value) (i : ℕ)
    (h : ∀ k v, ws[k]? = some v →
      ByteStore.load memory (args + (i + k) * 8) v.type.width = some v.bytes) :
    loadArgs memory args (ws.map Value.type) i = some ws := by
  induction ws generalizing i with
  | nil => rfl
  | cons v ws ih =>
    have hfirst := h 0 v rfl
    rw [Nat.add_zero] at hfirst
    have hrest := ih (i + 1) fun k w hw => by
      have hnext := h (k + 1) w hw
      rwa [Nat.add_comm k 1, ← Nat.add_assoc] at hnext
    rw [List.map_cons, loadArgs, hfirst, hrest, Option.bind_some, Option.map_some, ofBytes_bytes]

theorem Lowered.loadArgs (h : Lowered l σ₀ σ vs) :
    FfiCodegen.loadArgs σ.memory l.args (vs.map Value.type) 0 = some vs :=
  loadArgs_of_slots vs 0 fun k v hv => by
    rw [Nat.zero_add]
    exact h.slots k v hv

end Descriptor

section Host
variable {ω : Type} {l : Locals} {σ₀ σ : Store ω} {vs : List Value}

/-- A result through its buffer to its place. -/
def passResult (l : Locals) (rvalue : ℕ) : List Value → Run ω Unit
  | [] => return ()
  | v :: vs => writeBytes l.retbuf v.bytes >>= fun _ => storeReturn rvalue (v :: vs)

/-- What the host's call leaves of the target's. -/
def hostResult (retbuf : ℕ) (σ : Store ω) :
    Option (Return ω) → EStateM.Result Failure (Store ω) ℕ
  | none => .error .running σ
  | some r =>
    match finish (BitVec.ofNat 32 retbuf) r with
    | .trap σ' => .error .trap σ'
    | .values _ σ' => .ok 0 σ'

/-- The host decodes the descriptor and calls the target with the parameters. -/
theorem hostFfiCall_eq {cif : FfiCif} {avalue : List ℕ} (hfits : l.Fits σ₀.memory.length)
    (h : Described cif l avalue σ₀ σ vs) (hcount : vs.length ≤ 88)
    {table : BitVec 32 → Option (Entry ω)} {isCanonicalSlot : BitVec 32 → Bool} {fuel : ℕ}
    {fn : BitVec 32} (f : RawFunc ω ⟨vs.map Value.type, retType cif.rtype⟩)
    (hcall : ∀ a r τ, genTrampoline table ⟨vs.map Value.type, retType cif.rtype⟩
      (isCanonicalSlot fn) fuel a r fn τ = FfiCodegen.ffiCall f a r τ) :
    hostFfiCall table isCanonicalSlot fuel fn l.args l.retbuf l.sig (2 + vs.length) σ =
      hostResult l.retbuf σ (f.run vs σ) := by
  have hargs := hfits.args
  have hsmall := hfits.small
  have hptr : (BitVec.ofNat 32 l.args).toNat = l.args := by
    rw [BitVec.toNat_ofNat, Nat.mod_eq_of_lt (by omega)]
  have hlen : ¬ (2 + vs.length < 2 ∨ 257 < 2 + vs.length) := by omega
  simp only [hostFfiCall, run_bind, run_get, if_neg hlen, h.load hfits hcount, Option.bind_some,
    decode_descriptor cif.rtype hcount]
  rw [hcall, FfiCodegen.ffiCall, hptr, h.lowered.loadArgs]
  dsimp only
  cases f.run vs σ with
  | none => rfl
  | some r =>
    rw [Option.map_some, hostResult]
    cases finish (BitVec.ofNat 32 l.retbuf) r <;> rfl

/-- Where the host's result is put, and from there to the caller's place. -/
theorem deliver_eq (rtype : FfiType) (rvalue : ℕ) {v : Value} (hv : retType rtype = some v.type)
    {τ : Store ω} (hload : load τ.memory l.retbuf v.type.width = some v.bytes) :
    deliver l rtype rvalue τ = storeReturn rvalue [v] τ := by
  have hscalar : isAggregate rtype = false ∧ rtype ≠ .void := by
    constructor
    · by_contra haggregate
      rw [retType, if_pos (by simpa using haggregate)] at hv
      cases hv
    · rintro rfl
      cases hv
  have htype : wasmType rtype = v.type := by
    rw [retType, if_neg (by simp [hscalar.1]), if_neg hscalar.2] at hv
    exact Option.some.inj hv
  have hcode : retcode rtype = code v.type := by
    rw [retcode, if_neg (by simp [hscalar.1]), if_neg hscalar.2, ← code_wasmType, htype]
  have hstore : storeReturn rvalue [v] = (if rvalue ≠ 0 then writeBytes rvalue v.bytes
      else return () : Run ω Unit) := rfl
  rw [hstore]
  unfold deliver
  by_cases hnull : rvalue ≠ 0
  · rw [if_pos ⟨hscalar.1, hscalar.2, hnull⟩, if_pos hnull, hcode]
    have hread := readBytes_eq hload
    cases v with
    | i32 a =>
      have hback : leBytes 4 (leValue (Value.i32 a).bytes) = (Value.i32 a).bytes := by
        have hbytes := leBytes_leValue (Value.i32 a).bytes
        rwa [bytes_length] at hbytes
      have hrun := bind_of_ok hread fun bytes => writeBytes rvalue (leBytes 4 (leValue bytes))
      rw [hback] at hrun
      exact hrun
    | i64 a | f32 a | f64 a => exact bind_of_ok hread _
  · rw [if_neg fun h => hnull h.2.2, if_neg hnull]

theorem deliver_none {rtype : FfiType} (h : retType rtype = none) (rvalue : ℕ) (τ : Store ω) :
    deliver l rtype rvalue τ = .ok () τ := by
  have hnot : ¬ (isAggregate rtype = false ∧ rtype ≠ .void ∧ rvalue ≠ 0) := by
    rintro ⟨haggregate, hvoid, -⟩
    rw [retType, if_neg (by simp [haggregate]), if_neg hvoid] at h
    cases h
  exact congrFun (if_neg hnot) τ

/-- After the lowering, the run-time call is the target's, with the result through the buffer. -/
theorem wasmRuntimeFfiCall_eq {cif : FfiCif} {avalue : List ℕ} {rvalue : ℕ}
    (hfits : l.Fits σ₀.memory.length) (hlower : lower cif l rvalue avalue σ₀ = .ok vs.length σ)
    (h : Described cif l avalue σ₀ σ vs) (hcount : vs.length ≤ 88)
    {table : BitVec 32 → Option (Entry ω)} {isCanonicalSlot : BitVec 32 → Bool} {fuel : ℕ}
    {fn : BitVec 32} (f : RawFunc ω ⟨vs.map Value.type, retType cif.rtype⟩)
    (hcall : ∀ a r τ, genTrampoline table ⟨vs.map Value.type, retType cif.rtype⟩
      (isCanonicalSlot fn) fuel a r fn τ = FfiCodegen.ffiCall f a r τ) :
    wasmRuntimeFfiCall (hostFfiCall table isCanonicalSlot fuel) cif l fn rvalue avalue σ₀ =
      settle (passResult l rvalue) σ (f.run vs σ) := by
  have hretbuf := hfits.retbuf
  have hsmall := hfits.small
  have hptr : (BitVec.ofNat 32 l.retbuf).toNat = l.retbuf := by
    rw [BitVec.toNat_ofNat, Nat.mod_eq_of_lt (by omega)]
  have hhost := hostFfiCall_eq hfits h hcount f hcall
  have hrun : wasmRuntimeFfiCall (hostFfiCall table isCanonicalSlot fuel) cif l fn rvalue avalue
      σ₀ = EStateM.bind (hostFfiCall table isCanonicalSlot fuel fn l.args l.retbuf l.sig
        (2 + vs.length))
        (fun rc => if rc ≠ 0 then throw (.unsupported "runtime trampoline call failed")
          else deliver l cif.rtype rvalue) σ := bind_of_ok hlower _
  rw [hrun, EStateM.bind, hhost]
  cases hf : f.run vs σ with
  | none => rfl
  | some r =>
    cases r with
    | trap σ' => rfl
    | values rs σ' =>
      have htyped := f.typed _ _ _ _ hf
      simp only [hostResult, settle]
      cases hres : retType cif.rtype with
      | none =>
        rw [hres] at htyped
        obtain rfl : rs = [] := List.map_eq_nil_iff.mp htyped
        exact deliver_none hres rvalue σ'
      | some t =>
        rw [hres] at htyped
        obtain ⟨v, rfl, hv⟩ : ∃ v, rs = [v] ∧ v.type = t := by
          simpa [List.map_eq_cons_iff] using htyped
        rw [finish, hptr]
        by_cases hin : l.retbuf + v.bytes.length ≤ σ'.memory.length
        · have hstore : store σ'.memory l.retbuf v.bytes =
              some (splice σ'.memory l.retbuf v.bytes) := if_pos hin
          rw [hstore]
          have hself := load_splice_self hin
          rw [bytes_length] at hself
          have hwrite : (passResult l rvalue [v] : Run ω Unit) σ' =
              storeReturn rvalue [v] (setMemory σ' (splice σ'.memory l.retbuf v.bytes)) :=
            bind_of_ok (writeBytes_eq hin) _
          rw [hwrite]
          exact deliver_eq cif.rtype rvalue (by rw [hres, hv]) hself
        · have hstore : store σ'.memory l.retbuf v.bytes = none := if_neg hin
          have hwrite : (writeBytes l.retbuf v.bytes : Run ω Unit) σ' = .error .trap σ' := by
            simp only [writeBytes, run_bind, run_get, hstore]
            rfl
          rw [hstore]
          dsimp only
          have hpass : (passResult l rvalue [v] : Run ω Unit) σ' = EStateM.bind
            (writeBytes l.retbuf v.bytes) (fun _ => storeReturn rvalue [v]) σ' := rfl
          rw [hpass, EStateM.bind, hwrite]

end Host

section Static
variable {ω : Type} {l : Locals} {σ : Store ω}

theorem argWasm_class {t : FfiType} {c : ℕ} (h : argClass t = some c) :
    isAggregate t = false ∧ isScalar t = true ∧ argWasm c = wasmType t := by
  cases t <;> cases h <;> exact ⟨rfl, rfl, rfl⟩

theorem mapM_argClass_scalar {ts : List FfiType} {vec : List ℕ} (h : ts.mapM argClass = some vec) :
    vec.length = ts.length ∧ ∀ t ∈ ts, isScalar t = true := by
  induction ts generalizing vec with
  | nil =>
    cases h
    exact ⟨rfl, fun _ ht => (nomatch ht)⟩
  | cons t ts ih =>
    rw [List.mapM_cons] at h
    obtain ⟨c, hc, h⟩ := Option.bind_eq_some_iff.mp h
    obtain ⟨cs, hcs, h⟩ := Option.bind_eq_some_iff.mp h
    cases h
    obtain ⟨hlen, hscalar⟩ := ih hcs
    exact ⟨congrArg (· + 1) hlen, List.forall_mem_cons.mpr ⟨(argWasm_class hc).2.1, hscalar⟩⟩

theorem retWasm_class {t : FfiType} {rc : ℕ} (h : retClass t = some rc) :
    isAggregate t = false ∧ retWasm rc = retType t := by
  cases t <;> cases h <;> exact ⟨rfl, rfl⟩

/-- A trampoline's load of an argument gives the value that the lowering gives it. -/
theorem loadClass_eq {t : FfiType} {c p : ℕ} (hc : argClass t = some c) {v : Value}
    (hv : scalarValue σ.memory t p = some v) : loadClass c t p σ = .ok v σ := by
  by_cases hcode : scalarWcode t = wsigI32
  · obtain ⟨b, rfl, hload⟩ := loadI32Arg_eq (argWasm_class hc).2.1 hcode hv
    have hrun : loadClass c t p σ = EStateM.map Value.i32 (loadI32Arg t p) σ := by
      cases t <;> cases hc <;> first | rfl | exact absurd hcode (by decide)
    rw [hrun, EStateM.map, hload]
  · obtain ⟨bytes, hload, rfl⟩ := Option.map_eq_some_iff.mp hv
    cases t with
    | void | longdouble | struct | complex => cases hc
    | int | pointer | uint8 | sint8 | uint16 | sint16 | uint32 | sint32 => exact absurd rfl hcode
    | uint64 | sint64 | float | double =>
      cases hc
      exact map_readBytes _ hload

theorem loadClasses_eq (args : List (ArgType × ℕ)) {vec : List ℕ} {vs : List Value}
    (hvec : (args.map fun a => a.1.type).mapM argClass = some vec)
    (hvs : args.mapM (argValue σ.memory) = some vs) :
    loadClasses vec (args.map fun a => (a.1.type, a.2)) σ = .ok vs σ ∧
      vs.map Value.type = vec.map argWasm := by
  induction args generalizing vec vs with
  | nil =>
    cases hvec
    cases hvs
    exact ⟨rfl, rfl⟩
  | cons a args ih =>
    rw [List.map_cons, List.mapM_cons] at hvec
    rw [List.mapM_cons] at hvs
    obtain ⟨c, hc, hvec⟩ := Option.bind_eq_some_iff.mp hvec
    obtain ⟨cs, hcs, hvec⟩ := Option.bind_eq_some_iff.mp hvec
    obtain ⟨v, hv, hvs⟩ := Option.bind_eq_some_iff.mp hvs
    obtain ⟨ws, hws, hvs⟩ := Option.bind_eq_some_iff.mp hvs
    cases hvec
    cases hvs
    obtain ⟨haggregate, hscalar, hwasm⟩ := argWasm_class hc
    rw [argValue, if_neg (by simp [haggregate]), if_pos hscalar] at hv
    obtain ⟨hload, htypes⟩ := ih hcs hws
    have htype : v.type = argWasm c := by
      obtain ⟨bytes, -, rfl⟩ := Option.map_eq_some_iff.mp hv
      rw [type_toValue, hwasm]
    refine ⟨?_, by rw [List.map_cons, List.map_cons, htype, htypes]⟩
    rw [List.map_cons, loadClasses]
    exact (bind_of_ok (loadClass_eq hc hv) _).trans (bind_of_ok hload _)

/-- A static trampoline calls the target with these values. -/
theorem trampoline_eq {rc : ℕ} {vec : List ℕ} {vs : List Value} {args : List (FfiType × ℕ)}
    (hload : loadClasses vec args σ = .ok vs σ) {table : BitVec 32 → Option (Entry ω)}
    {fn : BitVec 32} (f : RawFunc ω (signatureOf rc vec)) (hslot : table fn = some f.entry)
    (rvalue : ℕ) :
    trampoline table rc vec fn rvalue args σ = settle (storeReturn rvalue) σ (f.run vs σ) := by
  have htarget : (tableFunc table (rawType (signatureOf rc vec)) fn).run vs σ = f.run vs σ := by
    simp only [tableFunc, hslot, RawFunc.entry, if_true]
  refine (bind_of_ok hload _).trans ?_
  rw [htarget]

end Static

section Results
variable {ω : Type}

/-- Of the same result, both paths leave the same bytes at the caller's place, and none without
one. -/
theorem results_agree (l : Locals) (rvalue : ℕ) (v : Value) (τ : Store ω)
    (hretbuf : l.retbuf + 16 ≤ τ.memory.length)
    (hplace : rvalue ≠ 0 → rvalue + v.type.width ≤ τ.memory.length) :
    ∃ τ₁ τ₂, storeReturn rvalue [v] τ = .ok () τ₁ ∧ passResult l rvalue [v] τ = .ok () τ₂ ∧
      (rvalue ≠ 0 → load τ₁.memory rvalue v.type.width = some v.bytes ∧
        load τ₂.memory rvalue v.type.width = some v.bytes) ∧
      (rvalue = 0 → τ₁ = τ ∧ SameOutside l τ τ₂) := by
  have hwidth := width_cases v.type
  have hlen := bytes_length v
  have hin : l.retbuf + v.bytes.length ≤ τ.memory.length := by omega
  have hwrite := writeBytes_eq hin
  have howns := (SameOutside.refl l τ).splice hin fun q hlow hhigh =>
    Or.inr (Or.inr (Or.inr (by omega)))
  set τ' := setMemory τ (splice τ.memory l.retbuf v.bytes) with hτ'
  have hlength : τ'.memory.length = τ.memory.length := splice_length hin
  have hpass : passResult l rvalue [v] τ = storeReturn rvalue [v] τ' := bind_of_ok hwrite _
  have hstore : ∀ τ : Store ω, storeReturn rvalue [v] τ =
      (if rvalue ≠ 0 then writeBytes rvalue v.bytes else return () : Run ω Unit) τ :=
    fun _ => rfl
  rw [hpass, hstore, hstore]
  by_cases hnull : rvalue ≠ 0
  · rw [if_pos hnull]
    have hplace' := hplace hnull
    have hin₁ : rvalue + v.bytes.length ≤ τ.memory.length := by omega
    have hin₂ : rvalue + v.bytes.length ≤ τ'.memory.length := by omega
    have hself₁ := load_splice_self hin₁
    have hself₂ := load_splice_self hin₂
    rw [hlen] at hself₁ hself₂
    exact ⟨_, _, writeBytes_eq hin₁, writeBytes_eq hin₂, fun _ => ⟨hself₁, hself₂⟩,
      fun h => absurd h hnull⟩
  · rw [if_neg hnull]
    exact ⟨τ, τ', rfl, rfl, fun h => absurd h hnull, fun _ => ⟨rfl, howns⟩⟩

theorem zip_types {cif : FfiCif} {avalue : List ℕ} (h : avalue.length = cif.argTypes.length) :
    ((cif.argTypes.zip avalue).map fun a => a.1.type) = cif.argTypes.map ArgType.type := by
  have hfst : ((cif.argTypes.zip avalue).map fun a => a.1.type) =
      ((cif.argTypes.zip avalue).map Prod.fst).map ArgType.type := by
    rw [List.map_map]
    rfl
  rw [hfst, List.map_fst_zip h.ge]

/-- A call that has a trampoline is lowered without an abort. -/
theorem lowerable_of_listed {cif : FfiCif} {avalue : List ℕ} {rc : ℕ} {vec : List ℕ}
    (havalue : avalue.length = cif.argTypes.length)
    (hfixed : cif.nfixedargs = cif.argTypes.length)
    (hsig : Trampolines.signature cif.cif = some (rc, vec))
    (hmem : (rc, vec) ∈ Trampolines.trampolines) :
    Lowerable cif avalue ∧ retClass cif.rtype = some rc ∧
      (cif.argTypes.map ArgType.type).mapM argClass = some vec := by
  obtain ⟨rc', hrc, hsig⟩ := Option.bind_eq_some_iff.mp hsig
  obtain ⟨vec', hvec, hsig⟩ := Option.bind_eq_some_iff.mp hsig
  cases hsig
  obtain ⟨hsame, hscalars⟩ := mapM_argClass_scalar hvec
  have haggregate : isAggregate cif.rtype = false := (retWasm_class hrc).1
  refine ⟨⟨fun a ha => Or.inr ?_, ?_, ?_⟩, hrc, hvec⟩
  · have ha' := List.mem_of_mem_take ha
    refine hscalars _ ?_
    change a.1.type ∈ cif.argTypes.map ArgType.type
    rw [← zip_types havalue]
    exact List.mem_map_of_mem ha'
  · rw [if_neg (by simp [haggregate])]
    have hlen : vec.length ≤ 24 := by
      rw [Trampolines.trampolines_eq] at hmem
      exact (Trampolines.listed_of_mem_argvecs (Trampolines.mem_signatures.mp hmem).2).length_le
    have hcount : cif.cif.argTypes.length = cif.argTypes.length := List.length_map _
    omega
  · have hnone : (cif.argTypes.zip avalue).drop cif.nfixedargs = [] := by
      rw [List.drop_eq_nil_iff, List.length_zip, hfixed]
      exact Nat.min_le_left ..
    rw [hnone]
    exact fun x hx => (nomatch hx)

/-- The run-time call of a scalar call that has a trampoline, and that trampoline: the same values
for the target, and the same use of its result. -/
theorem runtime_eq_static {cif : FfiCif} {l : Locals} {rvalue : ℕ} {avalue : List ℕ} {σ : Store ω}
    (hfits : l.Fits σ.memory.length) (hrvalue : rvalue < 2 ^ 32)
    (hstorage : Storage cif l avalue σ.memory) {rc : ℕ} {vec : List ℕ}
    (hfixed : cif.nfixedargs = cif.argTypes.length)
    (hsig : Trampolines.signature cif.cif = some (rc, vec))
    (hmem : (rc, vec) ∈ Trampolines.trampolines) (f : RawFunc ω (signatureOf rc vec))
    {table : BitVec 32 → Option (Entry ω)} {isCanonicalSlot : BitVec 32 → Bool} (fuel : ℕ)
    {fn : BitVec 32} (hslot : table fn = some f.entry) (hraw : isCanonicalSlot fn = false) :
    ∃ vs σ₁, params cif l rvalue avalue σ.memory = some vs ∧ SameOutside l σ σ₁ ∧
      trampoline table rc vec fn rvalue (cif.cif.argTypes.zip avalue) σ =
        settle (storeReturn rvalue) σ (f.run vs σ) ∧
      wasmRuntimeFfiCall (hostFfiCall table isCanonicalSlot fuel) cif l fn rvalue avalue σ =
        settle (passResult l rvalue) σ₁ (f.run vs σ₁) := by
  obtain ⟨hlowerable, hrc, hvec⟩ := lowerable_of_listed hstorage.1 hfixed hsig hmem
  have hlower := (lower_wp cif avalue hfits hrvalue hstorage).mono (fun _ _ h => h)
    fun e _ herror => herror.2 hlowerable
  obtain ⟨np, σ₁, hrun, vs, hparams, rfl, hcount, hdescribed⟩ := hlower.returned
  obtain ⟨haggregate, hret⟩ := retWasm_class hrc
  have hall : (cif.argTypes.zip avalue).take cif.nfixedargs = cif.argTypes.zip avalue := by
    refine List.take_of_length_le ?_
    rw [List.length_zip, hfixed]
    exact Nat.min_le_left ..
  have hvs : (cif.argTypes.zip avalue).mapM (argValue σ.memory) = some vs := by
    have hparams' := hparams
    rw [params, hall] at hparams'
    obtain ⟨fixed, hfixedVs, hvs⟩ := Option.map_eq_some_iff.mp hparams'
    rw [hfixedVs, ← hvs, retParam, if_neg (by simp [haggregate]), varParam,
      if_neg (not_not.mpr hfixed), List.append_nil, List.nil_append]
  rw [← zip_types hstorage.1] at hvec
  obtain ⟨hload, htypes⟩ := loadClasses_eq (cif.argTypes.zip avalue) hvec hvs
  have hsame : (⟨vs.map Value.type, retType cif.rtype⟩ : FfiSignature) = signatureOf rc vec := by
    rw [signatureOf, htypes, hret]
  have hzip : cif.cif.argTypes.zip avalue =
      (cif.argTypes.zip avalue).map fun a => (a.1.type, a.2) := List.zip_map_left ..
  refine ⟨vs, σ₁, hparams, hdescribed.lowered.same, ?_, ?_⟩
  · rw [hzip]
    exact trampoline_eq hload f hslot rvalue
  · have hlimit : (signatureOf rc vec).params.length ≤ canonicalParams := by
      rw [← hsame, List.length_map]
      exact hcount.trans (by decide)
    have hcall : ∀ a r τ, genTrampoline table (signatureOf rc vec) (isCanonicalSlot fn) fuel a r fn
        τ = FfiCodegen.ffiCall f a r τ := by
      intro a r τ
      rw [hraw]
      exact rawTrampoline_run f hlimit hslot fuel a r τ
    revert f hcall
    rw [← hsame]
    intro f _ hcall
    exact wasmRuntimeFfiCall_eq hfits hrun hdescribed hcount f hcall

/-- Every call is lowered to a descriptor that the host decodes to the types of its parameters, with
each of them in its slot, or it aborts; no buffer is left. A scalar call that has a trampoline
reaches the target with that trampoline's values, and its result leaves the same bytes. -/
theorem runtime_lowering (cif : FfiCif) (l : Locals) (rvalue : ℕ) (avalue : List ℕ) (σ : Store ω)
    (hfits : l.Fits σ.memory.length) (hrvalue : rvalue < 2 ^ 32)
    (hstorage : Storage cif l avalue σ.memory) :
    (∀ (rc : ℕ) (vec : List ℕ), cif.nfixedargs = cif.argTypes.length →
      Trampolines.signature cif.cif = some (rc, vec) → (rc, vec) ∈ Trampolines.trampolines →
      ∀ (f : RawFunc ω (signatureOf rc vec)) (table : BitVec 32 → Option (Entry ω))
        (isCanonicalSlot : BitVec 32 → Bool) (fuel : ℕ) (fn : BitVec 32),
      table fn = some f.entry → isCanonicalSlot fn = false →
      ∃ vs σ₁, params cif l rvalue avalue σ.memory = some vs ∧ SameOutside l σ σ₁ ∧
        trampoline table rc vec fn rvalue (cif.cif.argTypes.zip avalue) σ =
          settle (storeReturn rvalue) σ (f.run vs σ) ∧
        wasmRuntimeFfiCall (hostFfiCall table isCanonicalSlot fuel) cif l fn rvalue avalue σ =
          settle (passResult l rvalue) σ₁ (f.run vs σ₁)) ∧
    (∀ (v : Value) (τ : Store ω), l.retbuf + 16 ≤ τ.memory.length →
      (rvalue ≠ 0 → rvalue + v.type.width ≤ τ.memory.length) →
      ∃ τ₁ τ₂, storeReturn rvalue [v] τ = .ok () τ₁ ∧ passResult l rvalue [v] τ = .ok () τ₂ ∧
        (rvalue ≠ 0 → load τ₁.memory rvalue v.type.width = some v.bytes ∧
          load τ₂.memory rvalue v.type.width = some v.bytes) ∧
        (rvalue = 0 → τ₁ = τ ∧ SameOutside l τ τ₂)) ∧
    Effects.Wp (lower cif l rvalue avalue)
      (fun np σ₁ => ∃ vs, params cif l rvalue avalue σ.memory = some vs ∧ np = vs.length ∧
        SameOutside l σ σ₁ ∧ 2 + np ≤ 257 ∧
        (load σ₁.memory l.sig (2 + np)).bind decode =
          some ⟨vs.map Value.type, retType cif.rtype⟩ ∧
        (∀ i v, vs[i]? = some v →
          load σ₁.memory (l.args + 8 * i) v.type.width = some v.bytes) ∧
        loadArgs σ₁.memory l.args (vs.map Value.type) 0 = some vs)
      (fun e _ => (∃ what, e = .unsupported what) ∧ ¬ Lowerable cif avalue) σ := by
  refine ⟨fun rc vec hfixed hsig hmem f table isCanonicalSlot fuel fn hslot hraw =>
    runtime_eq_static hfits hrvalue hstorage hfixed hsig hmem f fuel hslot hraw,
    fun v τ => results_agree l rvalue v τ, ?_⟩
  refine (lower_wp cif avalue hfits hrvalue hstorage).mono (fun np σ₁ hlowered => ?_)
    fun _ _ herror => herror
  obtain ⟨vs, hparams, rfl, hcount, hdescribed⟩ := hlowered
  refine ⟨vs, hparams, rfl, hdescribed.lowered.same, by omega, ?_, fun i v hv => ?_,
    hdescribed.lowered.loadArgs⟩
  · rw [hdescribed.load hfits hcount, Option.bind_some, decode_descriptor cif.rtype hcount]
  · rw [Nat.mul_comm]
    exact hdescribed.lowered.slots i v hv

end Results

section Runs

def byteType : ArgType := ⟨.sint8, 1, 1, fun _ => rfl, fun _ => ⟨by decide, 0, by decide, rfl⟩⟩

/-- A call with two bytes that returns an int. -/
def bytePair : FfiCif := ⟨.sint32, [byteType, byteType], 2, by decide⟩

def lowLocals : Locals := ⟨0, 96, 800, 1504⟩

def zeroStore (len : ℕ) : Store Unit := ⟨List.replicate len 0, fun _ => .i32 0, fun _ => [], ()⟩

theorem zeroStore_length (len : ℕ) : (zeroStore len).memory.length = len := List.length_replicate

theorem lowLocals_fits {len : ℕ} (hlow : 1520 ≤ len) (hhigh : len ≤ 2 ^ 32) :
    lowLocals.Fits len := by
  have hsig : lowLocals.sig = 0 := rfl
  have hargs : lowLocals.args = 96 := rfl
  have hvarbuf : lowLocals.varbuf = 800 := rfl
  have hretbuf : lowLocals.retbuf = 1504 := rfl
  constructor <;> omega

/-- Behind the buffers. -/
theorem lowLocals_clear {p n : ℕ} (hp : 1520 ≤ p) : Clear lowLocals p n := by
  intro q hlow _ howns
  simp only [Locals.Owns, lowLocals] at howns
  omega

theorem storage_low {cif : FfiCif} {avalue : List ℕ} {len : ℕ}
    (hcount : avalue.length = cif.argTypes.length) (hlen : len ≤ 2 ^ 32)
    (h : ∀ a ∈ cif.argTypes.zip avalue, 1520 ≤ a.2 ∧ a.2 + a.1.size < len) :
    Storage cif lowLocals avalue (zeroStore len).memory := by
  refine ⟨hcount, fun a ha => ?_⟩
  obtain ⟨hlow, hhigh⟩ := h a ha
  exact ⟨by omega, fun _ => ⟨by rw [zeroStore_length]; omega, lowLocals_clear hlow⟩⟩

/-- The first of two numbers. -/
def firstOfTwo : RawFunc Unit (signatureOf 1 [0, 0]) where
  run
    | [.i32 a, .i32 _], store => some (.values [.i32 a] store)
    | _, store => some (.trap store)
  typed := by
    intro args store vs store' h
    split at h
    · cases h
      rfl
    · cases h

theorem runtime_lowering_bytePair :
    ∃ vs σ₁, params bytePair lowLocals 1600 [1520, 1521] (zeroStore 2000).memory = some vs ∧
      SameOutside lowLocals (zeroStore 2000) σ₁ ∧
      trampoline (fun _ => some firstOfTwo.entry) 1 [0, 0] 7 1600 [(.sint8, 1520), (.sint8, 1521)]
        (zeroStore 2000) =
        settle (storeReturn 1600) (zeroStore 2000) (firstOfTwo.run vs (zeroStore 2000)) ∧
      wasmRuntimeFfiCall (hostFfiCall (fun _ => some firstOfTwo.entry) (fun _ => false) 0) bytePair
        lowLocals 7 1600 [1520, 1521] (zeroStore 2000) =
        settle (passResult lowLocals 1600) σ₁ (firstOfTwo.run vs σ₁) :=
  (runtime_lowering bytePair lowLocals 1600 [1520, 1521] (zeroStore 2000)
    (by rw [zeroStore_length]; exact lowLocals_fits (by decide) (by decide)) (by decide)
    (storage_low rfl (by decide) (by decide))).1 1 [0, 0] rfl rfl
    (by
      rw [Trampolines.trampolines_eq]
      exact Trampolines.mem_signatures.mpr
        ⟨by decide, @Trampolines.replicate_mem_argvecs 2 (by decide)⟩)
    firstOfTwo (fun _ => some firstOfTwo.entry) (fun _ => false) 0 7 rfl rfl

end Runs

end NixWasm.RawFfi
