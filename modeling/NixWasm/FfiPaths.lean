import NixWasm.FfiCodegen

/-!
The raw and the canonical way of calling a function. The generated bytes are read back as
instructions, the conversions to i64 and back keep every bit pattern, and both ways run the same
call: the arguments of the buffer, the function, the result in its place.
-/
namespace NixWasm.FfiCodegen

open Bytes Bytes.Reader Wasm ByteStore

section Code

def widenCode : ValType → List Instr
  | .i32 => [.num .i64ExtendI32U]
  | .i64 => []
  | .f32 => [.num .i32ReinterpretF32, .num .i64ExtendI32U]
  | .f64 => [.num .i64ReinterpretF64]

def narrowCode : ValType → List Instr
  | .i32 => [.num .i32WrapI64]
  | .i64 => []
  | .f32 => [.num .i32WrapI64, .num .f32ReinterpretI32]
  | .f64 => [.num .f64ReinterpretI64]

def retPtrCode (sig : FfiSignature) : List Instr :=
  if sig.result.isSome then [.localGet 1] else []

def loadCode (p : ValType × ℕ) : List Instr :=
  [.localGet 0, .load p.1 (p.2 * 8 % 2 ^ 32)]

def targetCode : List Instr := [.localGet 2, .callIndirect 1]

def rawCode (sig : FfiSignature) : List Instr :=
  retPtrCode sig ++ sig.params.zipIdx.flatMap loadCode ++ targetCode ++
    match sig.result with
    | some t => [.store t 0]
    | none => []

def zeroCode : Instr := .const (.i64 0)

def canonicalCode (sig : FfiSignature) : List Instr :=
  retPtrCode sig ++ sig.params.zipIdx.flatMap (fun p => loadCode p ++ widenCode p.1) ++
    List.replicate (canonicalParams - sig.params.length) zeroCode ++ targetCode ++
    match sig.result with
    | some t => narrowCode t ++ [.store t 0]
    | none => [.drop]

def thunkCode (sig : FfiSignature) : List Instr :=
  sig.params.zipIdx.flatMap (fun p => .localGet (p.2 % 2 ^ 32) :: narrowCode p.1) ++ [.call 0] ++
    match sig.result with
    | some t => widenCode t
    | none => [zeroCode]

theorem emits_get (n : ℕ) : Emits (0x20 :: uleb n) [.localGet (n % 2 ^ 32)] := by
  have h := emits_localGet (Leb.ofNat (n % 2 ^ 32))
  rwa [Leb.value_ofNat] at h

theorem emits_plain {op : UInt8} {i : Instr} (hop : op ≠ 0x0b)
    (h : ∀ rest, instr (op :: rest) = some (i, rest)) : Emits [op] [i] :=
  emits_of_reads hop fun rest => h rest

theorem emits_toABI (t : ValType) : Emits (toABI t) (widenCode t) := by
  cases t with
  | i32 => exact emits_plain (by decide) fun rest => rfl
  | i64 => exact emits_nil
  | f32 =>
    exact (@emits_plain 0xbc _ (by decide) fun rest => rfl).append
      (@emits_plain 0xad _ (by decide) fun rest => rfl)
  | f64 => exact emits_plain (by decide) fun rest => rfl

theorem emits_fromABI (t : ValType) : Emits (fromABI t) (narrowCode t) := by
  cases t with
  | i32 => exact emits_plain (by decide) fun rest => rfl
  | i64 => exact emits_nil
  | f32 =>
    exact (@emits_plain 0xa7 _ (by decide) fun rest => rfl).append
      (@emits_plain 0xbe _ (by decide) fun rest => rfl)
  | f64 => exact emits_plain (by decide) fun rest => rfl

/-- A memory access: opcode, alignment 0 and offset. -/
theorem emits_access {op : UInt8} {access : ℕ → Instr} (hop : op ≠ 0x0b)
    (h : ∀ rest, instr (op :: rest) = memoryAccess access rest) (n : ℕ) :
    Emits ([op, 0x00] ++ uleb n) [access (n % 2 ^ 32)] := by
  refine emits_of_reads hop fun rest => ?_
  have hread := reads_memoryAccess access (Leb.ofNat 0) (Leb.ofNat (n % 2 ^ 32)) rest
  rw [Leb.value_ofNat] at hread
  exact (h _).trans hread

theorem emits_load (t : ValType) (n : ℕ) :
    Emits ([loadOp t, 0x00] ++ uleb n) [.load t (n % 2 ^ 32)] := by
  cases t with
  | i32 => exact emits_access (by decide) (fun rest => rfl) n
  | i64 => exact emits_access (by decide) (fun rest => rfl) n
  | f32 => exact emits_access (by decide) (fun rest => rfl) n
  | f64 => exact emits_access (by decide) (fun rest => rfl) n

theorem emits_storeResult (t : ValType) : Emits (storeResult t) [.store t 0] := by
  cases t with
  | i32 => exact emits_access (by decide) (fun rest => rfl) 0
  | i64 => exact emits_access (by decide) (fun rest => rfl) 0
  | f32 => exact emits_access (by decide) (fun rest => rfl) 0
  | f64 => exact emits_access (by decide) (fun rest => rfl) 0

theorem emits_pushRetPtr (sig : FfiSignature) : Emits (pushRetPtr sig) (retPtrCode sig) := by
  unfold pushRetPtr retPtrCode
  split
  · exact emits_get 1
  · exact emits_nil

theorem emits_loadArg (p : ValType × ℕ) : Emits (loadArg p.1 p.2) (loadCode p) :=
  (emits_get 0).append (emits_load p.1 (p.2 * 8))

theorem emits_callTarget : Emits callTarget targetCode :=
  (emits_get 2).append (emits_callIndirect (Leb.ofNat 1) (Leb.ofNat 0))

theorem emits_zero : Emits (0x42 :: sleb 0) [zeroCode] := emits_constZero

theorem emits_zeros (n : ℕ) :
    Emits (List.replicate n (0x42 :: sleb 0)).flatten (List.replicate n zeroCode) := by
  induction n with
  | zero => exact emits_nil
  | succ n ih =>
    rw [List.replicate_succ, List.replicate_succ, List.flatten_cons]
    exact emits_zero.append ih

theorem functionCode_raw (sig : FfiSignature) :
    functionCode (code (genRawBody sig)) = some (rawCode sig) := by
  refine functionCode_of_emits (((emits_pushRetPtr sig).append
    (emits_flatMap emits_loadArg sig.params.zipIdx)).append emits_callTarget |>.append ?_)
  cases sig.result with
  | some t => exact emits_storeResult t
  | none => exact emits_nil

theorem functionCode_canonical (sig : FfiSignature) :
    functionCode (code (genCanonicalBody sig)) = some (canonicalCode sig) := by
  have hargs : ∀ p : ValType × ℕ, Emits (loadArg p.1 p.2 ++ toABI p.1)
    (loadCode p ++ widenCode p.1) := fun p => (emits_loadArg p).append (emits_toABI p.1)
  refine functionCode_of_emits ((((emits_pushRetPtr sig).append
    (emits_flatMap hargs sig.params.zipIdx)).append (emits_zeros _)).append
    emits_callTarget |>.append ?_)
  cases sig.result with
  | some t => exact (emits_fromABI t).append (emits_storeResult t)
  | none => exact emits_plain (by decide) fun rest => rfl

theorem functionCode_thunk (sig : FfiSignature) :
    functionCode (code (genThunkBody sig)) = some (thunkCode sig) := by
  have hargs : ∀ p : ValType × ℕ, Emits (0x20 :: uleb p.2 ++ fromABI p.1)
      (.localGet (p.2 % 2 ^ 32) :: narrowCode p.1) :=
    fun p => (emits_get p.2).append (emits_fromABI p.1)
  refine functionCode_of_emits (((emits_flatMap hargs sig.params.zipIdx).append
    (emits_call (Leb.ofNat 0))).append ?_)
  cases sig.result with
  | some t => exact emits_toABI t
  | none => exact emits_zero

end Code

section Values

/-- A value as the canonical ABI passes it. -/
def widen : Value → BitVec 64
  | .i32 a | .f32 a => a.setWidth 64
  | .i64 a | .f64 a => a

def narrow : ValType → BitVec 64 → Value
  | .i32, b => .i32 (b.setWidth 32)
  | .i64, b => .i64 b
  | .f32, b => .f32 (b.setWidth 32)
  | .f64, b => .f64 b

theorem setWidth_setWidth (a : BitVec 32) : (a.setWidth 64).setWidth 32 = a := by
  rw [BitVec.setWidth_setWidth_of_le a (by decide), BitVec.setWidth_eq]

/-- No bit is lost on the way. -/
theorem narrow_widen (v : Value) : narrow v.type (widen v) = v := by
  cases v with
  | i32 a => exact congrArg Value.i32 (setWidth_setWidth a)
  | i64 a => rfl
  | f32 a => exact congrArg Value.f32 (setWidth_setWidth a)
  | f64 a => rfl

theorem type_ofBytes (t : ValType) (bytes : List UInt8) : (t.ofBytes bytes).type = t := by
  cases t <;> rfl

variable {ω : Type} {env : Env ω} {fuel : ℕ} {rest : List Instr} {st ls : List Value} {σ : Store ω}

theorem exec_widen (v : Value) :
    exec env fuel (widenCode v.type ++ rest) ⟨v :: st, ls, σ⟩ =
      exec env fuel rest ⟨.i64 (widen v) :: st, ls, σ⟩ := by
  cases v <;> rfl

theorem exec_narrow (t : ValType) (b : BitVec 64) :
    exec env fuel (narrowCode t ++ rest) ⟨.i64 b :: st, ls, σ⟩ =
      exec env fuel rest ⟨narrow t b :: st, ls, σ⟩ := by
  cases t <;> rfl

end Values

section Arguments
variable {ω : Type} {env : Env ω} {fuel : ℕ} {rest : List Instr} {st ls : List Value} {σ : Store ω}

/-- The arguments in the buffer, from slot `i` on. -/
def loadArgs (memory : List UInt8) (argPtr : ℕ) : List ValType → ℕ → Option (List Value)
  | [], _ => some []
  | t :: ts, i =>
    (load memory (argPtr + i * 8) t.width).bind fun bytes =>
      (loadArgs memory argPtr ts (i + 1)).map (t.ofBytes bytes :: ·)

theorem loadArgs_types {memory : List UInt8} {argPtr : ℕ} {ts : List ValType} {i : ℕ}
    {vs : List Value} (h : loadArgs memory argPtr ts i = some vs) : vs.map Value.type = ts := by
  induction ts generalizing i vs with
  | nil =>
    cases h
    rfl
  | cons t ts ih =>
    obtain ⟨bytes, -, h⟩ := Option.bind_eq_some_iff.mp h
    obtain ⟨vs', hvs', rfl⟩ := Option.map_eq_some_iff.mp h
    rw [List.map_cons, type_ofBytes, ih hvs']

theorem exec_load (t : ValType) (i : ℕ) {argPtr : BitVec 32} (hptr : ls[0]? = some (.i32 argPtr))
    (hi : i * 8 < 2 ^ 32) :
    exec env fuel (loadCode (t, i) ++ rest) ⟨st, ls, σ⟩ =
      match load σ.memory (argPtr.toNat + i * 8) t.width with
      | some bytes => exec env fuel rest ⟨t.ofBytes bytes :: st, ls, σ⟩
      | none => some (.trap σ) := by
  simp only [loadCode, List.cons_append, List.nil_append, exec, step, hptr, Option.map_some,
    Nat.mod_eq_of_lt hi]
  cases load σ.memory (argPtr.toNat + i * 8) t.width <;> rfl

/-- The loads with a conversion `conv` after each. -/
theorem exec_loads {conv : ValType → List Instr} {f : Value → Value}
    (hconv : ∀ v rest st, exec env fuel (conv v.type ++ rest) ⟨v :: st, ls, σ⟩ =
      exec env fuel rest ⟨f v :: st, ls, σ⟩)
    {argPtr : BitVec 32} (hptr : ls[0]? = some (.i32 argPtr)) (ts : List ValType) (i : ℕ)
    (hi : (i + ts.length) * 8 < 2 ^ 32) :
    exec env fuel ((ts.zipIdx i).flatMap (fun p => loadCode p ++ conv p.1) ++ rest) ⟨st, ls, σ⟩ =
      match loadArgs σ.memory argPtr.toNat ts i with
      | some vs => exec env fuel rest ⟨(vs.map f).reverse ++ st, ls, σ⟩
      | none => some (.trap σ) := by
  induction ts generalizing i st with
  | nil => rfl
  | cons t ts ih =>
    rw [List.length_cons] at hi
    rw [List.zipIdx_cons, List.flatMap_cons, List.append_assoc, List.append_assoc,
      exec_load t i hptr (by omega), loadArgs]
    cases hload : load σ.memory (argPtr.toNat + i * 8) t.width with
    | none => rfl
    | some bytes =>
      have hthis := hconv (t.ofBytes bytes)
      rw [type_ofBytes] at hthis
      simp only [Option.bind_some]
      rw [hthis, ih _ (by omega)]
      cases loadArgs σ.memory argPtr.toNat ts (i + 1) with
      | none => rfl
      | some vs => simp

end Arguments

section Calls
variable {ω : Type} {env : Env ω} {fuel : ℕ} {rest : List Instr} {st ls : List Value} {σ : Store ω}

/-- What stands below the arguments: the place of the result, if there is one. -/
def retBase (sig : FfiSignature) (retPtr : BitVec 32) : List Value :=
  if sig.result.isSome then [.i32 retPtr] else []

theorem exec_retPtr (sig : FfiSignature) {retPtr : BitVec 32} (hptr : ls[1]? = some (.i32 retPtr)) :
    exec env fuel (retPtrCode sig ++ rest) ⟨[], ls, σ⟩ =
      exec env fuel rest ⟨retBase sig retPtr, ls, σ⟩ := by
  unfold retPtrCode retBase
  by_cases hsome : sig.result.isSome
  · simp only [hsome, if_true, List.cons_append, List.nil_append, exec, step, hptr, Option.map_some]
  · rw [if_neg hsome, if_neg hsome]
    rfl

/-- After a call the code goes on with the results, or has trapped. -/
def resume (env : Env ω) (fuel : ℕ) (rest : List Instr) (ls : List Value) (base : List Value) :
    Return ω → Option (Outcome ω)
  | .values vs store => exec env fuel rest ⟨vs.reverse ++ base, ls, store⟩
  | .trap store => some (.trap store)

theorem invoke_args {f : Func ω} {args : List Value} (hargs : args.length = f.params) :
    invoke f ⟨args.reverse ++ st, ls, σ⟩ =
      (f.run args σ).map (returned ⟨args.reverse ++ st, ls, σ⟩ st) := by
  have hlen : args.reverse.length = f.params := by rw [List.length_reverse, hargs]
  have henough : ¬ (args.reverse ++ st).length < f.params := by
    rw [List.length_append, hlen]
    omega
  simp only [invoke]
  rw [if_neg henough, List.take_left' hlen, List.drop_left' hlen, List.reverse_reverse]

theorem exec_invoke {i : Instr} {f : Func ω} {args : List Value}
    (hargs : args.length = f.params) {s : Frame ω}
    (hstep : step env fuel i s = invoke f ⟨args.reverse ++ st, ls, σ⟩) :
    exec env fuel (i :: rest) s = (f.run args σ).bind (resume env fuel rest ls st) := by
  rw [exec, hstep, invoke_args hargs]
  cases f.run args σ with
  | none => rfl
  | some r => cases r <;> rfl

theorem exec_target {slot : BitVec 32} {args : List Value} (hslot : ls[2]? = some (.i32 slot))
    (hargs : args.length = (env.table 1 slot).params) :
    exec env fuel (targetCode ++ rest) ⟨args.reverse ++ st, ls, σ⟩ =
      ((env.table 1 slot).run args σ).bind (resume env fuel rest ls st) := by
  have hget : exec env fuel (targetCode ++ rest) ⟨args.reverse ++ st, ls, σ⟩ =
      exec env fuel (.callIndirect 1 :: rest) ⟨.i32 slot :: (args.reverse ++ st), ls, σ⟩ := by
    simp only [targetCode, List.cons_append, List.nil_append]
    rw [exec, step, hslot]
    rfl
  rw [hget]
  exact exec_invoke hargs rfl

theorem exec_zeros (n : ℕ) :
    exec env fuel (List.replicate n zeroCode ++ rest) ⟨st, ls, σ⟩ =
      exec env fuel rest ⟨List.replicate n (.i64 0) ++ st, ls, σ⟩ := by
  induction n generalizing st with
  | zero => rfl
  | succ n ih =>
    have hfirst : exec env fuel (List.replicate (n + 1) zeroCode ++ rest) ⟨st, ls, σ⟩ =
        exec env fuel (List.replicate n zeroCode ++ rest) ⟨.i64 0 :: st, ls, σ⟩ := rfl
    have hlist : List.replicate (n + 1) (Value.i64 0) ++ st =
        List.replicate n (.i64 0) ++ (.i64 0 :: st) := by
      rw [List.replicate_succ', List.append_assoc, List.singleton_append]
    rw [hfirst, ih, hlist]

/-- The thunk finds the arguments it converts in its parameters. -/
theorem exec_thunkArgs (vs : List Value) (i : ℕ)
    (hls : ∀ k v, vs[k]? = some v → ls[i + k]? = some (.i64 (widen v)))
    (hi : i + vs.length ≤ 2 ^ 32) :
    exec env fuel (((vs.map Value.type).zipIdx i).flatMap
        (fun p => .localGet (p.2 % 2 ^ 32) :: narrowCode p.1) ++ rest) ⟨st, ls, σ⟩ =
      exec env fuel rest ⟨vs.reverse ++ st, ls, σ⟩ := by
  induction vs generalizing i st with
  | nil => rfl
  | cons v vs ih =>
    rw [List.length_cons] at hi
    have hget := hls 0 v rfl
    rw [Nat.add_zero] at hget
    have hfirst : ∀ rest', exec env fuel (.localGet (i % 2 ^ 32) :: (narrowCode v.type ++ rest'))
        ⟨st, ls, σ⟩ = exec env fuel rest' ⟨v :: st, ls, σ⟩ := by
      intro rest'
      rw [exec, step, Nat.mod_eq_of_lt (by omega), hget]
      exact (exec_narrow v.type (widen v)).trans (by rw [narrow_widen])
    rw [List.map_cons, List.zipIdx_cons, List.flatMap_cons, List.cons_append, List.cons_append,
      List.append_assoc, hfirst, ih (i + 1) _ (by omega), List.reverse_cons, List.append_assoc,
      List.singleton_append]
    intro k w hw
    have hnext := hls (k + 1) w hw
    rwa [Nat.add_comm k 1, ← Nat.add_assoc] at hnext

end Calls

section Paths
variable {ω : Type} {sig : FfiSignature}

/-- The result's bytes go to their place. -/
def finish (retPtr : BitVec 32) : Return ω → Return ω
  | .trap store => .trap store
  | .values [] store => .values [] store
  | .values (v :: _) store =>
    match ByteStore.store store.memory retPtr.toNat v.bytes with
    | some memory => .values [] { store with memory }
    | none => .trap store

/-- A call of the function with the arguments in the buffer. -/
def ffiCall (f : RawFunc ω sig) (argPtr retPtr : BitVec 32) (store : Store ω) :
    Option (Return ω) :=
  match loadArgs store.memory argPtr.toNat sig.params 0 with
  | none => some (.trap store)
  | some args => (f.run args store).map (finish retPtr)

/-- The code after a call leaves the frame empty, with the result stored. -/
theorem resume_store {env : Env ω} {fuel : ℕ} {ls : List Value} {t : ValType} {v : Value}
    (ht : v.type = t) (retPtr : BitVec 32) (σ : Store ω) :
    exec env fuel [.store t 0] ⟨[v, .i32 retPtr], ls, σ⟩ =
      some (match ByteStore.store σ.memory retPtr.toNat v.bytes with
        | some memory => .next ⟨[], ls, { σ with memory }⟩
        | none => .trap σ) := by
  simp only [exec, step, if_pos ht, Nat.add_zero, storeBytes]
  cases ByteStore.store σ.memory retPtr.toNat v.bytes <;> rfl

/-- Code that loads the arguments, calls with what they become, and ends with `tail`. -/
theorem exec_path {env : Env ω} {fuel : ℕ} {argPtr retPtr slot : BitVec 32} {σ : Store ω}
    (conv : ValType → List Instr) (f : Value → Value) (pad : ℕ) (tail : List Instr)
    (hconv : ∀ v rest st ls, exec env fuel (conv v.type ++ rest) ⟨v :: st, ls, σ⟩ =
      exec env fuel rest ⟨f v :: st, ls, σ⟩)
    (hlimit : sig.params.length ≤ canonicalParams)
    (hparams : sig.params.length + pad = (env.table 1 slot).params) :
    exec env fuel (retPtrCode sig ++ sig.params.zipIdx.flatMap (fun p => loadCode p ++ conv p.1) ++
        List.replicate pad zeroCode ++ targetCode ++ tail)
        ⟨[], [.i32 argPtr, .i32 retPtr, .i32 slot], σ⟩ =
      match loadArgs σ.memory argPtr.toNat sig.params 0 with
      | none => some (.trap σ)
      | some args =>
        ((env.table 1 slot).run (args.map f ++ List.replicate pad (.i64 0)) σ).bind
          (resume env fuel tail [.i32 argPtr, .i32 retPtr, .i32 slot] (retBase sig retPtr)) := by
  have hle : sig.params.length ≤ 128 := hlimit
  rw [List.append_assoc, List.append_assoc, List.append_assoc, exec_retPtr sig rfl,
    exec_loads (fun v rest st => hconv v rest st _) rfl sig.params 0 (by omega)]
  cases hargs : loadArgs σ.memory argPtr.toNat sig.params 0 with
  | none => rfl
  | some args =>
    have hlen : args.length = sig.params.length := by
      rw [← loadArgs_types hargs, List.length_map]
    have hstack : List.replicate pad (Value.i64 0) ++ ((args.map f).reverse ++ retBase sig retPtr) =
        (args.map f ++ List.replicate pad (Value.i64 0)).reverse ++ retBase sig retPtr := by
      rw [List.reverse_append, List.reverse_replicate, List.append_assoc]
    dsimp only
    rw [exec_zeros, hstack, exec_target rfl]
    rw [List.length_append, List.length_map, List.length_replicate, hlen, hparams]

theorem rawTrampoline_run (f : RawFunc ω sig) (hlimit : sig.params.length ≤ canonicalParams)
    {table : BitVec 32 → Option (Entry ω)} {slot : BitVec 32} (hslot : table slot = some f.entry)
    (fuel : ℕ) (argPtr retPtr : BitVec 32) (σ : Store ω) :
    genTrampoline table sig false fuel argPtr retPtr slot σ = ffiCall f argPtr retPtr σ := by
  have htarget : (trampolineEnv table sig false).table 1 slot = ⟨sig.params.length, f.run⟩ := by
    simp only [trampolineEnv_target, tableFunc, hslot, targetType, RawFunc.entry,
      Bool.false_eq_true, if_false, if_true]
    rfl
  have hpath := @exec_path ω sig (trampolineEnv table sig false) fuel argPtr retPtr slot σ
    (fun _ => []) id 0 (match sig.result with
      | some t => [.store t 0]
      | none => []) (fun _ _ _ _ => rfl) hlimit (by rw [htarget]; rfl)
  simp only [List.append_nil, List.replicate_zero, htarget, List.map_id] at hpath
  have hcode : exec (trampolineEnv table sig false) fuel (rawCode sig)
      ⟨[], [.i32 argPtr, .i32 retPtr, .i32 slot], σ⟩ = _ := hpath
  have hrun : genTrampoline table sig false fuel argPtr retPtr slot σ =
      (Func.ofBody (trampolineEnv table sig false) fuel 3 0 [] (rawCode sig)).run
        [.i32 argPtr, .i32 retPtr, .i32 slot] σ := by
    simp only [genTrampoline, Bool.false_eq_true, if_false, functionCode_raw, Option.bind_some]
  rw [hrun, Func.ofBody]
  dsimp only
  rw [List.append_nil, hcode, ffiCall]
  cases loadArgs σ.memory argPtr.toNat sig.params 0 with
  | none => rfl
  | some args =>
    dsimp only
    cases hf : f.run args σ with
    | none => rfl
    | some r =>
      cases r with
      | trap store => rfl
      | values vs store =>
        have htyped := f.typed _ _ _ _ hf
        simp only [Option.bind_some, resume, Option.map_some, finish, retBase]
        cases hres : sig.result with
        | none =>
          rw [hres] at htyped
          obtain rfl : vs = [] := List.map_eq_nil_iff.mp htyped
          rfl
        | some t =>
          rw [hres] at htyped
          obtain ⟨v, rfl, hv⟩ : ∃ v, vs = [v] ∧ v.type = t := by
            simpa [List.map_eq_cons_iff] using htyped
          simp only [Option.isSome_some, if_true, List.reverse_singleton, List.singleton_append]
          rw [resume_store hv]
          cases ByteStore.store store.memory retPtr.toNat v.bytes <;> rfl

/-- What the canonical thunk returns for what its function returned. -/
def widened : Return ω → Return ω
  | .trap store => .trap store
  | .values [] store => .values [.i64 0] store
  | .values (v :: _) store => .values [.i64 (widen v)] store

/-- The thunk calls its function with the arguments it was passed in canonical form. -/
theorem genCanonicalThunk_run (f : RawFunc ω sig) (hlimit : sig.params.length ≤ canonicalParams)
    (fuel : ℕ) {args : List Value} (htypes : args.map Value.type = sig.params) (more : List Value)
    (σ : Store ω) :
    (genCanonicalThunk f fuel).run (args.map (fun v => .i64 (widen v)) ++ more) σ =
      (f.run args σ).map widened := by
  have hle : sig.params.length ≤ 128 := hlimit
  have hlen : args.length = sig.params.length := by rw [← htypes, List.length_map]
  have hcode : exec (thunkEnv f) fuel (thunkCode sig)
      ⟨[], args.map (fun v => .i64 (widen v)) ++ more, σ⟩ =
      (f.run args σ).bind (resume (thunkEnv f) fuel (match sig.result with
        | some t => widenCode t
        | none => [zeroCode]) (args.map (fun v => .i64 (widen v)) ++ more) []) := by
    rw [thunkCode, List.append_assoc, ← htypes, exec_thunkArgs args 0 _ (by omega)]
    · exact @exec_invoke ω (thunkEnv f) fuel _ [] _ σ (.call 0) ⟨sig.params.length, f.run⟩ args hlen
        ⟨args.reverse ++ [], _, σ⟩ rfl
    · intro k v hv
      have hk := (List.getElem?_eq_some_iff.mp hv).1
      rw [Nat.zero_add, List.getElem?_append_left (by rwa [List.length_map]), List.getElem?_map, hv]
      rfl
  simp only [genCanonicalThunk, functionCode_thunk, Option.bind_some, Func.ofBody, List.append_nil]
  rw [hcode]
  cases hf : f.run args σ with
  | none => rfl
  | some r =>
    cases r with
    | trap store => rfl
    | values vs store =>
      have htyped := f.typed _ _ _ _ hf
      simp only [Option.bind_some, resume, Option.map_some]
      cases hres : sig.result with
      | none =>
        rw [hres] at htyped
        obtain rfl : vs = [] := List.map_eq_nil_iff.mp htyped
        rfl
      | some t =>
        rw [hres] at htyped
        obtain ⟨v, rfl, rfl⟩ : ∃ v, vs = [v] ∧ v.type = t := by
          simpa [List.map_eq_cons_iff] using htyped
        have hwiden := @exec_widen ω (thunkEnv f) fuel [] []
          (args.map (fun v => .i64 (widen v)) ++ more) store v
        rw [List.append_nil] at hwiden
        simp only [List.reverse_singleton, List.append_nil, hwiden]
        rfl

theorem canonicalTrampoline_run (f : RawFunc ω sig)
    (hlimit : sig.params.length ≤ canonicalParams)
    {table : BitVec 32 → Option (Entry ω)} {slot : BitVec 32} (fuel fuel' : ℕ)
    (hslot : table slot = some (genCanonicalThunk f fuel')) (argPtr retPtr : BitVec 32)
    (σ : Store ω) :
    genTrampoline table sig true fuel argPtr retPtr slot σ = ffiCall f argPtr retPtr σ := by
  have htarget : (trampolineEnv table sig true).table 1 slot =
      ⟨canonicalParams, (genCanonicalThunk f fuel').run⟩ := by
    have hparams : canonicalType.params.length = canonicalParams := List.length_replicate
    simp only [trampolineEnv_target, tableFunc, hslot, targetType, genCanonicalThunk, if_true,
      hparams]
  have hpath := @exec_path ω sig (trampolineEnv table sig true) fuel argPtr retPtr slot σ
    widenCode (fun v => .i64 (widen v)) (canonicalParams - sig.params.length)
    (match sig.result with
      | some t => narrowCode t ++ [.store t 0]
      | none => [.drop]) (fun _ _ _ _ => exec_widen _) hlimit (by
        rw [htarget]
        exact Nat.add_sub_cancel' hlimit)
  have hcode : exec (trampolineEnv table sig true) fuel (canonicalCode sig)
      ⟨[], [.i32 argPtr, .i32 retPtr, .i32 slot], σ⟩ = _ := hpath
  have hrun : genTrampoline table sig true fuel argPtr retPtr slot σ =
      (Func.ofBody (trampolineEnv table sig true) fuel 3 0 [] (canonicalCode sig)).run
        [.i32 argPtr, .i32 retPtr, .i32 slot] σ := by
    simp only [genTrampoline, if_true, functionCode_canonical, Option.bind_some]
  rw [hrun, Func.ofBody]
  dsimp only
  rw [List.append_nil, hcode, ffiCall]
  cases hargs : loadArgs σ.memory argPtr.toNat sig.params 0 with
  | none => rfl
  | some args =>
    dsimp only
    rw [htarget]
    dsimp only
    rw [genCanonicalThunk_run f hlimit fuel' (loadArgs_types hargs)]
    cases hf : f.run args σ with
    | none => rfl
    | some r =>
      cases r with
      | trap store => rfl
      | values vs store =>
        have htyped := f.typed _ _ _ _ hf
        simp only [Option.map_some, finish, retBase]
        cases hres : sig.result with
        | none =>
          rw [hres] at htyped
          obtain rfl : vs = [] := List.map_eq_nil_iff.mp htyped
          rfl
        | some t =>
          rw [hres] at htyped
          obtain ⟨v, rfl, hv⟩ : ∃ v, vs = [v] ∧ v.type = t := by
            simpa [List.map_eq_cons_iff] using htyped
          simp only [widened, Option.bind_some, resume, Option.isSome_some, if_true,
            List.reverse_singleton, List.singleton_append]
          rw [exec_narrow, ← hv, narrow_widen, resume_store rfl]
          cases ByteStore.store store.memory retPtr.toNat v.bytes <;> rfl

/-- Calling a function through the raw trampoline, and its canonical thunk through the canonical
one, is the same call of the function. -/
theorem canonical_path_eq_raw_path (f : RawFunc ω sig)
    (hlimit : sig.params.length ≤ canonicalParams) (table : BitVec 32 → Option (Entry ω))
    (rawSlot thunkSlot : BitVec 32) (fuel : ℕ) (hraw : table rawSlot = some f.entry)
    (hthunk : table thunkSlot = some (genCanonicalThunk f fuel)) (argPtr retPtr : BitVec 32)
    (σ : Store ω) :
    genTrampoline table sig false fuel argPtr retPtr rawSlot σ = ffiCall f argPtr retPtr σ ∧
    genTrampoline table sig true fuel argPtr retPtr thunkSlot σ = ffiCall f argPtr retPtr σ :=
  ⟨rawTrampoline_run f hlimit hraw fuel argPtr retPtr σ,
    canonicalTrampoline_run f hlimit fuel fuel hthunk argPtr retPtr σ⟩

end Paths

section Runs

/-- A float goes through both paths with the bits of a NaN kept. -/
def negate : RawFunc Unit ⟨[.f32, .i64], some .f32⟩ where
  run
    | [.f32 a, .i64 _], store => some (.values [.f32 (a ^^^ 0x80000000#32)] store)
    | _, store => some (.trap store)
  typed := by
    intro args store vs store' h
    split at h
    · cases h
      rfl
    · cases h

def negateTable (slot : BitVec 32) : Option (Entry Unit) :=
  if slot = 1 then some negate.entry else some (genCanonicalThunk negate 0)

def negateStore : Store Unit :=
  ⟨[1, 0, 0xa0, 0x7f, 0, 0, 0, 0, 5, 0, 0, 0, 0, 0, 0, 0, 9, 9, 9, 9], fun _ => .i32 0,
  fun _ => [], ()⟩

theorem negate_paths :
    genTrampoline negateTable ⟨[.f32, .i64], some .f32⟩ false 0 0 16 1 negateStore =
      genTrampoline negateTable ⟨[.f32, .i64], some .f32⟩ true 0 0 16 2 negateStore :=
  have h := canonical_path_eq_raw_path negate (by decide) negateTable 1 2 0 rfl rfl 0 16 negateStore
  h.1.trans h.2.symm

end Runs

end NixWasm.FfiCodegen
