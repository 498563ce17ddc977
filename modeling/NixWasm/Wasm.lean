import NixWasm.ByteStore
import Mathlib.Data.List.GetD

/-!
WebAssembly code as the generators of this runtime emit it: a part of the instruction set with
structured control, and its execution. Floats are their bit patterns. The stack of a frame has
its top first. Function calls, table entries and atomic operations are those of an environment.
Only loops use the fuel, so that code without one runs the same with any.
-/
namespace NixWasm.Wasm

open Bytes ByteStore

inductive ValType
  | i32 | i64 | f32 | f64
deriving DecidableEq

inductive Value
  | i32 (bits : BitVec 32)
  | i64 (bits : BitVec 64)
  | f32 (bits : BitVec 32)
  | f64 (bits : BitVec 64)
deriving DecidableEq

inductive NumOp
  | i32Eqz | i32Eq | i32Ne | i32LtU | i32LeU | i32GeU
  | i32Add | i32Sub | i32And | i32Or | i32Shl | i32ShrU
  | i32WrapI64 | i64ExtendI32U
  | i32ReinterpretF32 | f32ReinterpretI32 | i64ReinterpretF64 | f64ReinterpretI64
  | i32Extend16S | i64Extend16S | i64Extend32S
  | i64Or | i64Shl | i64ShrU
deriving DecidableEq

/-- Loads, with the type they make and the width they read. -/
inductive LoadOp
  | i32Load | i64Load | f32Load | f64Load
  | i32Load8S | i32Load8U | i32Load16S | i32Load16U
  | i64Load8S | i64Load8U | i64Load16S | i64Load16U | i64Load32S | i64Load32U
deriving DecidableEq

inductive StoreOp
  | i32Store | i64Store | f32Store | f64Store
  | i32Store8 | i32Store16 | i64Store8 | i64Store16 | i64Store32
deriving DecidableEq

inductive Instr
  | const (v : Value)
  | localGet (i : ℕ)
  | localSet (i : ℕ)
  | localTee (i : ℕ)
  | globalGet (i : ℕ)
  | num (op : NumOp)
  | load (t : ValType) (offset : ℕ)
  | store (t : ValType) (offset : ℕ)
  | loadAs (op : LoadOp) (align offset : ℕ)
  | storeAs (op : StoreOp) (align offset : ℕ)
  | atomic (sub align offset : ℕ)
  | memoryCopy
  | memoryFill
  | memoryInit (seg : ℕ)
  | drop
  | select
  | call (f : ℕ)
  | callIndirect (type : ℕ)
  | block (result : Option ValType) (body : List Instr)
  | loop (body : List Instr)
  | ite (result : Option ValType) (thenBody elseBody : List Instr)
  | br (depth : ℕ)
  | brIf (depth : ℕ)
  | ret
  | unreachable

/-- What outlives a function: the memory, the globals, the passive data, the embedder's state. -/
structure Store (ω : Type) where
  memory : List UInt8
  globals : ℕ → Value
  datas : ℕ → List UInt8
  host : ω

structure Frame (ω : Type) where
  stack : List Value
  locals : List Value
  store : Store ω

/-- How a piece of code ends. -/
inductive Outcome (ω : Type)
  | next (s : Frame ω)
  | br (depth : ℕ) (s : Frame ω)
  | ret (s : Frame ω)
  | trap (store : Store ω)

/-- How a call ends. -/
inductive Return (ω : Type)
  | values (vs : List Value) (store : Store ω)
  | trap (store : Store ω)

/-- Something to call, with its number of parameters. -/
structure Func (ω : Type) where
  params : ℕ
  run : List Value → Store ω → Option (Return ω)

structure Env (ω : Type) where
  funcs : ℕ → Func ω
  /-- The entries of the table, as functions of a declared type. -/
  table : ℕ → BitVec 32 → Func ω
  /-- How many operands an atomic operation has above its address. -/
  atomicOps : ℕ → ℕ
  /-- An atomic operation with its alignment, on its operands at an effective address. -/
  atomic : ℕ → ℕ → ℕ → List Value → Store ω → Option (Return ω)

def boolBits (p : Prop) [Decidable p] : Value := .i32 (if p then 1 else 0)

/-- Numeric instructions on the stack. -/
def NumOp.eval : NumOp → List Value → Option (List Value)
  | .i32Eqz, .i32 a :: rest => some (boolBits (a = 0) :: rest)
  | .i32Eq, .i32 b :: .i32 a :: rest => some (boolBits (a = b) :: rest)
  | .i32Ne, .i32 b :: .i32 a :: rest => some (boolBits (a ≠ b) :: rest)
  | .i32LtU, .i32 b :: .i32 a :: rest => some (boolBits (a.toNat < b.toNat) :: rest)
  | .i32LeU, .i32 b :: .i32 a :: rest => some (boolBits (a.toNat ≤ b.toNat) :: rest)
  | .i32GeU, .i32 b :: .i32 a :: rest => some (boolBits (b.toNat ≤ a.toNat) :: rest)
  | .i32Add, .i32 b :: .i32 a :: rest => some (.i32 (a + b) :: rest)
  | .i32Sub, .i32 b :: .i32 a :: rest => some (.i32 (a - b) :: rest)
  | .i32And, .i32 b :: .i32 a :: rest => some (.i32 (a &&& b) :: rest)
  | .i32Or, .i32 b :: .i32 a :: rest => some (.i32 (a ||| b) :: rest)
  | .i32Shl, .i32 b :: .i32 a :: rest => some (.i32 (a <<< (b.toNat % 32)) :: rest)
  | .i32ShrU, .i32 b :: .i32 a :: rest => some (.i32 (a >>> (b.toNat % 32)) :: rest)
  | .i32WrapI64, .i64 a :: rest => some (.i32 (a.setWidth 32) :: rest)
  | .i64ExtendI32U, .i32 a :: rest => some (.i64 (a.setWidth 64) :: rest)
  | .i32ReinterpretF32, .f32 a :: rest => some (.i32 a :: rest)
  | .f32ReinterpretI32, .i32 a :: rest => some (.f32 a :: rest)
  | .i64ReinterpretF64, .f64 a :: rest => some (.i64 a :: rest)
  | .f64ReinterpretI64, .i64 a :: rest => some (.f64 a :: rest)
  | .i32Extend16S, .i32 a :: rest => some (.i32 ((a.setWidth 16).signExtend 32) :: rest)
  | .i64Extend16S, .i64 a :: rest => some (.i64 ((a.setWidth 16).signExtend 64) :: rest)
  | .i64Extend32S, .i64 a :: rest => some (.i64 ((a.setWidth 32).signExtend 64) :: rest)
  | .i64Or, .i64 b :: .i64 a :: rest => some (.i64 (a ||| b) :: rest)
  | .i64Shl, .i64 b :: .i64 a :: rest => some (.i64 (a <<< (b.toNat % 64)) :: rest)
  | .i64ShrU, .i64 b :: .i64 a :: rest => some (.i64 (a >>> (b.toNat % 64)) :: rest)
  | _, _ => none

def ValType.width : ValType → ℕ
  | .i32 | .f32 => 4
  | .i64 | .f64 => 8

def ValType.ofBytes : ValType → List UInt8 → Value
  | .i32, bytes => .i32 (BitVec.ofNat 32 (leValue bytes))
  | .i64, bytes => .i64 (BitVec.ofNat 64 (leValue bytes))
  | .f32, bytes => .f32 (BitVec.ofNat 32 (leValue bytes))
  | .f64, bytes => .f64 (BitVec.ofNat 64 (leValue bytes))

def Value.type : Value → ValType
  | .i32 _ => .i32
  | .i64 _ => .i64
  | .f32 _ => .f32
  | .f64 _ => .f64

def Value.bits : Value → ℕ
  | .i32 a | .f32 a => a.toNat
  | .i64 a | .f64 a => a.toNat

def Value.bytes (v : Value) : List UInt8 := leBytes v.type.width v.bits

namespace LoadOp

def type : LoadOp → ValType
  | i32Load | i32Load8S | i32Load8U | i32Load16S | i32Load16U => .i32
  | i64Load | i64Load8S | i64Load8U | i64Load16S | i64Load16U | i64Load32S | i64Load32U => .i64
  | f32Load => .f32
  | f64Load => .f64

def width : LoadOp → ℕ
  | i32Load8S | i32Load8U | i64Load8S | i64Load8U => 1
  | i32Load16S | i32Load16U | i64Load16S | i64Load16U => 2
  | i32Load | f32Load | i64Load32S | i64Load32U => 4
  | i64Load | f64Load => 8

def signed : LoadOp → Bool
  | i32Load8S | i32Load16S | i64Load8S | i64Load16S | i64Load32S => true
  | _ => false

/-- The bytes as a number of `n` bits. -/
def extend (op : LoadOp) (n : ℕ) (bytes : List UInt8) : BitVec n :=
  let v := BitVec.ofNat (8 * op.width) (leValue bytes)
  if op.signed then v.signExtend n else v.setWidth n

def ofBytes (op : LoadOp) (bytes : List UInt8) : Value :=
  match op.type with
  | .i32 => .i32 (op.extend 32 bytes)
  | .i64 => .i64 (op.extend 64 bytes)
  | .f32 => .f32 (op.extend 32 bytes)
  | .f64 => .f64 (op.extend 64 bytes)

end LoadOp

namespace StoreOp

def type : StoreOp → ValType
  | i32Store | i32Store8 | i32Store16 => .i32
  | i64Store | i64Store8 | i64Store16 | i64Store32 => .i64
  | f32Store => .f32
  | f64Store => .f64

def width : StoreOp → ℕ
  | i32Store8 | i64Store8 => 1
  | i32Store16 | i64Store16 => 2
  | i32Store | f32Store | i64Store32 => 4
  | i64Store | f64Store => 8

/-- The low bytes of the value. -/
def bytes (op : StoreOp) (v : Value) : List UInt8 := leBytes op.width v.bits

end StoreOp

variable {ω : Type}

/-- The values a branch carries stand on the stack the block was entered with. -/
def Outcome.leave (arity : ℕ) (base : List Value) : Outcome ω → Outcome ω
  | .br 0 s => .next { s with stack := s.stack.take arity ++ base }
  | .br (depth + 1) s => .br depth s
  | o => o

def resultArity : Option ValType → ℕ
  | none => 0
  | some _ => 1

/-- The frame goes on with what was returned on top of `rest`. -/
def returned (s : Frame ω) (rest : List Value) : Return ω → Outcome ω
  | .values vs store => .next { s with stack := vs.reverse ++ rest, store }
  | .trap store => .trap store

/-- Call with the arguments on the stack. -/
def invoke (f : Func ω) (s : Frame ω) : Option (Outcome ω) :=
  if s.stack.length < f.params then none
  else
    (f.run (s.stack.take f.params).reverse s.store).map (returned s (s.stack.drop f.params))

/-- The rounds of a loop: a branch to it starts the next. -/
def iterate (body : Frame ω → Option (Outcome ω)) (base : List Value) :
    ℕ → Frame ω → Option (Outcome ω)
  | 0, _ => none
  | n + 1, s =>
    match body s with
    | some (.br 0 s') => iterate body base n { s' with stack := base }
    | some (.br (depth + 1) s') => some (.br depth s')
    | o => o

def storeBytes (s : Frame ω) (rest : List Value) (addr : ℕ) (bytes : List UInt8) : Outcome ω :=
  match ByteStore.store s.store.memory addr bytes with
  | some memory => .next { s with stack := rest, store := { s.store with memory } }
  | none => .trap s.store

mutual

def exec (env : Env ω) (fuel : ℕ) : List Instr → Frame ω → Option (Outcome ω)
  | [], s => some (.next s)
  | i :: rest, s =>
    match step env fuel i s with
    | some (.next s') => exec env fuel rest s'
    | o => o

/-- One instruction; nothing when the stack does not have what it takes, or fuel runs out. -/
def step (env : Env ω) (fuel : ℕ) : Instr → Frame ω → Option (Outcome ω)
  | .const v, s => some (.next { s with stack := v :: s.stack })
  | .localGet i, s => s.locals[i]?.map fun v => .next { s with stack := v :: s.stack }
  | .localSet i, s =>
    match s.stack with
    | v :: rest => some (.next { s with stack := rest, locals := s.locals.set i v })
    | [] => none
  | .localTee i, s =>
    match s.stack with
    | v :: rest => some (.next { s with stack := v :: rest, locals := s.locals.set i v })
    | [] => none
  | .globalGet i, s => some (.next { s with stack := s.store.globals i :: s.stack })
  | .num op, s => (op.eval s.stack).map fun stack => .next { s with stack }
  | .load t offset, s =>
    match s.stack with
    | .i32 a :: rest =>
      match ByteStore.load s.store.memory (a.toNat + offset) t.width with
      | some bytes => some (.next { s with stack := t.ofBytes bytes :: rest })
      | none => some (.trap s.store)
    | _ => none
  | .store t offset, s =>
    match s.stack with
    | v :: .i32 a :: rest =>
      if v.type = t then some (storeBytes s rest (a.toNat + offset) v.bytes) else none
    | _ => none
  | .loadAs op _ offset, s =>
    match s.stack with
    | .i32 a :: rest =>
      match ByteStore.load s.store.memory (a.toNat + offset) op.width with
      | some bytes => some (.next { s with stack := op.ofBytes bytes :: rest })
      | none => some (.trap s.store)
    | _ => none
  | .storeAs op _ offset, s =>
    match s.stack with
    | v :: .i32 a :: rest =>
      if v.type = op.type then some (storeBytes s rest (a.toNat + offset) (op.bytes v)) else none
    | _ => none
  | .atomic sub align offset, s =>
    let operands := s.stack.take (env.atomicOps sub)
    match s.stack.drop (env.atomicOps sub) with
    | .i32 a :: rest =>
      (env.atomic sub align (a.toNat + offset) operands.reverse s.store).map (returned s rest)
    | _ => none
  | .memoryCopy, s =>
    match s.stack with
    | .i32 n :: .i32 src :: .i32 dst :: rest =>
      match ByteStore.load s.store.memory src.toNat n.toNat with
      | some bytes => some (storeBytes s rest dst.toNat bytes)
      | none => some (.trap s.store)
    | _ => none
  | .memoryFill, s =>
    match s.stack with
    | .i32 n :: .i32 v :: .i32 dst :: rest =>
      some (storeBytes s rest dst.toNat (List.replicate n.toNat (UInt8.ofNat v.toNat)))
    | _ => none
  | .memoryInit seg, s =>
    match s.stack with
    | .i32 n :: .i32 src :: .i32 dst :: rest =>
      match ByteStore.load (s.store.datas seg) src.toNat n.toNat with
      | some bytes => some (storeBytes s rest dst.toNat bytes)
      | none => some (.trap s.store)
    | _ => none
  | .drop, s =>
    match s.stack with
    | _ :: rest => some (.next { s with stack := rest })
    | [] => none
  | .select, s =>
    match s.stack with
    | .i32 c :: b :: a :: rest =>
      some (.next { s with stack := (if c = 0 then b else a) :: rest })
    | _ => none
  | .call f, s => invoke (env.funcs f) s
  | .callIndirect type, s =>
    match s.stack with
    | .i32 i :: rest => invoke (env.table type i) { s with stack := rest }
    | _ => none
  | .block result body, s =>
    (exec env fuel body s).map (Outcome.leave (resultArity result) s.stack)
  | .loop body, s => iterate (exec env fuel body) s.stack fuel s
  | .ite result thenBody elseBody, s =>
    match s.stack with
    | .i32 c :: rest =>
      if c = 0 then
        (exec env fuel elseBody { s with stack := rest }).map
          (Outcome.leave (resultArity result) rest)
      else
        (exec env fuel thenBody { s with stack := rest }).map
          (Outcome.leave (resultArity result) rest)
    | _ => none
  | .br depth, s => some (.br depth s)
  | .brIf depth, s =>
    match s.stack with
    | .i32 c :: rest =>
      if c = 0 then some (.next { s with stack := rest })
      else some (.br depth { s with stack := rest })
    | _ => none
  | .ret, s => some (.ret s)
  | .unreachable, s => some (.trap s.store)

end

/-- A function of this module: its locals start at zero after the arguments. -/
def Func.ofBody (env : Env ω) (fuel params results : ℕ) (locals : List Value) (body : List Instr) :
    Func ω where
  params := params
  run args store :=
    match exec env fuel body ⟨[], args ++ locals, store⟩ with
    | some (.next s) => some (.values s.stack.reverse s.store)
    | some (.ret s) => some (.values (s.stack.take results).reverse s.store)
    | some (.br 0 s) => some (.values (s.stack.take results).reverse s.store)
    | some (.trap store) => some (.trap store)
    | _ => none

section Fuel
variable {env : Env ω} {fuel fuel' : ℕ}

theorem iterate_mono {body body' : Frame ω → Option (Outcome ω)} {base : List Value}
    (hbody : ∀ s o, body s = some o → body' s = some o) {n n' : ℕ} (hn : n ≤ n') {s : Frame ω}
    {o : Outcome ω} (h : iterate body base n s = some o) : iterate body' base n' s = some o := by
  induction n generalizing n' s with
  | zero => cases h
  | succ n ih =>
    obtain ⟨m, rfl⟩ : ∃ m, n' = m + 1 := ⟨n' - 1, by omega⟩
    unfold iterate at h ⊢
    cases hs : body s with
    | none => simp [hs] at h
    | some o' =>
      rw [hbody s o' hs]
      rw [hs] at h
      cases o' with
      | br depth s' =>
        cases depth with
        | zero => exact ih (by omega) h
        | succ depth => exact h
      | _ => exact h

mutual

/-- More fuel does not change how code ends. -/
theorem exec_mono (hle : fuel ≤ fuel') : (p : List Instr) → (s : Frame ω) → (o : Outcome ω) →
    exec env fuel p s = some o → exec env fuel' p s = some o
  | [], s, o, h => h
  | i :: rest, s, o, h => by
    simp only [exec] at h ⊢
    cases hi : step env fuel i s with
    | none => simp [hi] at h
    | some o' =>
      rw [step_mono hle i s o' hi]
      rw [hi] at h
      cases o' with
      | next s' => exact exec_mono hle rest s' o h
      | _ => exact h

theorem step_mono (hle : fuel ≤ fuel') : (i : Instr) → (s : Frame ω) → (o : Outcome ω) →
    step env fuel i s = some o → step env fuel' i s = some o
  | .block result body, s, o, h => by
    simp only [step, Option.map_eq_some_iff] at h ⊢
    obtain ⟨o', ho', rfl⟩ := h
    exact ⟨o', exec_mono hle body s o' ho', rfl⟩
  | .loop body, s, o, h => by
    simp only [step] at h ⊢
    exact iterate_mono (fun s o => exec_mono hle body s o) hle h
  | .ite result thenBody elseBody, s, o, h => by
    simp only [step] at h ⊢
    split at h
    · next c rest hstack =>
      by_cases hc : c = 0
      · simp only [hc, if_true, Option.map_eq_some_iff] at h ⊢
        obtain ⟨o', ho', rfl⟩ := h
        exact ⟨o', exec_mono hle elseBody _ o' ho', rfl⟩
      · simp only [hc, if_false, Option.map_eq_some_iff] at h ⊢
        obtain ⟨o', ho', rfl⟩ := h
        exact ⟨o', exec_mono hle thenBody _ o' ho', rfl⟩
    · cases h
  | .const v, s, o, h => h
  | .localGet i, s, o, h => h
  | .localSet i, s, o, h => h
  | .localTee i, s, o, h => h
  | .globalGet i, s, o, h => h
  | .num op, s, o, h => h
  | .load t offset, s, o, h => h
  | .store t offset, s, o, h => h
  | .loadAs op align offset, s, o, h => h
  | .storeAs op align offset, s, o, h => h
  | .atomic sub align offset, s, o, h => h
  | .memoryCopy, s, o, h => h
  | .memoryFill, s, o, h => h
  | .memoryInit seg, s, o, h => h
  | .drop, s, o, h => h
  | .select, s, o, h => h
  | .call f, s, o, h => h
  | .callIndirect type, s, o, h => h
  | .br depth, s, o, h => h
  | .brIf depth, s, o, h => h
  | .ret, s, o, h => h
  | .unreachable, s, o, h => h

end

end Fuel

section Rules
variable {env : Env ω} {Q : Outcome ω → Prop} {s : Frame ω}

/-- The code ends, in `Q`. -/
def Wp (env : Env ω) (p : List Instr) (Q : Outcome ω → Prop) (s : Frame ω) : Prop :=
  ∃ fuel o, exec env fuel p s = some o ∧ Q o

def WpStep (env : Env ω) (i : Instr) (Q : Outcome ω → Prop) (s : Frame ω) : Prop :=
  ∃ fuel o, step env fuel i s = some o ∧ Q o

/-- What comes after an instruction that goes on. -/
def andThen (after : Frame ω → Prop) (Q : Outcome ω → Prop) : Outcome ω → Prop
  | .next s => after s
  | o => Q o

theorem Wp.mono {p : List Instr} {P : Outcome ω → Prop} (h : Wp env p P s)
    (hPQ : ∀ o, P o → Q o) : Wp env p Q s := by
  obtain ⟨fuel, o, ho, hP⟩ := h
  exact ⟨fuel, o, ho, hPQ o hP⟩

theorem wp_nil : Wp env [] Q s ↔ Q (.next s) := by
  constructor
  · rintro ⟨fuel, o, ho, hQ⟩
    cases ho
    exact hQ
  · intro hQ
    exact ⟨0, _, rfl, hQ⟩

theorem wp_cons {i : Instr} {rest : List Instr} :
    Wp env (i :: rest) Q s ↔ WpStep env i (andThen (Wp env rest Q) Q) s := by
  constructor
  · rintro ⟨fuel, o, ho, hQ⟩
    simp only [exec] at ho
    cases hi : step env fuel i s with
    | none => simp [hi] at ho
    | some o' =>
      rw [hi] at ho
      refine ⟨fuel, o', hi, ?_⟩
      cases o' with
      | next s' => exact ⟨fuel, o, ho, hQ⟩
      | _ => cases ho; exact hQ
  · rintro ⟨fuel, o, ho, hQ⟩
    cases o with
    | next s' =>
      obtain ⟨fuel', o', ho', hQ'⟩ := hQ
      refine ⟨max fuel fuel', o', ?_, hQ'⟩
      have hi := step_mono (Nat.le_max_left fuel fuel') i s _ ho
      have hrest := exec_mono (Nat.le_max_right fuel fuel') rest s' _ ho'
      simp only [exec, hi, hrest]
    | _ =>
      refine ⟨fuel, _, ?_, hQ⟩
      simp only [exec, ho]

theorem wp_append {p q : List Instr} :
    Wp env (p ++ q) Q s ↔ Wp env p (andThen (Wp env q Q) Q) s := by
  induction p generalizing s with
  | nil => rw [List.nil_append, wp_nil]; rfl
  | cons i rest ih =>
    rw [List.cons_append, wp_cons, wp_cons]
    have hafter : andThen (Wp env (rest ++ q) Q) Q =
        andThen (Wp env rest (andThen (Wp env q Q) Q)) (andThen (Wp env q Q) Q) := by
      funext o
      cases o with
      | next s' => exact propext ih
      | _ => rfl
    rw [hafter]

/-- An instruction that does not use the fuel. -/
theorem wpStep_of_eq {i : Instr} {r : Option (Outcome ω)} (h : ∀ fuel, step env fuel i s = r) :
    WpStep env i Q s ↔ ∃ o, r = some o ∧ Q o := by
  constructor
  · rintro ⟨fuel, o, ho, hQ⟩
    exact ⟨o, (h fuel) ▸ ho, hQ⟩
  · rintro ⟨o, ho, hQ⟩
    exact ⟨0, o, (h 0).trans ho, hQ⟩

theorem wpStep_block {result : Option ValType} {body : List Instr} :
    WpStep env (.block result body) Q s ↔
      Wp env body (fun o => Q (o.leave (resultArity result) s.stack)) s := by
  simp only [WpStep, Wp, step, Option.map_eq_some_iff]
  constructor
  · rintro ⟨fuel, o, ⟨o', ho', rfl⟩, hQ⟩
    exact ⟨fuel, o', ho', hQ⟩
  · rintro ⟨fuel, o', ho', hQ⟩
    exact ⟨fuel, _, ⟨o', ho', rfl⟩, hQ⟩

/-- One arm of a conditional, as its condition says. -/
theorem wpStep_ite {result : Option ValType} {thenBody elseBody : List Instr} {c : BitVec 32}
    {rest : List Value} (hstack : s.stack = .i32 c :: rest) :
    WpStep env (.ite result thenBody elseBody) Q s ↔
      Wp env (if c = 0 then elseBody else thenBody)
        (fun o => Q (o.leave (resultArity result) rest)) { s with stack := rest } := by
  simp only [WpStep, Wp, step, hstack]
  by_cases hc : c = 0
  · simp only [hc, if_true, Option.map_eq_some_iff]
    constructor
    · rintro ⟨fuel, o, ⟨o', ho', rfl⟩, hQ⟩
      exact ⟨fuel, o', ho', hQ⟩
    · rintro ⟨fuel, o', ho', hQ⟩
      exact ⟨fuel, _, ⟨o', ho', rfl⟩, hQ⟩
  · simp only [hc, if_false, Option.map_eq_some_iff]
    constructor
    · rintro ⟨fuel, o, ⟨o', ho', rfl⟩, hQ⟩
      exact ⟨fuel, o', ho', hQ⟩
    · rintro ⟨fuel, o', ho', hQ⟩
      exact ⟨fuel, _, ⟨o', ho', rfl⟩, hQ⟩

/-- A round of a loop: the next one starts, or the loop is left. -/
def round (I : Frame ω → Prop) (base : List Value) (Q : Outcome ω → Prop) : Outcome ω → Prop
  | .br 0 s => I { s with stack := base }
  | .br (depth + 1) s => Q (.br depth s)
  | o => Q o

/-- Loop rule: every round keeps the invariant with less to do, or leaves the loop in `Q`. -/
theorem wpStep_loop {body : List Instr} (I : ℕ → Frame ω → Prop)
    (hround : ∀ n s', I n s' → Wp env body (round (fun t => ∃ m, m < n ∧ I m t) s.stack Q) s')
    {n : ℕ} (hI : I n s) : WpStep env (.loop body) Q s := by
  have hrounds : ∀ n s', I n s' → ∃ fuel o,
      iterate (exec env fuel body) s.stack fuel s' = some o ∧ Q o := by
    intro n
    induction n using Nat.strong_induction_on with
    | _ n ih =>
      intro s' hI'
      obtain ⟨fuel, o, ho, hQ⟩ := hround n s' hI'
      cases o with
      | br depth t =>
        cases depth with
        | zero =>
          obtain ⟨m, hm, hIm⟩ := hQ
          obtain ⟨fuel', o', ho', hQ'⟩ := ih m hm _ hIm
          refine ⟨max fuel fuel' + 1, o', ?_, hQ'⟩
          have hfirst := exec_mono (Nat.le_succ_of_le (Nat.le_max_left fuel fuel')) body s' _ ho
          have hrest := iterate_mono
            (fun s o (h : exec env fuel' body s = some o) =>
              exec_mono (Nat.le_succ_of_le (Nat.le_max_right fuel fuel')) body s o h)
            (Nat.le_max_right fuel fuel') ho'
          simp only [iterate, hfirst]
          exact hrest
        | succ depth =>
          refine ⟨fuel + 1, _, ?_, hQ⟩
          simp only [iterate, exec_mono (Nat.le_succ fuel) body s' _ ho]
      | _ =>
        refine ⟨fuel + 1, _, ?_, hQ⟩
        simp only [iterate, exec_mono (Nat.le_succ fuel) body s' _ ho]
  exact hrounds n s hI

end Rules

section Straight
variable {env : Env ω} {Q : Outcome ω → Prop} {rest : List Instr} {st ls : List Value}
  {σ : Store ω}

theorem wp_of_eq {i : Instr} {s : Frame ω} {r : Option (Outcome ω)}
    (h : ∀ fuel, step env fuel i s = r) :
    Wp env (i :: rest) Q s ↔ ∃ o, r = some o ∧ andThen (Wp env rest Q) Q o := by
  rw [wp_cons, wpStep_of_eq h]

@[simp] theorem wp_const (v : Value) :
    Wp env (.const v :: rest) Q ⟨st, ls, σ⟩ ↔ Wp env rest Q ⟨v :: st, ls, σ⟩ := by
  rw [wp_of_eq fun _ => rfl]
  simp [andThen]

@[simp] theorem wp_localGet (i : ℕ) :
    Wp env (.localGet i :: rest) Q ⟨st, ls, σ⟩ ↔
      ∃ v, ls[i]? = some v ∧ Wp env rest Q ⟨v :: st, ls, σ⟩ := by
  rw [wp_of_eq (r := ls[i]?.map fun v => .next ⟨v :: st, ls, σ⟩) fun _ => rfl]
  cases ls[i]? <;> simp [andThen]

@[simp] theorem wp_localSet (i : ℕ) (v : Value) :
    Wp env (.localSet i :: rest) Q ⟨v :: st, ls, σ⟩ ↔ Wp env rest Q ⟨st, ls.set i v, σ⟩ := by
  rw [wp_of_eq fun _ => rfl]
  simp [andThen]

@[simp] theorem wp_localTee (i : ℕ) (v : Value) :
    Wp env (.localTee i :: rest) Q ⟨v :: st, ls, σ⟩ ↔ Wp env rest Q ⟨v :: st, ls.set i v, σ⟩ := by
  rw [wp_of_eq fun _ => rfl]
  simp [andThen]

@[simp] theorem wp_globalGet (i : ℕ) :
    Wp env (.globalGet i :: rest) Q ⟨st, ls, σ⟩ ↔ Wp env rest Q ⟨σ.globals i :: st, ls, σ⟩ := by
  rw [wp_of_eq fun _ => rfl]
  simp [andThen]

@[simp] theorem wp_num (op : NumOp) :
    Wp env (.num op :: rest) Q ⟨st, ls, σ⟩ ↔
      ∃ st', op.eval st = some st' ∧ Wp env rest Q ⟨st', ls, σ⟩ := by
  rw [wp_of_eq (r := (op.eval st).map fun st' => .next ⟨st', ls, σ⟩) fun _ => rfl]
  cases op.eval st <;> simp [andThen]

theorem wp_load (t : ValType) (offset : ℕ) (a : BitVec 32) :
    Wp env (.load t offset :: rest) Q ⟨.i32 a :: st, ls, σ⟩ ↔
      match ByteStore.load σ.memory (a.toNat + offset) t.width with
      | some bytes => Wp env rest Q ⟨t.ofBytes bytes :: st, ls, σ⟩
      | none => Q (.trap σ) := by
  rw [wp_of_eq fun _ => rfl]
  cases ByteStore.load σ.memory (a.toNat + offset) t.width <;> simp [andThen]

@[simp] theorem wp_drop (v : Value) :
    Wp env (.drop :: rest) Q ⟨v :: st, ls, σ⟩ ↔ Wp env rest Q ⟨st, ls, σ⟩ := by
  rw [wp_of_eq fun _ => rfl]
  simp [andThen]

@[simp] theorem wp_select (c : BitVec 32) (a b : Value) :
    Wp env (.select :: rest) Q ⟨.i32 c :: b :: a :: st, ls, σ⟩ ↔
      Wp env rest Q ⟨(if c = 0 then b else a) :: st, ls, σ⟩ := by
  rw [wp_of_eq fun _ => rfl]
  simp [andThen]

@[simp] theorem wp_br (depth : ℕ) :
    Wp env (.br depth :: rest) Q ⟨st, ls, σ⟩ ↔ Q (.br depth ⟨st, ls, σ⟩) := by
  rw [wp_of_eq fun _ => rfl]
  simp [andThen]

@[simp] theorem wp_brIf (depth : ℕ) (c : BitVec 32) :
    Wp env (.brIf depth :: rest) Q ⟨.i32 c :: st, ls, σ⟩ ↔
      if c = 0 then Wp env rest Q ⟨st, ls, σ⟩ else Q (.br depth ⟨st, ls, σ⟩) := by
  rw [wp_of_eq (r := if c = 0 then some (.next ⟨st, ls, σ⟩) else some (.br depth ⟨st, ls, σ⟩))
    fun _ => rfl]
  by_cases hc : c = 0
  · rw [if_pos hc, if_pos hc]
    simp [andThen]
  · rw [if_neg hc, if_neg hc]
    simp [andThen]

@[simp] theorem wp_ret : Wp env (.ret :: rest) Q ⟨st, ls, σ⟩ ↔ Q (.ret ⟨st, ls, σ⟩) := by
  rw [wp_of_eq fun _ => rfl]
  simp [andThen]

theorem wp_block (result : Option ValType) (body : List Instr) :
    Wp env (.block result body :: rest) Q ⟨st, ls, σ⟩ ↔
      Wp env body (fun o => andThen (Wp env rest Q) Q (o.leave (resultArity result) st))
        ⟨st, ls, σ⟩ := by
  rw [wp_cons, wpStep_block]

theorem wp_ite (result : Option ValType) (thenBody elseBody : List Instr) (c : BitVec 32) :
    Wp env (.ite result thenBody elseBody :: rest) Q ⟨.i32 c :: st, ls, σ⟩ ↔
      Wp env (if c = 0 then elseBody else thenBody)
        (fun o => andThen (Wp env rest Q) Q (o.leave (resultArity result) st)) ⟨st, ls, σ⟩ := by
  rw [wp_cons, wpStep_ite (s := ⟨.i32 c :: st, ls, σ⟩) rfl]

/-- A condition that was just computed. -/
theorem wp_iteBool (result : Option ValType) (thenBody elseBody : List Instr) (p : Prop)
    [Decidable p] :
    Wp env (.ite result thenBody elseBody :: rest) Q ⟨boolBits p :: st, ls, σ⟩ ↔
      Wp env (if p then thenBody else elseBody)
        (fun o => andThen (Wp env rest Q) Q (o.leave (resultArity result) st)) ⟨st, ls, σ⟩ := by
  rw [boolBits, wp_ite]
  by_cases hp : p <;> simp [hp]

theorem wp_brIfBool (depth : ℕ) (p : Prop) [Decidable p] :
    Wp env (.brIf depth :: rest) Q ⟨boolBits p :: st, ls, σ⟩ ↔
      if p then Q (.br depth ⟨st, ls, σ⟩) else Wp env rest Q ⟨st, ls, σ⟩ := by
  rw [boolBits, wp_brIf]
  by_cases hp : p <;> simp [hp]

/-- A loop that is left in its first round. -/
theorem wp_loop_once {body : List Instr}
    (h : Wp env body (round (fun _ => False) st (andThen (Wp env rest Q) Q)) ⟨st, ls, σ⟩) :
    Wp env (.loop body :: rest) Q ⟨st, ls, σ⟩ := by
  rw [wp_cons]
  refine wpStep_loop (fun _ s => s = ⟨st, ls, σ⟩) ?_ (n := 0) rfl
  rintro n s' rfl
  refine h.mono fun o ho => ?_
  cases o with
  | br depth t =>
    cases depth with
    | zero => exact ho.elim
    | succ depth => exact ho
  | _ => exact ho

/-- A call whose arguments are on the stack, the last one on top. -/
theorem wp_call (f : ℕ) {args : List Value} (hargs : args.length = (env.funcs f).params) :
    Wp env (.call f :: rest) Q ⟨args.reverse ++ st, ls, σ⟩ ↔
      ∃ r, (env.funcs f).run args σ = some r ∧
        andThen (Wp env rest Q) Q (returned ⟨args.reverse ++ st, ls, σ⟩ st r) := by
  have hlen : args.reverse.length = (env.funcs f).params := by rw [List.length_reverse, hargs]
  have hstep : ∀ fuel, step env fuel (.call f) ⟨args.reverse ++ st, ls, σ⟩ =
      ((env.funcs f).run args σ).map (returned ⟨args.reverse ++ st, ls, σ⟩ st) := by
    intro fuel
    have henough : ¬ (args.reverse ++ st).length < (env.funcs f).params := by
      rw [List.length_append, hlen]
      omega
    simp only [step, invoke]
    rw [if_neg henough, List.take_left' hlen, List.drop_left' hlen, List.reverse_reverse]
  rw [wp_of_eq hstep]
  simp only [Option.map_eq_some_iff]
  constructor
  · rintro ⟨o, ⟨r, hr, rfl⟩, hQ⟩
    exact ⟨r, hr, hQ⟩
  · rintro ⟨r, hr, hQ⟩
    exact ⟨_, ⟨r, hr, rfl⟩, hQ⟩

/-- An atomic operation with its operands on the stack above the address. -/
theorem wp_atomic (sub align offset : ℕ) {vs : List Value} (hvs : vs.length = env.atomicOps sub)
    (a : BitVec 32) :
    Wp env (.atomic sub align offset :: rest) Q ⟨vs.reverse ++ .i32 a :: st, ls, σ⟩ ↔
      ∃ r, env.atomic sub align (a.toNat + offset) vs σ = some r ∧
        andThen (Wp env rest Q) Q (returned ⟨vs.reverse ++ .i32 a :: st, ls, σ⟩ st r) := by
  have hlen : vs.reverse.length = env.atomicOps sub := by rw [List.length_reverse, hvs]
  have hstep : ∀ fuel, step env fuel (.atomic sub align offset)
    ⟨vs.reverse ++ .i32 a :: st, ls, σ⟩ =
      (env.atomic sub align (a.toNat + offset) vs σ).map
        (returned ⟨vs.reverse ++ .i32 a :: st, ls, σ⟩ st) := by
    intro fuel
    simp only [step]
    rw [List.take_left' hlen, List.drop_left' hlen, List.reverse_reverse]
  rw [wp_of_eq hstep]
  simp only [Option.map_eq_some_iff]
  constructor
  · rintro ⟨o, ⟨r, hr, rfl⟩, hQ⟩
    exact ⟨r, hr, hQ⟩
  · rintro ⟨r, hr, hQ⟩
    exact ⟨_, ⟨r, hr, rfl⟩, hQ⟩

/-- Values saved in locals, the top of the stack first. -/
theorem wp_saves (slots : List ℕ) {vs : List Value} (hlen : slots.length = vs.length) :
    Wp env (slots.map Instr.localSet ++ rest) Q ⟨vs ++ st, ls, σ⟩ ↔
      Wp env rest Q ⟨st, (slots.zip vs).foldl (fun ls p => ls.set p.1 p.2) ls, σ⟩ := by
  induction slots generalizing vs ls with
  | nil =>
    obtain rfl : vs = [] := List.length_eq_zero_iff.mp hlen.symm
    exact Iff.rfl
  | cons i slots ih =>
    obtain ⟨v, vs, rfl⟩ : ∃ v vs', vs = v :: vs' := List.exists_cons_of_length_eq_add_one hlen.symm
    rw [List.map_cons, List.cons_append, List.cons_append, wp_localSet, List.zip_cons_cons,
      List.foldl_cons]
    exact ih (by simpa using hlen)

/-- Values read back from locals. -/
theorem wp_restores (slots : List ℕ) {vs : List Value} (hlen : slots.length = vs.length)
    (hls : ∀ p ∈ slots.zip vs, ls[p.1]? = some p.2) :
    Wp env (slots.map Instr.localGet ++ rest) Q ⟨st, ls, σ⟩ ↔
      Wp env rest Q ⟨vs.reverse ++ st, ls, σ⟩ := by
  induction slots generalizing vs st with
  | nil =>
    obtain rfl : vs = [] := List.length_eq_zero_iff.mp hlen.symm
    exact Iff.rfl
  | cons i slots ih =>
    obtain ⟨v, vs, rfl⟩ : ∃ v vs', vs = v :: vs' := List.exists_cons_of_length_eq_add_one hlen.symm
    have hfirst := hls (i, v) (by simp)
    rw [List.map_cons, List.cons_append, wp_localGet]
    simp only [hfirst, Option.some.injEq, exists_eq_left']
    rw [ih (by simpa using hlen) fun p hp => hls p (by simp [hp]), List.reverse_cons,
      List.append_assoc, List.singleton_append]

end Straight

end NixWasm.Wasm
