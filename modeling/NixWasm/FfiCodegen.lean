import NixWasm.WasmCode

/-!
The trampolines and thunks that ffi-codegen.ts generates at run time, as the bytes of their function
bodies, and what running them does. The other sections are not bytes here: of a trampoline's module
the type section is a list of types, of which the call through the table checks the one it names,
and the imports, the exports and the unchecked form's memory are in what `Env` gives to the code.
-/
namespace NixWasm.FfiCodegen

open Bytes Wasm ByteStore

/-- A signature in WebAssembly value types. -/
structure FfiSignature where
  params : List ValType
  result : Option ValType
deriving DecidableEq

def loadOp : ValType → UInt8
  | .i32 => 0x28
  | .i64 => 0x29
  | .f32 => 0x2a
  | .f64 => 0x2b

def storeOp : ValType → UInt8
  | .i32 => 0x36
  | .i64 => 0x37
  | .f32 => 0x38
  | .f64 => 0x39

/-- Parameters of the canonical ABI. -/
def canonicalParams : ℕ := 128

/-- `n >>> 0` in LEB128. -/
def uleb (n : ℕ) : List UInt8 := (Leb.ofNat (n % 2 ^ 32)).bytes

/-- Signed LEB128 of `n | 0`; five rounds are enough. -/
def slebRounds : ℕ → ℤ → List UInt8
  | 0, _ => []
  | rounds + 1, v =>
    let b := v % 128
    let v' := v / 128
    if (v' = 0 ∧ b < 64) ∨ (v' = -1 ∧ 64 ≤ b) then [UInt8.ofNat b.toNat]
    else UInt8.ofNat (b.toNat + 128) :: slebRounds rounds v'

def sleb (n : ℤ) : List UInt8 := slebRounds 5 (BitVec.ofInt 32 n).toInt

/-- Extend a value to i64. -/
def toABI : ValType → List UInt8
  | .i32 => [0xad]
  | .i64 => []
  | .f32 => [0xbc, 0xad]
  | .f64 => [0xbd]

/-- Convert an i64 down to the type. -/
def fromABI : ValType → List UInt8
  | .i32 => [0xa7]
  | .i64 => []
  | .f32 => [0xa7, 0xbe]
  | .f64 => [0xbf]

/-- The pointer for the later store of the result. -/
def pushRetPtr (sig : FfiSignature) : List UInt8 :=
  if sig.result.isSome then 0x20 :: uleb 1 else []

/-- Argument `i` of the buffer: one slot of eight bytes each. -/
def loadArg (p : ValType) (i : ℕ) : List UInt8 :=
  0x20 :: uleb 0 ++ [loadOp p, 0x00] ++ uleb (i * 8)

def callTarget : List UInt8 := 0x20 :: uleb 2 ++ (0x11 :: uleb 1 ++ [0x00])

def storeResult (t : ValType) : List UInt8 := [storeOp t, 0x00] ++ uleb 0

def genRawBody (sig : FfiSignature) : List UInt8 :=
  pushRetPtr sig ++ sig.params.zipIdx.flatMap (fun p => loadArg p.1 p.2) ++ callTarget ++
    (match sig.result with
      | some t => storeResult t
      | none => []) ++ [0x0b]

def genCanonicalBody (sig : FfiSignature) : List UInt8 :=
  pushRetPtr sig ++ sig.params.zipIdx.flatMap (fun p => loadArg p.1 p.2 ++ toABI p.1) ++
    (List.replicate (canonicalParams - sig.params.length) (0x42 :: sleb 0)).flatten ++ callTarget ++
    (match sig.result with
      | some t => fromABI t ++ storeResult t
      | none => [0x1a]) ++ [0x0b]

/-- Body of the canonical thunk of a raw function. -/
def genThunkBody (sig : FfiSignature) : List UInt8 :=
  sig.params.zipIdx.flatMap (fun p => 0x20 :: uleb p.2 ++ fromABI p.1) ++ (0x10 :: uleb 0) ++
    (match sig.result with
      | some t => toABI t
      | none => 0x42 :: sleb 0) ++ [0x0b]

/-- A function's code: no local declarations before its body. -/
def code (body : List UInt8) : List UInt8 := uleb 0 ++ body

structure FuncType where
  params : List ValType
  results : List ValType
deriving DecidableEq

def canonicalType : FuncType := ⟨List.replicate canonicalParams .i64, [.i64]⟩

def rawType (sig : FfiSignature) : FuncType := ⟨sig.params, sig.result.toList⟩

def targetType (sig : FfiSignature) (canonical : Bool) : FuncType :=
  if canonical then canonicalType else rawType sig

/-- The type section of a trampoline's module: its own type and the target's. -/
def trampolineTypes (sig : FfiSignature) (canonical : Bool) : List FuncType :=
  [⟨List.replicate 3 .i32, []⟩, targetType sig canonical]

section Instances
variable {ω : Type}

/-- A function in the shared table. -/
structure Entry (ω : Type) where
  type : FuncType
  run : List Value → Store ω → Option (Return ω)

/-- The table as code with this declared type calls it: another type, or no entry, traps. -/
def tableFunc (table : BitVec 32 → Option (Entry ω)) (type : FuncType) (slot : BitVec 32) :
    Func ω where
  params := type.params.length
  run args store :=
    match table slot with
    | some entry => if entry.type = type then entry.run args store else some (.trap store)
    | none => some (.trap store)

def noFunc : Func ω := ⟨0, fun _ store => some (.trap store)⟩

/-- The generated module with its table, which a call names a type for. -/
def trampolineEnv (table : BitVec 32 → Option (Entry ω)) (sig : FfiSignature) (canonical : Bool) :
    Env ω where
  funcs _ := noFunc
  table type slot :=
    match (trampolineTypes sig canonical)[type]? with
    | some t => tableFunc table t slot
    | none => noFunc
  atomicOps _ := 0
  atomic _ _ _ _ store := some (.trap store)

theorem trampolineEnv_target (table : BitVec 32 → Option (Entry ω)) (sig : FfiSignature)
    (canonical : Bool) : (trampolineEnv table sig canonical).table 1 =
      tableFunc table (targetType sig canonical) := rfl

/-- `trampoline(argPtr, retPtr, funcIndex)`. -/
def genTrampoline (table : BitVec 32 → Option (Entry ω)) (sig : FfiSignature) (canonical : Bool)
    (fuel : ℕ) (argPtr retPtr funcIndex : BitVec 32) (store : Store ω) : Option (Return ω) :=
  (functionCode (code (if canonical then genCanonicalBody sig else genRawBody sig))).bind
    fun body =>
    (Func.ofBody (trampolineEnv table sig canonical) fuel 3 0 [] body).run
      [.i32 argPtr, .i32 retPtr, .i32 funcIndex] store

/-- A function of the signature: what it returns has the result's type. -/
structure RawFunc (ω : Type) (sig : FfiSignature) where
  run : List Value → Store ω → Option (Return ω)
  typed : ∀ args store vs store', run args store = some (.values vs store') →
    vs.map Value.type = sig.result.toList

def RawFunc.entry {sig : FfiSignature} (f : RawFunc ω sig) : Entry ω := ⟨rawType sig, f.run⟩

/-- The thunk's module imports the raw function as its function 0. -/
def thunkEnv {sig : FfiSignature} (f : RawFunc ω sig) : Env ω where
  funcs _ := ⟨sig.params.length, f.run⟩
  table _ _ := noFunc
  atomicOps _ := 0
  atomic _ _ _ _ store := some (.trap store)

def genCanonicalThunk {sig : FfiSignature} (f : RawFunc ω sig) (fuel : ℕ) : Entry ω where
  type := canonicalType
  run args store := (functionCode (code (genThunkBody sig))).bind fun body =>
    (Func.ofBody (thunkEnv f) fuel canonicalParams 1 [] body).run args store

end Instances

end NixWasm.FfiCodegen
