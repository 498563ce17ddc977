import NixWasm.Effects
import NixWasm.FfiPaths
import NixWasm.Trampolines

/-!
The raw wasm32 backend of libffi at run time. wasm_runtime_ffi_call lowers a call to WebAssembly
values in buffers of its stack frame and describes their types in a few bytes; the host decodes
them, and generates and calls a trampoline. The static trampolines load the same arguments
themselves. A write to a buffer that leaves it is a failure of its own, apart from an abort.
-/
namespace NixWasm.RawFfi

open Bytes ByteStore Effects Wasm FfiCodegen
open Trampolines (FfiType isScalar wasmFfiMaxArgs)

section Types

/-- Structures and long doubles are passed by a pointer. -/
def isAggregate : FfiType → Bool
  | .struct | .longdouble => true
  | _ => false

def scalarSize : FfiType → ℕ
  | .uint8 | .sint8 => 1
  | .uint16 | .sint16 => 2
  | .int | .uint32 | .sint32 | .pointer | .float => 4
  | .uint64 | .sint64 | .double => 8
  | .void | .longdouble | .struct | .complex => 0

/-- An ffi_type. Other than aggregates, libffi has the types itself: their alignments are powers of
two, and the largest is a complex long double. -/
structure ArgType where
  type : FfiType
  size : ℕ
  alignment : ℕ
  scalar : isScalar type = true → size = scalarSize type
  plain : isAggregate type = false → size ≤ 32 ∧ ∃ k ≤ 4, alignment = 2 ^ k

/-- A prepared call; that the fixed arguments are among all of them is checked before. -/
structure FfiCif where
  rtype : FfiType
  argTypes : List ArgType
  nfixedargs : ℕ
  fixed_le : nfixedargs ≤ argTypes.length

/-- What the dispatch of ffi_call looks at. -/
def FfiCif.cif (cif : FfiCif) : Trampolines.Cif :=
  ⟨cif.rtype, cif.argTypes.map ArgType.type, cif.nfixedargs⟩

def wsigVoid : UInt8 := 0
def wsigI32 : UInt8 := 1
def wsigI64 : UInt8 := 2
def wsigF32 : UInt8 := 3
def wsigF64 : UInt8 := 4

def scalarWcode : FfiType → UInt8
  | .uint64 | .sint64 => wsigI64
  | .float => wsigF32
  | .double => wsigF64
  | _ => wsigI32

def wsigMax : ℕ := wasmFfiMaxArgs + 64

end Types

section Memory

inductive Failure
  | unsupported (what : String)
  | overflow
  | trap
  | running
deriving DecidableEq

/-- A C function of the guest; `running` is a call that has not come back. -/
abbrev Run (ω : Type) := EStateM Failure (Store ω)

structure Buffer where
  addr : ℕ
  size : ℕ

/-- Where the buffers of the stack frame are. -/
structure Locals where
  sig : ℕ
  args : ℕ
  varbuf : ℕ
  retbuf : ℕ

def Locals.sigBuf (l : Locals) : Buffer := ⟨l.sig, 2 + wsigMax⟩
def Locals.argsBuf (l : Locals) : Buffer := ⟨l.args, 8 * wsigMax⟩
def Locals.varbufBuf (l : Locals) : Buffer := ⟨l.varbuf, 8 * wsigMax⟩

variable {ω : Type}

def readBytes (p n : ℕ) : Run ω (List UInt8) := do
  match load (← get).memory p n with
  | none => throw .trap
  | some bytes => return bytes

def writeBytes (p : ℕ) (bytes : List UInt8) : Run ω Unit := do
  match store (← get).memory p bytes with
  | none => throw .trap
  | some memory => modify fun σ => { σ with memory }

/-- A write to a buffer of the frame. -/
def put (b : Buffer) (off : ℕ) (bytes : List UInt8) : Run ω Unit :=
  if off + bytes.length > b.size then throw .overflow
  else writeBytes (b.addr + off) bytes

end Memory

section Lowering
variable {ω : Type}

def loadI32Arg (t : FfiType) (p : ℕ) : Run ω (BitVec 32) :=
  match t with
  | .int | .uint32 | .sint32 | .pointer =>
    (fun bytes => BitVec.ofNat 32 (leValue bytes)) <$> readBytes p 4
  | .uint8 => (fun bytes => BitVec.ofNat 32 (leValue bytes)) <$> readBytes p 1
  | .sint8 => (fun bytes => (BitVec.ofNat 8 (leValue bytes)).signExtend 32) <$> readBytes p 1
  | .uint16 => (fun bytes => BitVec.ofNat 32 (leValue bytes)) <$> readBytes p 2
  | .sint16 => (fun bytes => (BitVec.ofNat 16 (leValue bytes)).signExtend 32) <$> readBytes p 2
  | _ => throw (.unsupported "by-value argument type")

def writeScalarSlot (b : Buffer) (slot : ℕ) (t : FfiType) (p : ℕ) : Run ω Unit :=
  if scalarWcode t = wsigI64 then readBytes p 8 >>= put b slot
  else if scalarWcode t = wsigF32 then readBytes p 4 >>= put b slot
  else if scalarWcode t = wsigF64 then readBytes p 8 >>= put b slot
  else loadI32Arg t p >>= fun v => put b slot (leBytes 4 v.toNat)

/-- One fixed argument, as parameter `np`. -/
def lowerArg (l : Locals) (t : ArgType) (p np : ℕ) : Run ω Unit :=
  if isAggregate t.type then do
    put l.argsBuf (np * 8) (leBytes 4 p)
    put l.sigBuf (2 + np) [wsigI32]
  else do
    writeScalarSlot l.argsBuf (np * 8) t.type p
    put l.sigBuf (2 + np) [scalarWcode t.type]

/-- The fixed arguments from parameter `np` on; the result is the next parameter. -/
def lowerFixed (l : Locals) : List (ArgType × ℕ) → ℕ → Run ω ℕ
  | [], np => return np
  | (t, p) :: rest, np => do
    lowerArg l t p np
    if np + 1 ≥ wsigMax then throw (.unsupported "too many lowered arguments")
    else lowerFixed l rest (np + 1)

/-- `(off + al - 1) & ~(al - 1)` in 32 bits. -/
def alignUp (off al : ℕ) : ℕ := (off + (al - 1)) &&& (2 ^ 32 - 1 - (al - 1))

/-- The size and the alignment of a variadic argument. -/
def varSize (t : ArgType) : ℕ := if isAggregate t.type then 4 else t.size
def varAlign (t : ArgType) : ℕ := if isAggregate t.type then 4 else t.alignment

def packArg (l : Locals) (t : ArgType) (p start : ℕ) : Run ω Unit :=
  if isAggregate t.type then put l.varbufBuf start (leBytes 4 p)
  else readBytes p t.size >>= put l.varbufBuf start

/-- The variadic arguments, from an offset of the buffer on. -/
def packVariadic (l : Locals) : List (ArgType × ℕ) → ℕ → Run ω Unit
  | [], _ => return ()
  | (t, p) :: rest, off => do
    let start := alignUp off (varAlign t)
    if start + varSize t > l.varbufBuf.size then throw (.unsupported "varargs buffer overflow")
    else
      packArg l t p start
      packVariadic l rest (start + varSize t)

def retcode (rtype : FfiType) : UInt8 :=
  if isAggregate rtype then wsigVoid
  else if rtype = .void then wsigVoid
  else scalarWcode rtype

/-- A structure to return has its place as the first parameter. -/
def lowerReturn (l : Locals) (rtype : FfiType) (rvalue : ℕ) : Run ω ℕ :=
  if isAggregate rtype then do
    put l.argsBuf 0 (leBytes 4 rvalue)
    put l.argsBuf 4 (leBytes 4 0)
    put l.sigBuf 2 [wsigI32]
    return 1
  else return 0

/-- The buffer of the variadic arguments is the last parameter. -/
def lowerVariadic (l : Locals) (cif : FfiCif) (args : List (ArgType × ℕ)) (np : ℕ) : Run ω ℕ :=
  if cif.nfixedargs ≠ cif.argTypes.length then do
    packVariadic l args 0
    put l.argsBuf (np * 8) (leBytes 4 l.varbuf)
    put l.sigBuf (2 + np) [wsigI32]
    return np + 1
  else return np

/-- Everything before the call of the host: the number of parameters. -/
def lower (cif : FfiCif) (l : Locals) (rvalue : ℕ) (avalue : List ℕ) : Run ω ℕ := do
  let args := cif.argTypes.zip avalue
  let np ← lowerReturn l cif.rtype rvalue
  let np ← lowerFixed l (args.take cif.nfixedargs) np
  let np ← lowerVariadic l cif (args.drop cif.nfixedargs) np
  put l.sigBuf 0 [UInt8.ofNat np]
  put l.sigBuf 1 [retcode cif.rtype]
  return np

/-- The scalar that the host left, to its place. -/
def deliver (l : Locals) (rtype : FfiType) (rvalue : ℕ) : Run ω Unit :=
  if isAggregate rtype = false ∧ rtype ≠ .void ∧ rvalue ≠ 0 then
    if retcode rtype = wsigI64 then readBytes l.retbuf 8 >>= writeBytes rvalue
    else if retcode rtype = wsigF32 then readBytes l.retbuf 4 >>= writeBytes rvalue
    else if retcode rtype = wsigF64 then readBytes l.retbuf 8 >>= writeBytes rvalue
    else readBytes l.retbuf 4 >>= fun bytes => writeBytes rvalue (leBytes 4 (leValue bytes))
  else return ()

/-- `host` is __wasm_ffi_call: function, arguments, result, descriptor and its length. -/
def wasmRuntimeFfiCall (host : BitVec 32 → ℕ → ℕ → ℕ → ℕ → Run ω ℕ) (cif : FfiCif) (l : Locals)
    (fn : BitVec 32) (rvalue : ℕ) (avalue : List ℕ) : Run ω Unit := do
  let np ← lower cif l rvalue avalue
  let rc ← host fn l.args l.retbuf l.sig (2 + np)
  if rc ≠ 0 then throw (.unsupported "runtime trampoline call failed")
  else deliver l cif.rtype rvalue

end Lowering

section Host
variable {ω : Type}

def codes : List (Option ValType) := [none, some .i32, some .i64, some .f32, some .f64]

def decode (sig : List UInt8) : Option FfiSignature :=
  match sig with
  | np :: ret :: rest =>
    if sig.length ≠ 2 + np.toNat ∨ codes.length ≤ ret.toNat then none
    else (rest.mapM fun c => (codes[c.toNat]?).join).map (⟨·, (codes[ret.toNat]?).join⟩)
  | _ => none

/-- __wasm_ffi_call of the kernel worker. A descriptor that cannot be read, or decoded, is an error
of the call; a trap in the target is not caught. -/
def hostFfiCall (table : BitVec 32 → Option (Entry ω)) (isCanonicalSlot : BitVec 32 → Bool)
    (fuel : ℕ) (funcIndex : BitVec 32) (argPtr retPtr sigPtr sigLen : ℕ) : Run ω ℕ := do
  let σ ← get
  if sigLen < 2 ∨ 257 < sigLen then return 1
  else
    match (load σ.memory sigPtr sigLen).bind decode with
    | none => return 1
    | some sig =>
      match genTrampoline table sig (isCanonicalSlot funcIndex) fuel (BitVec.ofNat 32 argPtr)
        (BitVec.ofNat 32 retPtr) funcIndex σ with
      | none => throw .running
      | some (.trap σ') => do
        set σ'
        throw .trap
      | some (.values _ σ') => do
        set σ'
        return 0

end Host

section Static
variable {ω : Type}

/-- The parameter type and the load of an argument class. -/
def argWasm : ℕ → ValType
  | 1 => .i64
  | 2 => .f32
  | 3 => .f64
  | _ => .i32

def loadClass (c : ℕ) (t : FfiType) (p : ℕ) : Run ω Value :=
  match c with
  | 1 => ValType.i64.ofBytes <$> readBytes p 8
  | 2 => ValType.f32.ofBytes <$> readBytes p 4
  | 3 => ValType.f64.ofBytes <$> readBytes p 8
  | _ => Value.i32 <$> loadI32Arg t p

/-- The type of a return class. -/
def retWasm : ℕ → Option ValType
  | 1 => some .i32
  | 2 => some .i64
  | 3 => some .f32
  | 4 => some .f64
  | _ => none

def loadClasses : List ℕ → List (FfiType × ℕ) → Run ω (List Value)
  | c :: vec, (t, p) :: rest => do
    let v ← loadClass c t p
    return v :: (← loadClasses vec rest)
  | _, _ => return []

def storeReturn (rvalue : ℕ) : List Value → Run ω Unit
  | [] => return ()
  | r :: _ => if rvalue ≠ 0 then writeBytes rvalue r.bytes else return ()

def settle (k : List Value → Run ω Unit) (σ : Store ω) :
    Option (Return ω) → EStateM.Result Failure (Store ω) Unit
  | none => .error .running σ
  | some (.trap σ') => .error .trap σ'
  | some (.values vs σ') => k vs σ'

def signatureOf (rc : ℕ) (vec : List ℕ) : FfiSignature := ⟨vec.map argWasm, retWasm rc⟩

/-- The trampoline generated for a return class and argument classes. -/
def trampoline (table : BitVec 32 → Option (Entry ω)) (rc : ℕ) (vec : List ℕ) (fn : BitVec 32)
    (rvalue : ℕ) (args : List (FfiType × ℕ)) : Run ω Unit := do
  let vs ← loadClasses vec args
  fun σ => settle (storeReturn rvalue) σ
    ((tableFunc table (rawType (signatureOf rc vec)) fn).run vs σ)

def ffiCall (table : BitVec 32 → Option (Entry ω))
    (host : BitVec 32 → ℕ → ℕ → ℕ → ℕ → Run ω ℕ) (cif : FfiCif) (l : Locals) (fn : BitVec 32)
    (rvalue : ℕ) (avalue : List ℕ) : Run ω Unit :=
  match Trampolines.ffiCall cif.cif with
  | .runtime => wasmRuntimeFfiCall host cif l fn rvalue avalue
  | .trampoline rc vec => trampoline table rc vec fn rvalue (cif.cif.argTypes.zip avalue)
  | .abort => throw (.unsupported "by-value argument type")

end Static

end NixWasm.RawFfi
