import NixWasm.FlatCode
import NixWasm.SoftmmuAtomics
import NixWasm.SoftmmuSections

/-!
The part of the pass that walks through function bodies. `skipInstr` knows the immediates of every
opcode; `rewriteFuncBody` copies the instructions and puts emitted code in the place of those that
access memory; `scanUnhandled` looks for what the pass has to know before. Running off the end reads
undefined bytes, which end a number and are no opcode.
-/
namespace NixWasm.SoftmmuRewrite

open Cursor Wasm FlatCode Softmmu SoftmmuWalk SoftmmuAtomics

inductive PassError
  | simd
  | unknownOpcode (op : UInt8) (offset : ℕ)
  | pastEnd
  | unknownFc (sub : ℕ)
  | missingCheckedTranslate
deriving DecidableEq

section Skip
variable {ε : Type}

def skipUleb : Read ε Unit := do
  let _ ← uleb
  pure ()

def skipSleb : Read ε Unit := do
  let _ ← sleb
  pure ()

def blockTypeBytes : List UInt8 := [0x40, 0x7f, 0x7e, 0x7d, 0x7c, 0x7b, 0x70, 0x6f]

def skipBlockType : Read ε Unit := do
  let t ← peek
  if t ∈ blockTypeBytes.map some then skip 1 else skipSleb

/-- A catch clause: the kinds 0 and 1 have a tag. -/
def skipClause : Read ε Unit := do
  let ck ← u8
  if ck = some 0x00 ∨ ck = some 0x01 then do
    skipUleb
    skipUleb
  else skipUleb

def skipFC : Read PassError Unit := do
  let sub ← uleb
  if sub ≤ 7 then pure ()
  else if sub = 8 then do
    skipUleb
    skip 1
  else if sub = 9 then skipUleb
  else if sub = 10 then skip 2
  else if sub = 11 then skip 1
  else if sub = 12 ∨ sub = 14 then do
    skipUleb
    skipUleb
  else if sub = 13 ∨ sub = 15 ∨ sub = 16 ∨ sub = 17 then skipUleb
  else fail (.unknownFc sub)

def skipAtomic : Read ε Unit := do
  let sub ← uleb
  if sub = 3 then skip 1
  else do
    skipUleb
    skipUleb

/-- The switch of `skipInstr`, behind the opcode. -/
def skipImmediates (op : UInt8) : Read PassError Unit :=
  if op = 0x02 ∨ op = 0x03 ∨ op = 0x04 then skipBlockType
  else if op = 0x06 then skipBlockType
  else if op = 0x1f then do
    skipBlockType
    let n ← uleb
    let _ ← times n skipClause
    pure ()
  else if op = 0x07 ∨ op = 0x08 ∨ op = 0x09 ∨ op = 0x18 then skipUleb
  else if op = 0x19 ∨ op = 0x0a then pure ()
  else if op = 0x0c ∨ op = 0x0d then skipUleb
  else if op = 0x0e then do
    let n ← uleb
    let _ ← times n skipUleb
    skipUleb
  else if op = 0x00 ∨ op = 0x01 ∨ op = 0x05 ∨ op = 0x0b ∨ op = 0x0f ∨ op = 0x1a ∨ op = 0x1b then
    pure ()
  else if op = 0x1c then do
    let n ← uleb
    skip n
  else if op = 0x10 then skipUleb
  else if op = 0x11 then do
    skipUleb
    skipUleb
  else if op = 0x20 ∨ op = 0x21 ∨ op = 0x22 ∨ op = 0x23 ∨ op = 0x24 ∨ op = 0xd0 ∨ op = 0xd2 then
    skipUleb
  else if op = 0xd1 then pure ()
  else if op = 0x3f ∨ op = 0x40 then skip 1
  else if op = 0x41 then skipSleb
  else if op = 0x42 then skipSleb
  else if op = 0x43 then skip 4
  else if op = 0x44 then skip 8
  else if op = 0xfc then skipFC
  else if op = 0xfe then skipAtomic
  else if op = 0xfd then fail .simd
  else if 0x28 ≤ op ∧ op ≤ 0x3e then do
    skipUleb
    skipUleb
  else if 0x45 ≤ op ∧ op ≤ 0xc4 then pure ()
  else do
    let i ← position
    fail (.unknownOpcode op (i - 1))

/-- From an instruction to the one behind it. The undefined opcode past the end has no text to put
into the error, which is another error. -/
def skipInstr : Read PassError Unit := do
  let op ← u8
  match op with
  | some op => skipImmediates op
  | none => fail .pastEnd

end Skip

section Emit

/-- `u`: a number of 32 bits, with no padding. -/
def u (n : ℕ) : Leb := Leb.ofNat (n % 2 ^ 32)

/-- The loop of `s`: arithmetic shifts, until only copies of the sign are left. -/
def sDigits : ℕ → ℤ → Leb
  | 0, v => ⟨[], Fin.ofNat 128 (v % 128).toNat⟩
  | fuel + 1, v =>
    let x := Fin.ofNat 128 (v % 128).toNat
    if v / 128 = 0 ∧ x.val < 64 ∨ v / 128 = -1 ∧ 64 ≤ x.val then ⟨[], x⟩
    else Leb.prepend x (sDigits fuel (v / 128))

/-- `s`: a signed number of 32 bits, which has five digits at most. -/
def s (n : ℤ) : Leb := sDigits 5 (BitVec.ofInt 32 n).toInt

/-- Emitted code as the pass writes it. -/
def written (code : List Instr) : List Written := (flattenAll code).map (FlatInstr.map u s)

def writtenBytes (code : List Written) : List UInt8 := code.flatMap FlatInstr.bytes

inductive MemOp
  | load (op : LoadOp)
  | store (op : StoreOp)
deriving DecidableEq

/-- `MEM_OPS[op]`. -/
def memOps (op : UInt8) : Option MemOp :=
  if op = 0x28 then some (.load .i32Load)
  else if op = 0x29 then some (.load .i64Load)
  else if op = 0x2a then some (.load .f32Load)
  else if op = 0x2b then some (.load .f64Load)
  else if op = 0x2c then some (.load .i32Load8S)
  else if op = 0x2d then some (.load .i32Load8U)
  else if op = 0x2e then some (.load .i32Load16S)
  else if op = 0x2f then some (.load .i32Load16U)
  else if op = 0x30 then some (.load .i64Load8S)
  else if op = 0x31 then some (.load .i64Load8U)
  else if op = 0x32 then some (.load .i64Load16S)
  else if op = 0x33 then some (.load .i64Load16U)
  else if op = 0x34 then some (.load .i64Load32S)
  else if op = 0x35 then some (.load .i64Load32U)
  else if op = 0x36 then some (.store .i32Store)
  else if op = 0x37 then some (.store .i64Store)
  else if op = 0x38 then some (.store .f32Store)
  else if op = 0x39 then some (.store .f64Store)
  else if op = 0x3a then some (.store .i32Store8)
  else if op = 0x3b then some (.store .i32Store16)
  else if op = 0x3c then some (.store .i64Store8)
  else if op = 0x3d then some (.store .i64Store16)
  else if op = 0x3e then some (.store .i64Store32)
  else none

/-- `VALTYPE`. -/
def storeValType : StoreOp → ValType
  | .i32Store | .i32Store8 | .i32Store16 => .i32
  | .i64Store | .i64Store8 | .i64Store16 | .i64Store32 => .i64
  | .f32Store => .f32
  | .f64Store => .f64

/-- `ACCESS_W`. -/
def accessW : MemOp → ℕ
  | .load .i32Load => 4
  | .load .i64Load => 8
  | .load .f32Load => 4
  | .load .f64Load => 8
  | .load .i32Load8S | .load .i32Load8U => 1
  | .load .i32Load16S | .load .i32Load16U => 2
  | .load .i64Load8S | .load .i64Load8U => 1
  | .load .i64Load16S | .load .i64Load16U => 2
  | .load .i64Load32S | .load .i64Load32U => 4
  | .store .i32Store => 4
  | .store .i64Store => 8
  | .store .f32Store => 4
  | .store .f64Store => 8
  | .store .i32Store8 => 1
  | .store .i32Store16 => 2
  | .store .i64Store8 => 1
  | .store .i64Store16 => 2
  | .store .i64Store32 => 4

/-- `LOAD_RESVT`. -/
def loadResvt : LoadOp → ValType
  | .i32Load | .i32Load8S | .i32Load8U | .i32Load16S | .i32Load16U => .i32
  | .i64Load | .i64Load8S | .i64Load8U | .i64Load16S | .i64Load16U | .i64Load32S
  | .i64Load32U => .i64
  | .f32Load => .f32
  | .f64Load => .f64

/-- `LOAD_POST`, which has no rows for single bytes. -/
def loadPost : LoadOp → List NumOp
  | .i32Load => [.i32WrapI64]
  | .i64Load => []
  | .f32Load => [.i32WrapI64, .f32ReinterpretI32]
  | .f64Load => [.f64ReinterpretI64]
  | .i32Load16S => [.i32WrapI64, .i32Extend16S]
  | .i32Load16U => [.i32WrapI64]
  | .i64Load16S => [.i64Extend16S]
  | .i64Load16U => []
  | .i64Load32S => [.i64Extend32S]
  | .i64Load32U => []
  | .i32Load8S | .i32Load8U | .i64Load8S | .i64Load8U => []

/-- `STORE_TOI64`. -/
def storeToI64 : StoreOp → List NumOp
  | .i32Store => [.i64ExtendI32U]
  | .i64Store => []
  | .f32Store => [.i32ReinterpretF32, .i64ExtendI32U]
  | .f64Store => [.i64ReinterpretF64]
  | .i32Store16 => [.i64ExtendI32U]
  | .i64Store16 => []
  | .i64Store32 => []
  | .i32Store8 | .i64Store8 => []

structure SplitFns where
  loadBytes : ℕ
  storeBytes : ℕ
deriving DecidableEq

variable (m : Mode) (split : Option SplitFns)

/-- The address with the offset of the instruction, into the scratch local. -/
def emitEa (offset : ℕ) : List Instr :=
  (if offset ≠ 0 then [i32c offset, .num .i32Add] else []) ++ [.localSet m.ea]

/-- `(ea & 0xfff) <= 0x1000 - W`. -/
def pageFits (W : ℕ) : List Instr :=
  [.localGet m.ea, i32c 0xfff, .num .i32And, i32c (0x1000 - W), .num .i32LeU]

/-- The physical address from the leaf entry that the predicate left in its local. -/
def physOfPte : List Instr := .localGet m.scratch.pte :: framePlus m.ea

def callLoadBytes (split : SplitFns) (op : LoadOp) (W : ℕ) : List Instr :=
  [.localGet m.ea, i32c W, .call split.loadBytes] ++ (loadPost op).map .num

def callStoreBytes (split : SplitFns) (op : StoreOp) (W vl : ℕ) : List Instr :=
  [.localGet m.ea, .localGet vl] ++ (storeToI64 op).map .num ++ [i32c W, .call split.storeBytes]

def emitTranslateAccess (kind : ℕ) : List Instr :=
  emitTranslate m.ptBaseGlobal m.scratch m.fns m.helper m.checked kind

def emitCheckedSplitLoad (split : SplitFns) (op : LoadOp) (W : ℕ) : List Instr :=
  emitCheckedPresentPredicate m.ptBaseGlobal m.scratch 0 ++ pageFits m W ++ [.num .i32And,
    .ite (some (loadResvt op)) (physOfPte m ++ [.loadAs op 0 0]) (callLoadBytes m split op W)]

def emitCheckedSplitStore (split : SplitFns) (op : StoreOp) (W vl : ℕ) : List Instr :=
  emitCheckedPresentPredicate m.ptBaseGlobal m.scratch 1 ++ pageFits m W ++ [.num .i32And,
    .ite none (physOfPte m ++ [.localGet vl, .storeAs op 0 0]) (callStoreBytes m split op W vl)]

def emitLoadAt (op : LoadOp) : List Instr :=
  let W := accessW (.load op)
  match split with
  | some split =>
    if 2 ≤ W ∧ m.helper then callLoadBytes m split op W
    else if 2 ≤ W ∧ m.checked then emitCheckedSplitLoad m split op W
    else if 2 ≤ W then
      pageFits m W ++ [.ite (some (loadResvt op)) (emitTranslateAccess m 0 ++ [.loadAs op 0 0])
        (callLoadBytes m split op W)]
    else emitTranslateAccess m 0 ++ [.loadAs op 0 0]
  | none => emitTranslateAccess m 0 ++ [.loadAs op 0 0]

def emitStoreAt (op : StoreOp) (vl : ℕ) : List Instr :=
  let W := accessW (.store op)
  match split with
  | some split =>
    if 2 ≤ W ∧ m.helper then callStoreBytes m split op W vl
    else if 2 ≤ W ∧ m.checked then emitCheckedSplitStore m split op W vl
    else if 2 ≤ W then
      pageFits m W ++ [.ite none (emitTranslateAccess m 1 ++ [.localGet vl, .storeAs op 0 0])
        (callStoreBytes m split op W vl)]
    else emitTranslateAccess m 1 ++ [.localGet vl, .storeAs op 0 0]
  | none => emitTranslateAccess m 1 ++ [.localGet vl, .storeAs op 0 0]

/-- What takes the place of a scalar access. -/
def emitAccess (offset : ℕ) : MemOp → List Instr
  | .load op => emitEa m offset ++ emitLoadAt m split op
  | .store op =>
    let vl := m.val (storeValType op)
    .localSet vl :: (emitEa m offset ++ emitStoreAt m split op vl)

end Emit

section Rewrite

/-- The helpers for memory.copy and memory.fill, and those for memory.init by segment. -/
structure BulkFns where
  memcpy : ℕ
  memfill : ℕ
  meminit : ℕ → Option ℕ

structure Helper where
  translateFunc : ℕ
  checkedTranslateFunc : Option ℕ

/-- What `rewriteFuncBody` is called with, the body and the number of its parameters apart. Of the
checked context it looks only at `checkedTranslateFunc`. -/
structure Args where
  ptBaseGlobal : ℕ
  bulkFns : Option BulkFns
  checked : Option (Option ℕ)
  helper : Option Helper
  splitFns : Option SplitFns

/-- How translations are emitted; a missing function number is written as 0. -/
def Args.mode (args : Args) (base : ℕ) : Mode where
  ptBaseGlobal := args.ptBaseGlobal
  base := base
  fns := match args.helper with
    | some helper => ⟨helper.translateFunc, helper.checkedTranslateFunc.getD 0⟩
    | none => ⟨0, args.checked.join.getD 0⟩
  helper := args.helper.isSome
  checked := args.checked.isSome

/-- The scratch locals, in groups of one type. -/
def scratchGroups (m : Mode) : List (ℕ × ValType) :=
  [(2, .i32), (1, .i64), (1, .f32), (1, .f64), (1, .i32), (1, .i64)] ++
    if m.checked then [(2, .i32)] else []

def copyInstr : Read PassError (List UInt8) := do
  let i ← position
  skipInstr
  let next ← position
  slice i next

/-- The bulk operations of the 0xFC prefix, when there are helpers for them. -/
def rewriteBulk (bulk : BulkFns) : Read PassError (List UInt8) := do
  let sub ← ahead (do skip 1; uleb)
  if sub = 10 then do
    skipInstr
    return writtenBytes (written [.call bulk.memcpy])
  else if sub = 11 then do
    skipInstr
    return writtenBytes (written [.call bulk.memfill])
  else if sub = 8 then do
    let seg ← ahead (do skip 1; skipUleb; uleb)
    skipInstr
    return writtenBytes (written [.call ((bulk.meminit seg).getD 0)])
  else copyInstr

def rewriteAtomic (m : Mode) : Read PassError (List UInt8) := do
  let sub ← ahead (do skip 1; uleb)
  match atomicOps sub with
  | none => copyInstr
  | some a => do
    skip 1
    skipUleb
    let align ← uleb
    let offset ← uleb
    return writtenBytes (written (emitAtomic m a sub align offset))

/-- One round of the loop over the instructions. -/
def rewriteNext (args : Args) (m : Mode) : Read PassError (List UInt8) := do
  let op ← peek
  match op.bind memOps with
  | some mem => do
    skip 1
    skipUleb
    let offset ← uleb
    return writtenBytes (written (emitAccess m args.splitFns offset mem))
  | none =>
    if op = some 0xfe then rewriteAtomic m
    else match args.bulkFns with
      | some bulk => if op = some 0xfc then rewriteBulk bulk else copyInstr
      | none => copyInstr

/-- Every round takes a byte or more, so that the length of the body is fuel enough. -/
def rewriteLoop (args : Args) (m : Mode) : ℕ → Read PassError (List UInt8)
  | 0 => pure []
  | fuel + 1 => do
    let i ← position
    let length ← inputLength
    if i < length then do
      let out ← rewriteNext args m
      let rest ← rewriteLoop args m fuel
      return out ++ rest
    else pure []

/-- A group of local variables: its number, without the type. -/
def localCount {ε : Type} : Read ε ℕ := do
  let cnt ← uleb
  skip 1
  return cnt

def rewriteFuncBody (args : Args) (numParams : ℕ) : Read PassError (List UInt8) :=
  if args.checked = some none then fail .missingCheckedTranslate
  else do
    let nLocals ← uleb
    let localsStart ← position
    let counts ← times nLocals localCount
    let localsEnd ← position
    let decls ← slice localsStart localsEnd
    let m := args.mode (numParams + counts.sum)
    let length ← inputLength
    let code ← rewriteLoop args m length
    return (u (nLocals + 6 + if m.checked then 1 else 0)).bytes ++ (decls ++
      ((scratchGroups m).flatMap (fun g => (u g.1).bytes ++ [typeCode g.2]) ++ code))

end Rewrite

section Scan
variable {ε : Type}

structure Scan where
  atomics : Bool
  simd : Bool
  bulk : Bool
  initSegs : List ℕ
deriving DecidableEq

def Scan.start : Scan := ⟨false, false, false, []⟩

/-- `initSegs.add`. -/
def Scan.addSeg (scan : Scan) (seg : ℕ) : Scan :=
  { scan with
    bulk := true
    initSegs := if seg ∈ scan.initSegs then scan.initSegs else scan.initSegs ++ [seg] }

def scanBulk (scan : Scan) : Read ε Scan := do
  let sub ← ahead (do skip 1; uleb)
  if sub = 8 then do
    let seg ← ahead (do skip 1; skipUleb; uleb)
    return scan.addSeg seg
  else if sub = 10 ∨ sub = 11 then return { scan with bulk := true }
  else return scan

/-- What the scan notes at an instruction. -/
def scanNext (scan : Scan) : Read ε Scan := do
  let op ← peek
  let scan := if op = some 0xfe then { scan with atomics := true } else scan
  let scan := if op = some 0xfd then { scan with simd := true } else scan
  if op = some 0xfc then scanBulk scan else pure scan

/-- The instructions of a body; what cannot be skipped ends it. Every round takes a byte. -/
def scanLoop (stop : ℕ) : ℕ → Scan → Read PassError Scan
  | 0, scan => pure scan
  | fuel + 1, scan => do
    let j ← position
    if j < stop then do
      let scan ← scanNext scan
      let skipped ← attempt skipInstr
      match skipped with
      | some () => scanLoop stop fuel scan
      | none => pure scan
    else pure scan

def scanBody (scan : Scan) : Read PassError Scan := do
  let size ← uleb
  let i ← position
  let stop := i + size
  let nl ← uleb
  let _ ← times nl (do skipUleb; skip 1 : Read PassError Unit)
  let scan ← scanLoop stop size scan
  seek stop
  return scan

def scanBodies : ℕ → Scan → Read PassError Scan
  | 0, scan => pure scan
  | n + 1, scan => do
    let scan ← scanBody scan
    scanBodies n scan

def scanCode : Read PassError Scan := do
  let n ← uleb
  let scan ← scanBodies n Scan.start
  return { scan with initSegs := scan.initSegs.mergeSort (· ≤ ·) }

/-- The scan of the code section; there is nothing that it throws. -/
def scanUnhandled (bytes : List UInt8) : Option Scan := do
  let secs ← splitSections bytes
  match secs.find? (·.id = 10) with
  | none => some Scan.start
  | some code =>
    match scanCode code.body 0 with
    | .ok (scan, _) => some scan
    | .error _ => none

end Scan

end NixWasm.SoftmmuRewrite
