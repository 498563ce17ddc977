import NixWasm.Leb
import NixWasm.Wasm

/-!
WebAssembly code as a flat list of instructions, one for each opcode of the binary format: a block
is what stands between its opening and its end. The numbers are parameters, so that they are kept as
written, with their paddings, or as values. Structured code is flattened to such a list.
-/
namespace NixWasm.FlatCode

open Bytes Wasm

/-- At most one value, by its byte, or the index of a function type. -/
inductive BlockType (S : Type)
  | value (t : UInt8)
  | index (i : S)
deriving DecidableEq

/-- A clause of `try_table`. -/
inductive Catch (U : Type)
  | tagged (kind : UInt8) (tag label : U)
  | all (kind : UInt8) (label : U)
deriving DecidableEq

/-- Instructions by the shape of their immediates. -/
inductive FlatInstr (U S : Type)
  | plain (op : UInt8)
  | block (op : UInt8) (type : BlockType S)
  | tryTable (type : BlockType S) (count : U) (clauses : List (Catch U))
  | index (op : UInt8) (x : U)
  | refNull (type : U)
  | brTable (count : U) (labels : List U) (last : U)
  | selectT (count : U) (types : List UInt8)
  | callIndirect (type table : U)
  | tableAccess (op : UInt8) (table : U)
  | access (op : UInt8) (align offset : U)
  | memorySize (op : UInt8)
  | const (op : UInt8) (v : S)
  | floatConst (op : UInt8) (bits : List UInt8)
  | truncSat (sub : U)
  | memoryInit (sub seg : U)
  | memoryCopy (sub : U)
  | memoryFill (sub : U)
  | tableOp (sub x : U)
  | tablePair (sub x y : U)
  | atomic (sub align offset : U)
  | fence (sub : U)
deriving DecidableEq

/-- Instructions with their numbers as written. -/
abbrev Written := FlatInstr Leb Leb

/-- Instructions with the values of their numbers. -/
abbrev Decoded := FlatInstr ℕ ℤ

section Map
variable {U U' S S' : Type} (f : U → U') (g : S → S')

def BlockType.map : BlockType S → BlockType S'
  | value t => .value t
  | index i => .index (g i)

def Catch.map : Catch U → Catch U'
  | tagged kind tag label => .tagged kind (f tag) (f label)
  | all kind label => .all kind (f label)

def FlatInstr.map : FlatInstr U S → FlatInstr U' S'
  | plain op => .plain op
  | block op type => .block op (type.map g)
  | tryTable type count clauses => .tryTable (type.map g) (f count) (clauses.map (Catch.map f))
  | index op x => .index op (f x)
  | refNull type => .refNull (f type)
  | brTable count labels last => .brTable (f count) (labels.map f) (f last)
  | selectT count types => .selectT (f count) types
  | callIndirect type table => .callIndirect (f type) (f table)
  | tableAccess op table => .tableAccess op (f table)
  | access op align offset => .access op (f align) (f offset)
  | memorySize op => .memorySize op
  | const op v => .const op (g v)
  | floatConst op bits => .floatConst op bits
  | truncSat sub => .truncSat (f sub)
  | memoryInit sub seg => .memoryInit (f sub) (f seg)
  | memoryCopy sub => .memoryCopy (f sub)
  | memoryFill sub => .memoryFill (f sub)
  | tableOp sub x => .tableOp (f sub) (f x)
  | tablePair sub x y => .tablePair (f sub) (f x) (f y)
  | atomic sub align offset => .atomic (f sub) (f align) (f offset)
  | fence sub => .fence (f sub)

end Map

section Format

def BlockType.bytes : BlockType Leb → List UInt8
  | value t => [t]
  | index i => i.bytes

def Catch.bytes : Catch Leb → List UInt8
  | tagged kind tag label => kind :: (tag.bytes ++ label.bytes)
  | all kind label => kind :: label.bytes

def FlatInstr.bytes : Written → List UInt8
  | plain op => [op]
  | block op type => op :: type.bytes
  | tryTable type count clauses =>
    0x1f :: (type.bytes ++ (count.bytes ++ clauses.flatMap Catch.bytes))
  | index op x => op :: x.bytes
  | refNull type => 0xd0 :: type.bytes
  | brTable count labels last =>
    0x0e :: (count.bytes ++ (labels.flatMap Leb.bytes ++ last.bytes))
  | selectT count types => 0x1c :: (count.bytes ++ types)
  | callIndirect type table => 0x11 :: (type.bytes ++ table.bytes)
  | tableAccess op table => op :: table.bytes
  | access op align offset => op :: (align.bytes ++ offset.bytes)
  | memorySize op => [op, 0x00]
  | const op v => op :: v.bytes
  | floatConst op bits => op :: bits
  | truncSat sub => 0xfc :: sub.bytes
  | memoryInit sub seg => 0xfc :: (sub.bytes ++ (seg.bytes ++ [0x00]))
  | memoryCopy sub => 0xfc :: (sub.bytes ++ [0x00, 0x00])
  | memoryFill sub => 0xfc :: (sub.bytes ++ [0x00])
  | tableOp sub x => 0xfc :: (sub.bytes ++ x.bytes)
  | tablePair sub x y => 0xfc :: (sub.bytes ++ (x.bytes ++ y.bytes))
  | atomic sub align offset => 0xfe :: (sub.bytes ++ (align.bytes ++ offset.bytes))
  | fence sub => 0xfe :: (sub.bytes ++ [0x00])

end Format

section Flatten

def typeCode : ValType → UInt8
  | .i32 => 0x7f
  | .i64 => 0x7e
  | .f32 => 0x7d
  | .f64 => 0x7c

def numCode : NumOp → UInt8
  | .i32Eqz => 0x45
  | .i32Eq => 0x46
  | .i32Ne => 0x47
  | .i32LtU => 0x49
  | .i32LeU => 0x4d
  | .i32GeU => 0x4f
  | .i32Add => 0x6a
  | .i32Sub => 0x6b
  | .i32And => 0x71
  | .i32Or => 0x72
  | .i32Shl => 0x74
  | .i32ShrU => 0x76
  | .i64Or => 0x84
  | .i64Shl => 0x86
  | .i64ShrU => 0x88
  | .i32WrapI64 => 0xa7
  | .i64ExtendI32U => 0xad
  | .i32ReinterpretF32 => 0xbc
  | .i64ReinterpretF64 => 0xbd
  | .f32ReinterpretI32 => 0xbe
  | .f64ReinterpretI64 => 0xbf
  | .i32Extend16S => 0xc1
  | .i64Extend16S => 0xc3
  | .i64Extend32S => 0xc4

def loadCode : LoadOp → UInt8
  | .i32Load => 0x28
  | .i64Load => 0x29
  | .f32Load => 0x2a
  | .f64Load => 0x2b
  | .i32Load8S => 0x2c
  | .i32Load8U => 0x2d
  | .i32Load16S => 0x2e
  | .i32Load16U => 0x2f
  | .i64Load8S => 0x30
  | .i64Load8U => 0x31
  | .i64Load16S => 0x32
  | .i64Load16U => 0x33
  | .i64Load32S => 0x34
  | .i64Load32U => 0x35

def storeCode : StoreOp → UInt8
  | .i32Store => 0x36
  | .i64Store => 0x37
  | .f32Store => 0x38
  | .f64Store => 0x39
  | .i32Store8 => 0x3a
  | .i32Store16 => 0x3b
  | .i64Store8 => 0x3c
  | .i64Store16 => 0x3d
  | .i64Store32 => 0x3e

/-- A whole value is accessed at its natural alignment. -/
def wholeAccess (t : ValType) (offset : ℕ) (first : UInt8) : Decoded :=
  match t with
  | .i32 => .access first 2 offset
  | .i64 => .access (first + 1) 3 offset
  | .f32 => .access (first + 2) 2 offset
  | .f64 => .access (first + 3) 3 offset

def constant : Value → Decoded
  | .i32 v => .const 0x41 v.toInt
  | .i64 v => .const 0x42 v.toInt
  | .f32 v => .floatConst 0x43 (leBytes 4 v.toNat)
  | .f64 v => .floatConst 0x44 (leBytes 8 v.toNat)

def resultType : Option ValType → BlockType ℤ
  | none => .value 0x40
  | some t => .value (typeCode t)

mutual

def flattenAll : List Instr → List Decoded
  | [] => []
  | i :: rest => flatten i ++ flattenAll rest

/-- An instruction and what it contains; an `else` only before something. -/
def flatten : Instr → List Decoded
  | .const v => [constant v]
  | .localGet i => [.index 0x20 i]
  | .localSet i => [.index 0x21 i]
  | .localTee i => [.index 0x22 i]
  | .globalGet i => [.index 0x23 i]
  | .num op => [.plain (numCode op)]
  | .load t offset => [wholeAccess t offset 0x28]
  | .store t offset => [wholeAccess t offset 0x36]
  | .loadAs op align offset => [.access (loadCode op) align offset]
  | .storeAs op align offset => [.access (storeCode op) align offset]
  | .atomic sub align offset => [.atomic sub align offset]
  | .memoryCopy => [.memoryCopy 10]
  | .memoryFill => [.memoryFill 11]
  | .memoryInit seg => [.memoryInit 8 seg]
  | .drop => [.plain 0x1a]
  | .select => [.plain 0x1b]
  | .call f => [.index 0x10 f]
  | .callIndirect type => [.callIndirect type 0]
  | .block result body => .block 0x02 (resultType result) :: (flattenAll body ++ [.plain 0x0b])
  | .loop body => .block 0x03 (.value 0x40) :: (flattenAll body ++ [.plain 0x0b])
  | .ite result thenBody [] =>
    .block 0x04 (resultType result) :: (flattenAll thenBody ++ [.plain 0x0b])
  | .ite result thenBody (i :: rest) => .block 0x04 (resultType result) ::
      (flattenAll thenBody ++ (.plain 0x05 :: (flatten i ++ (flattenAll rest ++ [.plain 0x0b]))))
  | .br depth => [.index 0x0c depth]
  | .brIf depth => [.index 0x0d depth]
  | .ret => [.plain 0x0f]
  | .unreachable => [.plain 0x00]

end

mutual

/-- All locals that the code reads or writes satisfy `P`. -/
def LocalsIn (P : ℕ → Prop) : List Instr → Prop
  | [] => True
  | i :: rest => LocalsInInstr P i ∧ LocalsIn P rest

def LocalsInInstr (P : ℕ → Prop) : Instr → Prop
  | .localGet i | .localSet i | .localTee i => P i
  | .block _ body | .loop body => LocalsIn P body
  | .ite _ thenBody elseBody => LocalsIn P thenBody ∧ LocalsIn P elseBody
  | _ => True

end

end Flatten

end NixWasm.FlatCode
