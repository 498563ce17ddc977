import NixWasm.JsMap
import NixWasm.Leb
import NixWasm.Unicode

/-!
The build step that makes every exported function of a side module reachable by name:
exported functions that are not in the element segment are appended to it, and the map
from names to slots is recorded in a `cb.dynsym` section. It works on raw sections and
rebuilds the four it touches. Leaving with an error and raising both read as `none`.
-/
namespace NixWasm.DynsymInject

open Bytes Bytes.Reader Unicode

/-- A string, by code points. -/
abbrev Str := List ℕ

def literal (s : String) : Str := s.toList.map Char.toNat

def encodeUtf8 (s : Str) : List UInt8 := s.flatMap encodeScalar

/-- Strict decoding: bytes that are the encoding of no string are refused. -/
def decodeUtf8 (bs : List UInt8) : Option Str :=
  if encodeUtf8 (decodeFrom none bs) = bs then some (decodeFrom none bs) else none

def secCustom : UInt8 := 0
def secImport : UInt8 := 2
def secExport : UInt8 := 7
def secElem : UInt8 := 9

def kindFunc : UInt8 := 0
def kindTable : UInt8 := 1
def kindMem : UInt8 := 2
def kindGlobal : UInt8 := 3
def kindTag : UInt8 := 4

def wasmDylinkMemInfo : UInt8 := 1

def writeUleb (v : ℕ) : List UInt8 := (Leb.ofNat v).bytes

def readName : Reader Str := do
  let n ← uleb
  let raw ← upTo n
  ofOption (decodeUtf8 raw)

structure Section where
  id : UInt8
  body : List UInt8
  deriving DecidableEq

def Section.encode (s : Section) : List UInt8 := s.id :: writeUleb s.body.length ++ s.body

def sectionsFrom : ℕ → List UInt8 → Option (List Section)
  | _, [] => some []
  | 0, _ => none
  | fuel + 1, id :: rest => do
    let (size, rest) ← uleb rest
    let sections ← sectionsFrom fuel (rest.drop size)
    return ⟨id, rest.take size⟩ :: sections

def magic : List UInt8 := [0, 0x61, 0x73, 0x6d]

/-- Each section takes two bytes at least, so one round for each byte is enough. -/
def parseSections (b : List UInt8) : Option (List Section) :=
  if b.take 4 ≠ magic then none else sectionsFrom b.length (b.drop 8)

def customName (s : Section) : Option Str := (readName s.body).map Prod.fst

/-- A custom section of the given name. -/
def isCustom (name : Str) (s : Section) : Bool :=
  s.id = secCustom ∧ customName s = some name

def exportEntry : Reader (Str × UInt8 × ℕ) := do
  let name ← readName
  let kind ← byte
  let index ← uleb
  return (name, kind, index)

def readExports : Reader (List (Str × ℕ)) := do
  let n ← uleb
  let entries ← items exportEntry n
  return entries.filterMap fun e => if e.2.1 = kindFunc then some (e.1, e.2.2) else none

/-- The exported functions of all export sections. -/
def exportedFuncs : List Section → Option (List (Str × ℕ))
  | [] => some []
  | s :: rest =>
    if s.id = secExport then do
      let (here, _) ← readExports s.body
      let later ← exportedFuncs rest
      return here ++ later
    else exportedFuncs rest

structure ElemSegment where
  offsetExpr : List UInt8
  funcs : List ℕ

def offsetOperand (op : UInt8) : Reader Unit :=
  if op = 0x41 then anyLeb
  else if op = 0x23 then do
    let _ ← uleb
    return ()
  else ofOption none

def offsetExpr : Reader Unit := do
  let op ← byte
  offsetOperand op
  let last ← byte
  require (last = 0x0b)

def readElem : Reader ElemSegment := do
  let n ← uleb
  require (n = 1)
  let flags ← uleb
  require (flags = 0)
  let (expr, _) ← consumed offsetExpr
  let cnt ← uleb
  let funcs ← items uleb cnt
  return ⟨expr, funcs⟩

/-- The segment the new section starts from when there is none: offset `i32.const 0`. -/
def noElem : ElemSegment := ⟨[0x41, 0x00, 0x0b], []⟩

/-- The last section of a kind is the one the loop over the sections keeps. -/
def lastSection (p : Section → Bool) (sections : List Section) : Option Section :=
  sections.reverse.find? p

/-- Replace the body of the last section of a kind. -/
def updateLast (p : Section → Bool) (f : List UInt8 → Option (List UInt8)) :
    List Section → Option (List Section)
  | [] => some []
  | s :: rest =>
    if p s ∧ ¬ rest.any p then do
      let body ← f s.body
      return { s with body := body } :: rest
    else do
      let rest ← updateLast p f rest
      return s :: rest

/-- What the loop over the exported functions carries. -/
structure Assignment where
  slotOf : JsMap ℕ ℕ
  added : List ℕ
  dynsym : List (Str × ℕ)

/-- Each function of the segment by its first slot. -/
def initialSlots (funcs : List ℕ) : JsMap ℕ ℕ :=
  funcs.zipIdx.reverse.foldl (fun m e => m.set e.1 e.2) JsMap.empty

def assignOne (only : Option (Str → Bool)) (elemCount : ℕ) (a : Assignment) (e : Str × ℕ) :
    Assignment :=
  match a.slotOf.get e.2 with
  | some slot => { a with dynsym := a.dynsym ++ [(e.1, slot)] }
  | none =>
    if only.all fun search => search e.1 then
      { slotOf := a.slotOf.set e.2 (elemCount + a.added.length)
        added := a.added ++ [e.2]
        dynsym := a.dynsym ++ [(e.1, elemCount + a.added.length)] }
    else a

def assign (only : Option (Str → Bool)) (funcs : List ℕ) (exported : List (Str × ℕ)) :
    Assignment :=
  exported.foldl (assignOne only funcs.length) ⟨initialSlots funcs, [], []⟩

def elemBody (seg : ElemSegment) (added : List ℕ) : List UInt8 :=
  writeUleb 1 ++ (writeUleb 0 ++ (seg.offsetExpr ++
    (writeUleb (seg.funcs.length + added.length) ++ (seg.funcs ++ added).flatMap writeUleb)))

/-- A new element section goes before the first section with a higher number. -/
def insertElem (elem : Section) : List Section → List Section
  | [] => [elem]
  | s :: rest =>
    if s.id > secElem ∧ s.id ≠ secCustom then elem :: s :: rest else s :: insertElem elem rest

def optionalMax (flags : ℕ) : Reader (Option ℕ) :=
  if flags % 2 = 1 then some <$> uleb else pure none

def bumpTable (n : ℕ) : Reader (List UInt8) := do
  let refType ← upTo 1
  let flags ← uleb
  let initial ← uleb
  let max ← optionalMax flags
  return refType ++ (writeUleb flags ++ (writeUleb (initial + n) ++
    (max.map fun m => writeUleb (m + n)).getD []))

def skipLimits : Reader Unit := do
  let flags ← uleb
  let _ ← uleb
  let _ ← optionalMax flags
  return ()

/-- What follows the kind of an import that is not a table. -/
def importTail (kind : UInt8) : Reader Unit :=
  if kind = kindFunc then do
    let _ ← uleb
    return ()
  else if kind = kindMem then skipLimits
  else if kind = kindGlobal then do
    let _ ← upTo 2
    return ()
  else if kind = kindTag then do
    let _ ← upTo 1
    let _ ← uleb
    return ()
  else ofOption none

def importHead : Reader UInt8 := do
  let _ ← readName
  let _ ← readName
  byte

def importRest (n : ℕ) (kind : UInt8) : Reader (List UInt8) :=
  if kind = kindTable then bumpTable n
  else do
    let (tail, _) ← consumed (importTail kind)
    return tail

/-- One import as written out again, its table size raised by `n`. -/
def bumpImport (n : ℕ) : Reader (List UInt8) := do
  let (head, kind) ← consumed importHead
  let rest ← importRest n kind
  return head ++ rest

def bumpImports (n : ℕ) (body : List UInt8) : Option (List UInt8) := do
  let (count, rest) ← uleb body
  let (entries, _) ← items (bumpImport n) count rest
  return writeUleb count ++ entries.flatten

structure MemInfo where
  memSize : ℕ
  memAlign : ℕ
  tableSize : ℕ
  tableAlign : ℕ
  deriving DecidableEq

def memInfo : Reader MemInfo := do
  let memSize ← uleb
  let memAlign ← uleb
  let tableSize ← uleb
  let tableAlign ← uleb
  return ⟨memSize, memAlign, tableSize, tableAlign⟩

def MemInfo.encode (m : MemInfo) : List UInt8 :=
  writeUleb m.memSize ++ (writeUleb m.memAlign ++ (writeUleb m.tableSize ++ writeUleb m.tableAlign))

def subsection (id : UInt8) (body : List UInt8) : List UInt8 :=
  id :: (writeUleb body.length ++ body)

/-- The subsections of `dylink.0` with the table size of `MEM_INFO` raised by `n`. The
size of any other subsection is kept, also when fewer bytes follow. -/
def bumpSubsections (n : ℕ) : ℕ → List UInt8 → Option (List UInt8)
  | _, [] => some []
  | 0, _ => none
  | fuel + 1, sub :: rest => do
    let (size, rest) ← uleb rest
    let later ← bumpSubsections n fuel (rest.drop size)
    if sub = wasmDylinkMemInfo then
      let (m, _) ← memInfo rest
      return subsection sub { m with tableSize := m.tableSize + n }.encode ++ later
    else return sub :: (writeUleb size ++ rest.take size) ++ later

def bumpDylink (n : ℕ) (body : List UInt8) : Option (List UInt8) := do
  let ((name, _), rest) ← consumed readName body
  let subs ← bumpSubsections n rest.length rest
  return name ++ subs

def dynsymEntry (e : Str × ℕ) : List UInt8 :=
  writeUleb (encodeUtf8 e.1).length ++ (encodeUtf8 e.1 ++ writeUleb e.2)

def dynsymSection (dynsym : List (Str × ℕ)) : Section where
  id := secCustom
  body := writeUleb (encodeUtf8 (literal "cb.dynsym")).length ++
    (encodeUtf8 (literal "cb.dynsym") ++
      (writeUleb dynsym.length ++ dynsym.flatMap dynsymEntry))

def placeElem (present : Bool) (body : List UInt8) (sections : List Section) :
    Option (List Section) :=
  if present then updateLast (fun s => s.id = secElem) (fun _ => some body) sections
  else some (insertElem ⟨secElem, body⟩ sections)

def outputBytes (sections : List Section) : List UInt8 :=
  magic ++ ([1, 0, 0, 0] ++ sections.flatMap Section.encode)

def readSegment (sections : List Section) : Option ElemSegment :=
  match lastSection (fun s => s.id = secElem) sections with
  | none => some noElem
  | some s => (readElem s.body).map Prod.fst

/-- The sections of the output, from those of the input. -/
def rebuild (only : Option (Str → Bool)) (sections : List Section) : Option (List Section) :=
  if ¬ sections.all fun s => s.id ≠ secCustom ∨ (customName s).isSome then none
  else if ¬ sections.any (isCustom (literal "dylink.0")) then none
  else do
    let exported ← exportedFuncs sections
    let seg ← readSegment sections
    let a := assign only seg.funcs exported
    let present := sections.any fun s => s.id = secElem
    let sections ← placeElem present (elemBody seg a.added) sections
    let sections ← updateLast (fun s => s.id = secImport) (bumpImports a.added.length) sections
    let sections ← updateLast (isCustom (literal "dylink.0")) (bumpDylink a.added.length) sections
    return sections.filter (fun s => ¬ isCustom (literal "cb.dynsym") s) ++ [dynsymSection a.dynsym]

/-- The whole transformation: a module's bytes to the bytes written out. -/
def inject (only : Option (Str → Bool)) (data : List UInt8) : Option (List UInt8) := do
  let sections ← parseSections data
  let sections ← rebuild only sections
  return outputBytes sections

end NixWasm.DynsymInject
