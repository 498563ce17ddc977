import NixWasm.DynsymInject
import NixWasm.Dylink

/-!
Well-formed side modules, as values. A module is a list of sections in a valid order,
one of them `dylink.0`; numbers are kept as written, with their paddings, and every
length, count and size agrees with what it counts. Sections that neither the injector
nor the loader's segment code looks into stay byte strings.
-/
namespace NixWasm

open DynsymInject Unicode

namespace SideModule

/-- A length-prefixed UTF-8 string. -/
structure Name where
  length : Leb
  text : Str
  scalars : ∀ c ∈ text, IsScalar c
  counted : length.value = (encodeUtf8 text).length

def Name.bytes (n : Name) : List UInt8 := n.length.bytes ++ encodeUtf8 n.text

/-- A vector with its count as written. -/
structure Vec (α : Type) where
  count : Leb
  items : List α
  counted : count.value = items.length

namespace Vec

variable {α β : Type}

def bytes (write : α → List UInt8) (v : Vec α) : List UInt8 :=
  v.count.bytes ++ v.items.flatMap write

def ofList (items : List α) : Vec α := ⟨Leb.ofNat items.length, items, by simp⟩

end Vec

/-- Limits; the maximum is there when the lowest flag is set. -/
structure Limits where
  flags : Leb
  min : Leb
  max : Option Leb
  bounded : max.isSome = decide (flags.value % 2 = 1)

theorem Limits.unbounded :
    (none : Option Leb).isSome = decide ((Leb.ofNat 0).value % 2 = 1) := rfl

def Limits.bytes (l : Limits) : List UInt8 :=
  l.flags.bytes ++ (l.min.bytes ++ (l.max.map Leb.bytes).getD [])

def Limits.values (l : Limits) : ℕ × Option ℕ := (l.min.value, l.max.map Leb.value)

inductive ImportDesc where
  | func (type : Leb)
  | table (refType : UInt8) (limits : Limits)
  | mem (limits : Limits)
  | global (valType mutability : UInt8)
  | tag (attr : UInt8) (type : Leb)

namespace ImportDesc

def kind : ImportDesc → UInt8
  | func _ => kindFunc
  | table _ _ => kindTable
  | mem _ => kindMem
  | global _ _ => kindGlobal
  | tag _ _ => kindTag

def bytes : ImportDesc → List UInt8
  | func type => type.bytes
  | table refType limits => refType :: limits.bytes
  | mem limits => limits.bytes
  | global valType mutability => [valType, mutability]
  | tag attr type => attr :: type.bytes

/-- Limits of a table. -/
def tableLimits : ImportDesc → Option (ℕ × Option ℕ)
  | table _ limits => some limits.values
  | _ => none

end ImportDesc

structure Import where
  module : Name
  name : Name
  desc : ImportDesc

def Import.bytes (i : Import) : List UInt8 :=
  i.module.bytes ++ (i.name.bytes ++ (i.desc.kind :: i.desc.bytes))

structure Export where
  name : Name
  kind : UInt8
  index : Leb

def Export.bytes (e : Export) : List UInt8 := e.name.bytes ++ (e.kind :: e.index.bytes)

inductive OffsetExpr where
  | const (value : Leb)
  | global (index : Leb)

def OffsetExpr.bytes : OffsetExpr → List UInt8
  | const value => 0x41 :: (value.bytes ++ [0x0b])
  | global index => 0x23 :: (index.bytes ++ [0x0b])

/-- Where the segment starts, as the loader's reader has it. -/
def OffsetExpr.value : OffsetExpr → Dylink.Offset
  | const value => .const (Cursor.signedValue value)
  | global index => .global index.value

/-- An active segment of function indices for table 0. -/
structure Segment where
  flags : Leb
  active : flags.value = 0
  offset : OffsetExpr
  funcs : Vec Leb

def Segment.bytes (s : Segment) : List UInt8 :=
  s.flags.bytes ++ (s.offset.bytes ++ s.funcs.bytes Leb.bytes)

def Segment.indices (s : Segment) : List ℕ := s.funcs.items.map Leb.value

/-- A subsection of `dylink.0`. -/
inductive Sub where
  | memInfo (size memSize memAlign tableSize tableAlign : Leb)
      (sized : size.value = (memSize.bytes ++ (memAlign.bytes ++
        (tableSize.bytes ++ tableAlign.bytes))).length)
  | other (id : UInt8) (size : Leb) (payload : List UInt8) (notMemInfo : id ≠ wasmDylinkMemInfo)
      (sized : size.value = payload.length)

namespace Sub

def bytes : Sub → List UInt8
  | memInfo size memSize memAlign tableSize tableAlign _ =>
    wasmDylinkMemInfo :: (size.bytes ++ (memSize.bytes ++ (memAlign.bytes ++
      (tableSize.bytes ++ tableAlign.bytes))))
  | other id size payload _ _ => id :: (size.bytes ++ payload)

/-- What a `MEM_INFO` subsection sets. -/
def sets : Sub → Option MemInfo
  | memInfo _ memSize memAlign tableSize tableAlign _ =>
    some ⟨memSize.value, memAlign.value, tableSize.value, tableAlign.value⟩
  | other .. => none

end Sub

/-- Numbers of the sections that are kept as byte strings. -/
def plainIds : List UInt8 := [1, 3, 4, 5, 6, 8, 10, 11, 12, 13]

inductive Content where
  | custom (name : Name) (payload : List UInt8) (notDylink : name.text ≠ literal "dylink.0")
  | dylink (name : Name) (subs : List Sub) (named : name.text = literal "dylink.0")
  | imports (entries : Vec Import)
  | exports (entries : Vec Export)
  | elem (segments : Vec Segment) (single : segments.items.length ≤ 1)
  | plain (id : UInt8) (body : List UInt8) (listed : id ∈ plainIds)

namespace Content

def id : Content → UInt8
  | custom .. => secCustom
  | dylink .. => secCustom
  | imports _ => secImport
  | exports _ => secExport
  | elem _ _ => secElem
  | plain id _ _ => id

def body : Content → List UInt8
  | custom name payload _ => name.bytes ++ payload
  | dylink name subs _ => name.bytes ++ subs.flatMap Sub.bytes
  | imports entries => entries.bytes Import.bytes
  | exports entries => entries.bytes Export.bytes
  | elem segments _ => segments.bytes Segment.bytes
  | plain _ body _ => body

def isDylink : Content → Bool
  | dylink .. => true
  | _ => false

def importEntries : Content → List Import
  | imports entries => entries.items
  | _ => []

def exportEntries : Content → List Export
  | exports entries => entries.items
  | _ => []

def segments : Content → List Segment
  | elem segments _ => segments.items
  | _ => []

def subs : Content → List Sub
  | dylink _ subs _ => subs
  | _ => []

end Content

/-- A section with its size as written. -/
structure Sec where
  size : Leb
  content : Content
  sized : size.value = content.body.length

namespace Sec

def bytes (s : Sec) : List UInt8 := s.content.id :: (s.size.bytes ++ s.content.body)

/-- The section as the injector keeps it. -/
def raw (s : Sec) : Section := ⟨s.content.id, s.content.body⟩

def ofContent (c : Content) : Sec := ⟨Leb.ofNat c.body.length, c, by simp⟩

end Sec

/-- Place of a section in a module; custom sections may stand anywhere. Tag sections come
before global ones and data counts before code. -/
def rank (id : UInt8) : Option ℕ :=
  if id = 0 then none
  else if id ≤ 5 then some id.toNat
  else if id = 13 then some 6
  else if id ≤ 9 then some (id.toNat + 1)
  else if id = 12 then some 11
  else some (id.toNat + 2)

/-- Sections stand in the order of their ranks, each at most once. -/
def Ordered (ids : List UInt8) : Prop := (ids.filterMap rank).Pairwise (· < ·)

instance (ids : List UInt8) : Decidable (Ordered ids) :=
    inferInstanceAs (Decidable (List.Pairwise _ _))

def encodeSections (secs : List Sec) : List UInt8 :=
  magic ++ ([1, 0, 0, 0] ++ secs.flatMap Sec.bytes)

end SideModule

open SideModule

/-- A side module of the dynamic linking convention with at most one element segment. -/
structure SideModule where
  sections : List Sec
  ordered : Ordered (sections.map fun s => s.content.id)
  oneDylink : (sections.filter fun s => s.content.isDylink).length = 1
  distinct : (sections.flatMap fun s => s.content.exportEntries.map fun e => e.name.text).Nodup

namespace SideModule

variable (M : SideModule)

def encode : List UInt8 := encodeSections M.sections

def imports : List Import := M.sections.flatMap fun s => s.content.importEntries

def exports : List Export := M.sections.flatMap fun s => s.content.exportEntries

def segments : List Segment := M.sections.flatMap fun s => s.content.segments

def subs : List Sub := M.sections.flatMap fun s => s.content.subs

/-- The functions of the element segment. -/
def elemFuncs : List ℕ := M.segments.flatMap Segment.indices

/-- The exported functions with their names. -/
def functionExports : List (Str × ℕ) :=
  M.exports.filterMap fun e => if e.kind = kindFunc then some (e.name.text, e.index.value) else none

/-- Whether there is an element section, if only an empty one. -/
def hasElem : Bool := M.sections.any fun s => s.content.id = secElem

/-- Limits of the imported tables. -/
def tableLimits : List (ℕ × Option ℕ) := M.imports.filterMap fun i => i.desc.tableLimits

end SideModule

end NixWasm
