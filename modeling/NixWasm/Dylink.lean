import NixWasm.Cursor
import NixWasm.JsMap
import NixWasm.Unicode

/-!
The reader of dynamically linked modules: from the bytes of a module to the parts the
loader needs, which are its `dylink.0` requirements, types, imports, exports, the
single element segment and the `cb.dynsym` map from names to element slots. Positions
are absolute and each section ends where its size says, whatever was read inside.
-/
namespace NixWasm.Dylink

open Cursor Unicode

/-- The code units of an ASCII literal. -/
def ascii (s : String) : Utf16 := s.toList.map fun c => UInt16.ofNat c.toNat

/-- What the reader throws. -/
inductive ParseError where
  | badMagic
  | unknownImportKind (kind : Option UInt8)
  | unsupportedElemFlags (flags : ℕ)
  | unsupportedElemOffset (op : Option UInt8)
  | elemOffsetNotTerminated
  | multipleElemSegments
  deriving DecidableEq

structure DylinkSection where
  memSize : ℕ
  memAlign : ℕ
  tableSize : ℕ
  tableAlign : ℕ
  needed : List Utf16
  deriving DecidableEq

structure FuncType where
  params : List (Option UInt8)
  results : List (Option UInt8)
  deriving DecidableEq

structure Import where
  module : Utf16
  name : Utf16
  kind : Option UInt8
  deriving DecidableEq

structure Export where
  name : Utf16
  kind : Option UInt8
  index : ℕ
  deriving DecidableEq

/-- Where an element segment starts. The loader reads the global's index and drops it;
it is kept here for the engine, which evaluates the same bytes. -/
inductive Offset where
  | const (value : ℤ)
  | global (index : ℕ)
  deriving DecidableEq

structure Elem where
  offset : Offset
  funcIndices : List ℕ
  deriving DecidableEq

structure Info where
  dylink : Option DylinkSection
  imports : List Import
  funcImportCount : ℕ
  tableImportInitial : ℕ
  exports : List Export
  elem : Option Elem
  dynsym : JsMap Utf16 ℕ
  fpcast : Bool
  types : List FuncType
  funcImportTypes : List ℕ
  funcTypes : List ℕ

def Info.initial : Info where
  dylink := none
  imports := []
  funcImportCount := 0
  tableImportInitial := 0
  exports := []
  elem := none
  dynsym := JsMap.empty
  fpcast := false
  types := []
  funcImportTypes := []
  funcTypes := []

abbrev Parser := Cursor.Read ParseError

def kindFunc : Option UInt8 := some 0
def kindTable : Option UInt8 := some 1
def kindMem : Option UInt8 := some 2
def kindGlobal : Option UInt8 := some 3
def kindTag : Option UInt8 := some 4

def canonicalParams : ℕ := 128

/-- The wide signature every function pointer of an fpcast build has. -/
def canonicalType : FuncType where
  params := List.replicate canonicalParams (some 0x7e)
  results := [some 0x7e]

/-- The type section up to its first entry that is not a function type. -/
def typeSection (info : Info) : ℕ → Parser Info
  | 0 => pure info
  | k + 1 => do
    let tag ← u8
    if tag ≠ some 0x60 then pure info
    else
      let np ← uleb
      let params ← times np u8
      let nr ← uleb
      let results ← times nr u8
      let type : FuncType := ⟨params, results⟩
      typeSection { info with
        types := info.types ++ [type]
        fpcast := info.fpcast || decide (type = canonicalType) } k

section Names

variable (decode : List UInt8 → Utf16)

def dynsymEntry : Parser (Utf16 × ℕ) := do
  let sym ← Cursor.name decode
  let slot ← uleb
  return (sym, slot)

def dynsymSection (info : Info) : Parser Info := do
  let n ← uleb
  let entries ← times n (dynsymEntry decode)
  return { info with dynsym := entries.foldl (fun m e => m.set e.1 e.2) info.dynsym }

/-- One subsection of `dylink.0`: `MEM_INFO` is 1 and `NEEDED` is 2. -/
def dylinkSubsection (sub : Option UInt8) (d : DylinkSection) : Parser DylinkSection :=
  if sub = some 1 then do
    let memSize ← uleb
    let memAlign ← uleb
    let tableSize ← uleb
    let tableAlign ← uleb
    return { d with memSize, memAlign, tableSize, tableAlign }
  else if sub = some 2 then do
    let n ← uleb
    let needed ← times n (Cursor.name decode)
    return { d with needed := d.needed ++ needed }
  else pure d

/-- Each subsection moves at least two bytes on, so `stop` rounds are enough. -/
def dylinkSubsections (stop : ℕ) : ℕ → DylinkSection → Parser DylinkSection
  | 0, d => pure d
  | fuel + 1, d => do
    let i ← position
    if i < stop then
      let sub ← u8
      let size ← uleb
      let start ← position
      let d ← dylinkSubsection decode sub d
      seek (start + size)
      dylinkSubsections stop fuel d
    else pure d

def dylinkSection (stop : ℕ) (info : Info) : Parser Info := do
  let d ← dylinkSubsections decode stop stop ⟨0, 0, 0, 0, []⟩
  return { info with dylink := some d }

def customSection (stop : ℕ) (info : Info) : Parser Info := do
  let name ← Cursor.name decode
  if name = ascii "cb.dynsym" then dynsymSection decode info
  else if name = ascii "dylink.0" then dylinkSection decode stop info
  else pure info

/-- The maximum of a limits encoding, there when the first flag is set. -/
def limitsMax (flags : ℕ) : Parser ℕ := if flags % 2 = 1 then uleb else pure 0

def skipLimits : Parser ℕ := do
  let flags ← uleb
  let _ ← uleb
  let _ ← limitsMax flags
  return flags

/-- What follows the names and the kind of an import. -/
def importDescription (kind : Option UInt8) (info : Info) : Parser Info :=
  if kind = kindFunc then do
    let type ← uleb
    return { info with
      funcImportTypes := info.funcImportTypes ++ [type]
      funcImportCount := info.funcImportCount + 1 }
  else if kind = kindTable then do
    let _ ← u8
    let flags ← uleb
    let initial ← uleb
    let _ ← limitsMax flags
    return { info with tableImportInitial := initial }
  else if kind = kindMem then do
    let _ ← skipLimits
    return info
  else if kind = kindGlobal then do
    skip 2
    return info
  else if kind = kindTag then do
    let _ ← u8
    let _ ← uleb
    return info
  else fail (.unknownImportKind kind)

def importSection (info : Info) : ℕ → Parser Info
  | 0 => pure info
  | k + 1 => do
    let module ← Cursor.name decode
    let name ← Cursor.name decode
    let kind ← u8
    let info ← importDescription kind
      { info with imports := info.imports ++ [⟨module, name, kind⟩] }
    importSection info k

def exportEntry : Parser Export := do
  let name ← Cursor.name decode
  let kind ← u8
  let index ← uleb
  return ⟨name, kind, index⟩

def elemOffset : Parser Offset := do
  let op ← u8
  if op = some 0x41 then Offset.const <$> sleb
  else if op = some 0x23 then Offset.global <$> uleb
  else fail (.unsupportedElemOffset op)

/-- One element segment: active, of functions, and the only one of its module. -/
def elemSegment (info : Info) : Parser Info := do
  let flags ← uleb
  if flags ≠ 0 then fail (.unsupportedElemFlags flags)
  else
    let offset ← elemOffset
    let last ← u8
    if last ≠ some 0x0b then fail .elemOffsetNotTerminated
    else
      let count ← uleb
      let funcIndices ← times count uleb
      if info.elem.isSome then fail .multipleElemSegments
      else return { info with elem := some ⟨offset, funcIndices⟩ }

def elemSection (info : Info) : ℕ → Parser Info
  | 0 => pure info
  | k + 1 => do
    let info ← elemSegment info
    elemSection info k

/-- The body of the section with number `id` that ends before `stop`. -/
def sectionBody (id : Option UInt8) (stop : ℕ) (info : Info) : Parser Info :=
  if id = some 1 then do
    let n ← uleb
    typeSection info n
  else if id = some 0 then customSection decode stop info
  else if id = some 2 then do
    let n ← uleb
    importSection decode info n
  else if id = some 3 then do
    let n ← uleb
    let types ← times n uleb
    return { info with funcTypes := info.funcTypes ++ types }
  else if id = some 7 then do
    let n ← uleb
    let exports ← times n (exportEntry decode)
    return { info with exports := info.exports ++ exports }
  else if id = some 9 then do
    let n ← uleb
    elemSection info n
  else pure info

/-- Each section moves at least two bytes on, so one round for each byte is enough. -/
def sections : ℕ → Info → Parser Info
  | 0, info => pure info
  | fuel + 1, info => do
    let i ← position
    let length ← inputLength
    if i < length then
      let id ← u8
      let size ← uleb
      let start ← position
      let info ← sectionBody decode id (start + size) info
      seek (start + size)
      sections fuel info
    else pure info

/-- The parts of a module, its names decoded by `decode`. -/
def parseWith (bytes : List UInt8) : Except ParseError Info :=
  if bytes.length < 8 ∨ bytes.take 4 ≠ [0, 0x61, 0x73, 0x6d] then .error .badMagic
  else (sections decode bytes.length .initial bytes 8).map Prod.fst

end Names

/-- The loader's reading: names go through `TextDecoder`. -/
def parseDylinkModule (bytes : List UInt8) : Except ParseError Info :=
  parseWith utf8Decode bytes

inductive ValType where
  | i32 | i64 | f32 | f64
  deriving DecidableEq

def vtName (b : Option UInt8) : Option ValType :=
  if b = some 0x7f then some .i32
  else if b = some 0x7e then some .i64
  else if b = some 0x7d then some .f32
  else if b = some 0x7c then some .f64
  else none

structure FfiSignature where
  params : List ValType
  result : Option ValType
  deriving DecidableEq

/-- Type of the function at `index` of the module's function index space. -/
def Info.typeOf (info : Info) (index : ℕ) : Option FuncType :=
  (if index < info.funcImportCount then info.funcImportTypes[index]?
    else info.funcTypes[index - info.funcImportCount]?).bind fun ti => info.types[ti]?

/-- Raw signature of a type that the canonical ABI can marshal. -/
def signatureOf (t : FuncType) : Option FfiSignature :=
  match t.results with
  | [] => do return ⟨← t.params.mapM vtName, none⟩
  | [r] => do return ⟨← t.params.mapM vtName, some (← vtName r)⟩
  | _ => none

/-- Name to raw signature; the last function export of a name counts. -/
def buildSigLookup (info : Info) (name : Utf16) : Option FfiSignature := do
  let e ← (info.exports.filter fun e => e.kind = kindFunc ∧ e.name = name).getLast?
  let t ← info.typeOf e.index
  signatureOf t

/-- First slot of a function in the element segment. -/
def slotByFuncIndex (elem : Elem) (index : ℕ) : Option ℕ :=
  elem.funcIndices.findIdx? (· = index)

def exportSlots (elem : Elem) : List Export → JsMap Utf16 ℕ → JsMap Utf16 ℕ
  | [], slots => slots
  | e :: rest, slots =>
    if e.kind ≠ kindFunc then exportSlots elem rest slots
    else
      match slotByFuncIndex elem e.index with
      | some slot => exportSlots elem rest (slots.set e.name slot)
      | none => exportSlots elem rest slots

/-- Exported function names to slots relative to the table base. The `cb.dynsym` map
is authoritative when it is there. -/
def exportedElemSlots (info : Info) : JsMap Utf16 ℕ :=
  if info.dynsym.entries ≠ [] then info.dynsym
  else
    match info.elem with
    | none => JsMap.empty
    | some elem => exportSlots elem info.exports JsMap.empty

/-- Number of entries of the element segment. -/
def Info.elemCount (info : Info) : ℕ := (info.elem.map fun e => e.funcIndices.length).getD 0

/-- The fpcast flag tells whether the type section has the canonical type. -/
def Info.Flagged (info : Info) : Prop := info.fpcast = true ↔ canonicalType ∈ info.types

section Flagged

variable {decode : List UInt8 → Utf16} {info : Info}

theorem typeSection_flagged (h : info.Flagged) (k : ℕ) :
    Always Info.Flagged (typeSection info k) := by
  induction k generalizing info with
  | zero => exact always_pure h
  | succ k ih =>
    simp only [typeSection]
    refine always_seq fun tag => ?_
    split
    · exact always_pure h
    · refine always_seq fun np => always_seq fun params => always_seq fun nr =>
        always_seq fun results => ih ?_
      unfold Info.Flagged at h ⊢
      simp only [Bool.or_eq_true, decide_eq_true_eq, List.mem_append, List.mem_singleton, h,
        @eq_comm _ canonicalType]

theorem customSection_flagged (h : info.Flagged) (stop : ℕ) :
    Always Info.Flagged (customSection decode stop info) := by
  unfold customSection
  refine always_seq fun name => ?_
  split
  · exact always_seq fun n => always_seq fun entries => always_pure h
  · split
    · exact always_seq fun d => always_pure h
    · exact always_pure h

theorem importDescription_flagged (h : info.Flagged) (kind : Option UInt8) :
    Always Info.Flagged (importDescription kind info) := by
  unfold importDescription
  split
  · exact always_seq fun type => always_pure h
  · split
    · exact always_seq fun _ => always_seq fun flags => always_seq fun initial =>
        always_seq fun _ => always_pure h
    · split
      · exact always_seq fun _ => always_pure h
      · split
        · exact always_seq fun _ => always_pure h
        · split
          · exact always_seq fun _ => always_seq fun _ => always_pure h
          · exact always_fail _

theorem importSection_flagged (h : info.Flagged) (k : ℕ) :
    Always Info.Flagged (importSection decode info k) := by
  induction k generalizing info with
  | zero => exact always_pure h
  | succ k ih =>
    refine always_seq fun module => always_seq fun name => always_seq fun kind =>
      always_bind (importDescription_flagged ?_ kind) fun _ hinfo => ih hinfo
    exact h

theorem elemSegment_flagged (h : info.Flagged) : Always Info.Flagged (elemSegment info) := by
  unfold elemSegment
  refine always_seq fun flags => ?_
  split
  · exact always_fail _
  · refine always_seq fun offset => always_seq fun last => ?_
    split
    · exact always_fail _
    · refine always_seq fun count => always_seq fun funcIndices => ?_
      split
      · exact always_fail _
      · exact always_pure h

theorem elemSection_flagged (h : info.Flagged) (k : ℕ) :
    Always Info.Flagged (elemSection info k) := by
  induction k generalizing info with
  | zero => exact always_pure h
  | succ k ih => exact always_bind (elemSegment_flagged h) fun _ hinfo => ih hinfo

theorem sectionBody_flagged (h : info.Flagged) (id : Option UInt8) (stop : ℕ) :
    Always Info.Flagged (sectionBody decode id stop info) := by
  unfold sectionBody
  split
  · exact always_seq fun n => typeSection_flagged h n
  · split
    · exact customSection_flagged h stop
    · split
      · exact always_seq fun n => importSection_flagged h n
      · split
        · exact always_seq fun n => always_seq fun types => always_pure h
        · split
          · exact always_seq fun n => always_seq fun exports => always_pure h
          · split
            · exact always_seq fun n => elemSection_flagged h n
            · exact always_pure h

theorem sections_flagged (h : info.Flagged) (fuel : ℕ) :
    Always Info.Flagged (sections decode fuel info) := by
  induction fuel generalizing info with
  | zero => exact always_pure h
  | succ fuel ih =>
    simp only [sections]
    refine always_seq fun i => always_seq fun length => ?_
    split
    · exact always_seq fun id => always_seq fun size => always_seq fun start =>
        always_bind (sectionBody_flagged h id (start + size)) fun _ hinfo =>
          always_seq fun _ => ih hinfo
    · exact always_pure h

end Flagged

/-- A parsed module is flagged as an fpcast build exactly when it has the type. -/
theorem parseWith_fpcast {decode : List UInt8 → Utf16} {bytes : List UInt8} {info : Info}
    (h : parseWith decode bytes = .ok info) :
    info.fpcast = true ↔ canonicalType ∈ info.types := by
  unfold parseWith at h
  split at h
  · cases h
  · cases hread : sections decode bytes.length .initial bytes 8 with
    | error e => simp [hread, Except.map] at h
    | ok x =>
      obtain ⟨info', j⟩ := x
      rw [hread] at h
      cases h
      exact sections_flagged (by simp [Info.Flagged, Info.initial]) _ bytes 8 info' j hread

/-- A module without the canonical type has no function of that type. -/
theorem typeOf_mem_types {info : Info} {index : ℕ} {t : FuncType}
    (h : info.typeOf index = some t) : t ∈ info.types := by
  unfold Info.typeOf at h
  obtain ⟨ti, -, ht⟩ := Option.bind_eq_some_iff.mp h
  exact List.mem_of_getElem? ht

/-- A slot of the export map comes from a function export whose index the segment has
there. -/
theorem exportSlots_get {elem : Elem} {exports : List Export} {slots : JsMap Utf16 ℕ}
    {name : Utf16} {slot : ℕ} (h : (exportSlots elem exports slots).get name = some slot) :
    slots.get name = some slot ∨ ∃ e ∈ exports, e.name = name ∧ e.kind = kindFunc ∧
      elem.funcIndices[slot]? = some e.index := by
  induction exports generalizing slots with
  | nil => exact .inl h
  | cons e rest ih =>
    have htail : (∃ x ∈ rest, x.name = name ∧ x.kind = kindFunc ∧
        elem.funcIndices[slot]? = some x.index) → ∃ x ∈ e :: rest, x.name = name ∧
        x.kind = kindFunc ∧ elem.funcIndices[slot]? = some x.index := by
      rintro ⟨x, hx, hrest⟩
      exact ⟨x, List.mem_cons_of_mem e hx, hrest⟩
    simp only [exportSlots] at h
    split at h
    · exact (ih h).imp_right htail
    · rename_i hkind
      split at h
      · rename_i found hfound
        rcases ih h with hset | hrest
        · by_cases hname : name = e.name
          · rw [hname, JsMap.get_set_self] at hset
            obtain rfl : found = slot := Option.some.inj hset
            refine .inr ⟨e, List.mem_cons_self .., hname.symm, not_not.mp hkind, ?_⟩
            obtain ⟨hlt, heq, -⟩ := List.findIdx?_eq_some_iff_getElem.mp hfound
            rw [List.getElem?_eq_getElem hlt]
            simpa using heq
          · rw [JsMap.get_set_of_ne _ _ hname] at hset
            exact .inl hset
        · exact .inr (htail hrest)
      · exact (ih h).imp_right htail

end NixWasm.Dylink
