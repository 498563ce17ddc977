import NixWasm.DynsymExact

/-!
Four readers of the import section: the two of the soft-MMU pass, the loader's, and the worker's,
which looks for the initial size of the imported table. On every section whose limits have their
flags in one byte they consume the same bytes and list the same functions and globals. They differ
in two things. The pass takes the bytes of a name as characters, where the loader decodes them. And
the worker stops at the first table, where the loader goes on to the last.
-/
namespace NixWasm.ImportWalkers

open Cursor SideModule Unicode DynsymInject

section Walkers
variable {ε : Type}

/-- A flags byte, a minimum, and a maximum when the lowest bit is set. -/
def skipLimits : Read ε Unit := do
  let fl ← u8
  let _ ← uleb
  if (fl.map UInt8.toNat).getD 0 % 2 = 1 then
    let _ ← uleb
    pure ()
  else pure ()

/-- What follows the kind of an import, where nothing of it is kept. An unknown kind has nothing. -/
def skipDescription (ek : Option UInt8) : Read ε Unit :=
  if ek = some 0 then do
    let _ ← uleb
    pure ()
  else if ek = some 1 then do
    let _ ← u8
    skipLimits
  else if ek = some 2 then skipLimits
  else if ek = some 3 then skip 2
  else if ek = some 4 then do
    let _ ← u8
    let _ ← uleb
    pure ()
  else pure ()

def skipName : Read ε Unit := do
  let len ← uleb
  skip len

def countEntries (kind : UInt8) : ℕ → ℕ → Read ε ℕ
  | 0, count => pure count
  | k + 1, count => do
    skipName
    skipName
    let ek ← u8
    skipDescription ek
    countEntries kind k (if ek = some kind then count + 1 else count)

/-- How many imports of a kind there are. -/
def countImports (kind : UInt8) : Read ε ℕ := do
  let n ← uleb
  countEntries kind n 0

/-- `String.fromCharCode` of each byte; past the end the byte is undefined, which makes a NUL. -/
def charCodes (n : ℕ) : Read ε Utf16 := fun bytes i =>
  .ok ((List.range n).map fun k => ((bytes[i + k]?).map UInt8.toUInt16).getD 0, i + n)

def readName : Read ε Utf16 := do
  let len ← uleb
  charCodes len

structure FuncImport where
  module : Utf16
  name : Utf16
  typeIdx : ℕ
deriving DecidableEq

structure GlobalImport where
  module : Utf16
  name : Utf16
  valtype : Option UInt8
  mutable : Option UInt8
deriving DecidableEq

structure Detailed where
  funcs : List FuncImport
  globals : List GlobalImport
deriving DecidableEq

def detailedDescription (module name : Utf16) (ek : Option UInt8) (found : Detailed) :
    Read ε Detailed :=
  if ek = some 0 then do
    let t ← uleb
    return { found with funcs := found.funcs ++ [⟨module, name, t⟩] }
  else if ek = some 3 then do
    let valtype ← u8
    let mutable ← u8
    return { found with globals := found.globals ++ [⟨module, name, valtype, mutable⟩] }
  else do
    skipDescription ek
    return found

def detailedEntries : ℕ → Detailed → Read ε Detailed
  | 0, found => pure found
  | k + 1, found => do
    let module ← readName
    let name ← readName
    let ek ← u8
    let found ← detailedDescription module name ek found
    detailedEntries k found

/-- The function and the global imports, each at its index. -/
def parseImportsDetailed : Read ε Detailed := do
  let n ← uleb
  detailedEntries n ⟨[], []⟩

/-- The worker's loop over the entries; it returns from a table, of which it only skips two
bytes. -/
def tableEntries : ℕ → Read ε (Option ℕ)
  | 0 => pure none
  | k + 1 => do
    skipName
    skipName
    let kind ← u8
    if kind = some 1 then
      let _ ← u8
      let _ ← u8
      let initial ← uleb
      return some initial
    else
      skipDescription kind
      tableEntries k

/-- The body of an import section, for the worker. -/
def tableImports : Read ε (Option ℕ) := do
  let n ← uleb
  tableEntries n

/-- The worker's loop over the sections; each takes a byte or more. -/
def tableSections : ℕ → Read ε ℕ
  | 0 => pure 0
  | fuel + 1 => do
    let i ← position
    let length ← inputLength
    if i < length then
      let id ← u8
      let size ← uleb
      if id = some 2 then
        let initial ← tableImports
        return initial.getD 0
      else
        skip size
        tableSections fuel
    else pure 0

end Walkers

/-- The initial size of the table that a module imports, 0 without one. -/
def tableImportInitial (bytes : List UInt8) : ℕ :=
  match (tableSections bytes.length : Read Empty ℕ) bytes 8 with
  | .ok (initial, _) => initial
  | .error e => e.elim

/-- The flags of the limits are one byte, as the format has it. -/
def PlainFlags : ImportDesc → Prop
  | .table _ limits => limits.flags.more = []
  | .mem limits => limits.flags.more = []
  | _ => True

/-- An import section as written. -/
structure ImportSection where
  entries : Vec Import
  plain : ∀ i ∈ entries.items, PlainFlags i.desc

namespace ImportSection

def bytes (s : ImportSection) : List UInt8 := s.entries.bytes Import.bytes

/-- The limits of the imported tables. -/
def tables (s : ImportSection) : List (ℕ × Option ℕ) :=
  s.entries.items.filterMap fun i => i.desc.tableLimits

end ImportSection

section Skipping
variable {ε : Type}

theorem reads_skipName (n : Name) : Reads (skipName : Read ε Unit) n.bytes () := by
  unfold skipName Name.bytes
  refine reads_bind (reads_uleb n.length) ?_
  rw [n.counted]
  exact reads_skip (encodeUtf8 n.text)

theorem reads_skipLimits (l : Limits) (hplain : l.flags.more = []) :
    Reads (skipLimits : Read ε Unit) l.bytes () := by
  obtain ⟨⟨more, last⟩, min, max, hbounded⟩ := l
  obtain rfl : more = [] := hplain
  have hflag : ((some (UInt8.ofNat last.val)).map UInt8.toNat).getD 0 = last.val :=
    Leb.toNat_final last
  have hvalue : (⟨[], last⟩ : Leb).value = last.val := rfl
  rw [hvalue] at hbounded
  unfold skipLimits Limits.bytes
  refine reads_bind (reads_u8 (UInt8.ofNat last.val)) (reads_bind (reads_uleb min) ?_)
  rw [hflag]
  cases max with
  | none =>
    rw [if_neg (by simpa using hbounded)]
    exact reads_pure ()
  | some m =>
    rw [if_pos (by simpa using hbounded)]
    exact reads_last (reads_uleb m)

theorem reads_skipDescription (d : ImportDesc) (hplain : PlainFlags d) :
    Reads (skipDescription (some d.kind) : Read ε Unit) d.bytes () := by
  cases d with
  | func type => exact reads_last (reads_uleb type)
  | table refType limits => exact reads_bind (reads_u8 refType) (reads_skipLimits limits hplain)
  | mem limits => exact reads_skipLimits limits hplain
  | global valType mutability => exact reads_skip [valType, mutability]
  | tag attr type => exact reads_bind (reads_u8 attr) (reads_last (reads_uleb type))

/-- An entry that is only skipped. -/
theorem reads_skipped {α : Type} (i : Import) (hplain : PlainFlags i.desc)
    {f : Option UInt8 → Read ε α} {rest : List UInt8} {a : α}
    (hf : Reads (f (some i.desc.kind)) rest a) :
    Reads (do
      skipName
      skipName
      let ek ← u8
      skipDescription ek
      f ek) (i.bytes ++ rest) a := by
  simp only [Import.bytes, List.append_assoc, List.cons_append]
  exact reads_bind (reads_skipName i.module) (reads_bind (reads_skipName i.name)
    (reads_bind (reads_u8 i.desc.kind) (reads_bind (reads_skipDescription i.desc hplain) hf)))

theorem reads_countEntries (kind : UInt8) (items : List Import)
    (hplain : ∀ i ∈ items, PlainFlags i.desc) (count : ℕ) :
    Reads (countEntries kind items.length count : Read ε ℕ) (items.flatMap Import.bytes)
      (count + (items.filter fun i => i.desc.kind = kind).length) := by
  induction items generalizing count with
  | nil => exact reads_pure count
  | cons i items ih =>
    have hrest := ih (fun j hj => hplain j (List.mem_cons_of_mem i hj))
      (if i.desc.kind = kind then count + 1 else count)
    have hcount : (if i.desc.kind = kind then count + 1 else count) +
        (items.filter fun i => i.desc.kind = kind).length =
        count + ((i :: items).filter fun i => i.desc.kind = kind).length := by
      by_cases h : i.desc.kind = kind
      · simp [h]
        omega
      · simp [h]
    rw [hcount] at hrest
    have hread := reads_skipped i (hplain i List.mem_cons_self)
      (f := fun ek => countEntries kind items.length (if ek = some kind then count + 1 else count))
      (by simpa using hrest)
    exact hread

end Skipping

section Names

/-- The characters that the bytes of a name are taken for. -/
def charsOf (n : Name) : Utf16 := (encodeUtf8 n.text).map UInt8.toUInt16

theorem reads_charCodes {ε : Type} (xs : List UInt8) :
    Reads (charCodes xs.length : Read ε Utf16) xs (xs.map UInt8.toUInt16) := by
  intro pre post
  have hchars : ((List.range xs.length).map fun k =>
      (((pre ++ (xs ++ post))[pre.length + k]?).map UInt8.toUInt16).getD 0) =
      xs.map UInt8.toUInt16 := by
    refine List.ext_getElem (by simp) fun k hk hk' => ?_
    have hlt : k < xs.length := by simpa using hk
    have hbyte : (pre ++ (xs ++ post))[pre.length + k]? = some xs[k] := by
      rw [List.getElem?_append_right (by omega), Nat.add_sub_cancel_left,
        List.getElem?_append_left hlt, List.getElem?_eq_getElem hlt]
    simp [hbyte]
  simp only [charCodes, hchars]

theorem reads_readName {ε : Type} (n : Name) :
    Reads (readName : Read ε Utf16) n.bytes (charsOf n) := by
  unfold readName Name.bytes
  refine reads_bind (reads_uleb n.length) ?_
  rw [n.counted]
  exact reads_charCodes (encodeUtf8 n.text)

theorem decodeFrom_ascii (bs : List UInt8) (h : ∀ b ∈ bs, b.toNat < 128) :
    decodeFrom none bs = bs.map UInt8.toNat := by
  induction bs with
  | nil => rfl
  | cons b bs ih =>
    have hb : decodeByte none b.toNat = ([b.toNat], none) := if_pos (h b List.mem_cons_self)
    rw [decodeFrom, hb, ih fun x hx => h x (List.mem_cons_of_mem b hx)]
    rfl

/-- ASCII bytes are decoded to themselves. -/
theorem utf8Decode_ascii (bs : List UInt8) (h : ∀ b ∈ bs, b.toNat < 128) :
    utf8Decode bs = bs.map UInt8.toUInt16 := by
  have hmark : dropByteOrderMark (bs.map UInt8.toNat) = bs.map UInt8.toNat := by
    cases bs with
    | nil => rfl
    | cons b bs =>
      have hb := h b List.mem_cons_self
      exact if_neg (by simp only [byteOrderMark]; omega)
  rw [utf8Decode, decodeFrom_ascii bs h, hmark, List.flatMap_map]
  clear hmark
  induction bs with
  | nil => rfl
  | cons b bs ih =>
    have hunit := toUnits_unit b.toUInt16
    rw [UInt8.toNat_toUInt16] at hunit
    rw [List.flatMap_cons, hunit, ih fun x hx => h x (List.mem_cons_of_mem b hx), List.map_cons,
      List.singleton_append]

/-- Both readers have the same name where the characters are ASCII. -/
theorem charsOf_ascii (n : Name) (h : ∀ u ∈ charsOf n, u.toNat < 128) :
    n.read utf8Decode = charsOf n := by
  refine utf8Decode_ascii _ fun b hb => ?_
  have hu := h b.toUInt16 (List.mem_map_of_mem hb)
  rwa [UInt8.toNat_toUInt16] at hu

end Names

section Listing
variable {ε : Type}

/-- A function import as the pass lists it. -/
def funcOf (i : Import) : Option FuncImport :=
  match i.desc with
  | .func type => some ⟨charsOf i.module, charsOf i.name, type.value⟩
  | _ => none

def globalOf (i : Import) : Option GlobalImport :=
  match i.desc with
  | .global valType mutability =>
    some ⟨charsOf i.module, charsOf i.name, some valType, some mutability⟩
  | _ => none

theorem reads_detailedDescription (i : Import) (hplain : PlainFlags i.desc) (found : Detailed) :
    Reads (detailedDescription (charsOf i.module) (charsOf i.name) (some i.desc.kind) found :
      Read ε Detailed) i.desc.bytes
      ⟨found.funcs ++ (funcOf i).toList, found.globals ++ (globalOf i).toList⟩ := by
  obtain ⟨module, name, desc⟩ := i
  have hskip := reads_skipDescription (ε := ε) desc hplain
  cases desc with
  | func type =>
    simp only [funcOf, globalOf, Option.toList_none, Option.toList_some, List.append_nil]
    exact reads_last (reads_uleb type)
  | global valType mutability =>
    simp only [funcOf, globalOf, Option.toList_none, Option.toList_some, List.append_nil]
    exact reads_bind (reads_u8 valType) (reads_last (reads_u8 mutability))
  | _ =>
    simp only [funcOf, globalOf, Option.toList_none, List.append_nil]
    exact reads_last hskip

theorem reads_detailedEntries (items : List Import) (hplain : ∀ i ∈ items, PlainFlags i.desc)
    (found : Detailed) :
    Reads (detailedEntries items.length found : Read ε Detailed) (items.flatMap Import.bytes)
      ⟨found.funcs ++ items.filterMap funcOf, found.globals ++ items.filterMap globalOf⟩ := by
  induction items generalizing found with
  | nil =>
    simp only [List.filterMap_nil, List.append_nil]
    exact reads_pure found
  | cons i items ih =>
    have hrest := ih (fun j hj => hplain j (List.mem_cons_of_mem i hj))
      ⟨found.funcs ++ (funcOf i).toList, found.globals ++ (globalOf i).toList⟩
    have hsplit : ∀ {β : Type} (f : Import → Option β),
        (i :: items).filterMap f = (f i).toList ++ items.filterMap f := by
      intro β f
      rw [List.filterMap_cons]
      cases f i <;> rfl
    rw [List.append_assoc, List.append_assoc, ← hsplit, ← hsplit] at hrest
    simp only [List.flatMap_cons, Import.bytes, List.append_assoc, List.cons_append]
    exact reads_bind (reads_readName i.module) (reads_bind (reads_readName i.name)
      (reads_bind (reads_u8 i.desc.kind) (reads_bind
        (reads_detailedDescription i (hplain i List.mem_cons_self) found) hrest)))

theorem length_filterMap {β : Type} (f : Import → Option β) (kind : UInt8)
    (hf : ∀ i, (f i).isSome = decide (i.desc.kind = kind)) (items : List Import) :
    (items.filterMap f).length = (items.filter fun i => i.desc.kind = kind).length := by
  rw [List.length_filterMap_eq_countP, List.countP_eq_length_filter]
  simp only [hf]

theorem length_filterMap_funcOf (items : List Import) :
    (items.filterMap funcOf).length = (items.filter fun i => i.desc.kind = 0).length :=
  length_filterMap funcOf 0 (fun ⟨_, _, desc⟩ => by cases desc <;> rfl) items

theorem length_filterMap_globalOf (items : List Import) :
    (items.filterMap globalOf).length = (items.filter fun i => i.desc.kind = 3).length :=
  length_filterMap globalOf 3 (fun ⟨_, _, desc⟩ => by cases desc <;> rfl) items

end Listing

section Loading

/-- What the loader makes of the imports. -/
structure Loaded (items : List Import) (a b : Dylink.Info) : Prop where
  imports : b.imports = a.imports ++ items.map (Import.read utf8Decode)
  types : b.funcImportTypes = a.funcImportTypes ++ (items.filterMap funcOf).map FuncImport.typeIdx
  count : b.funcImportCount = a.funcImportCount + (items.filterMap funcOf).length
  initial : b.tableImportInitial =
    ((items.filterMap fun i => i.desc.tableLimits).getLast?.map Prod.fst).getD a.tableImportInitial

theorem Loaded.nil (a : Dylink.Info) : Loaded [] a a :=
  ⟨by simp, by simp, by simp, by simp⟩

theorem Loaded.cons {i : Import} {items : List Import} {a b c : Dylink.Info}
    (head : Loaded [i] a b) (tail : Loaded items b c) : Loaded (i :: items) a c := by
  have hsplit : ∀ {β : Type} (f : Import → Option β),
      (i :: items).filterMap f = [i].filterMap f ++ items.filterMap f := fun f =>
    List.filterMap_append (l := [i])
  refine ⟨?_, ?_, ?_, ?_⟩
  · rw [tail.imports, head.imports, List.append_assoc]
    rfl
  · rw [tail.types, head.types, List.append_assoc, hsplit, List.map_append]
  · rw [tail.count, head.count, hsplit, List.length_append, Nat.add_assoc]
  · rw [tail.initial, head.initial, hsplit, List.getLast?_append]
    cases (items.filterMap fun i => i.desc.tableLimits).getLast? <;> rfl

theorem reads_loadDescription (i : Import) (info : Dylink.Info) : ∃ b,
    Reads (Dylink.importDescription (some i.desc.kind)
      { info with imports := info.imports ++ [i.read utf8Decode] }) i.desc.bytes b ∧
      Loaded [i] info b := by
  obtain ⟨module, name, desc⟩ := i
  cases desc with
  | func type => exact ⟨_, reads_last (reads_uleb type), rfl, rfl, rfl, rfl⟩
  | table refType limits =>
    exact ⟨_, reads_bind (reads_u8 refType) (reads_bind (reads_uleb limits.flags)
      (reads_bind (reads_uleb limits.min) (reads_last (reads_limitsMax limits)))), rfl,
      (List.append_nil _).symm, rfl, rfl⟩
  | mem limits =>
    have hskip : Reads Dylink.skipLimits limits.bytes limits.flags.value :=
      reads_bind (reads_uleb limits.flags) (reads_bind (reads_uleb limits.min)
        (reads_last (reads_limitsMax limits)))
    exact ⟨_, reads_last hskip, rfl, (List.append_nil _).symm, rfl, rfl⟩
  | global valType mutability =>
    exact ⟨_, reads_last (reads_skip [valType, mutability]), rfl, (List.append_nil _).symm, rfl,
      rfl⟩
  | tag attr type =>
    exact ⟨_, reads_bind (reads_u8 attr) (reads_last (reads_uleb type)), rfl,
      (List.append_nil _).symm, rfl, rfl⟩

theorem reads_loadEntries (items : List Import) (info : Dylink.Info) : ∃ b,
    Reads (Dylink.importSection utf8Decode info items.length) (items.flatMap Import.bytes) b ∧
      Loaded items info b := by
  induction items generalizing info with
  | nil => exact ⟨info, reads_pure info, Loaded.nil info⟩
  | cons i items ih =>
    obtain ⟨b, hb, hhead⟩ := reads_loadDescription i info
    obtain ⟨c, hc, htail⟩ := ih b
    refine ⟨c, ?_, hhead.cons htail⟩
    simp only [List.flatMap_cons, Import.bytes, List.append_assoc, List.cons_append]
    exact reads_bind (SideModule.reads_readName i.module) (reads_bind
      (SideModule.reads_readName i.name) (reads_bind (reads_u8 i.desc.kind) (reads_bind hb hc)))

end Loading

section Tables
variable {ε : Type}

/-- The worker reads up to the initial size of the first table. -/
theorem reads_tableEntries (items : List Import) (hplain : ∀ i ∈ items, PlainFlags i.desc) :
    ∃ read rest, items.flatMap Import.bytes = read ++ rest ∧
      Reads (tableEntries items.length : Read ε (Option ℕ)) read
        ((items.filterMap fun i => i.desc.tableLimits).head?.map Prod.fst) ∧
      ((items.filterMap fun i => i.desc.tableLimits) = [] → rest = []) := by
  induction items with
  | nil => exact ⟨[], [], rfl, reads_pure none, fun _ => rfl⟩
  | cons i items ih =>
    obtain ⟨read, rest, hsplit, hread, hnone⟩ := ih fun j hj => hplain j (List.mem_cons_of_mem i hj)
    have hskip : i.desc.kind ≠ 1 → i.desc.tableLimits = none →
        ∃ read rest, (i :: items).flatMap Import.bytes = read ++ rest ∧
          Reads (tableEntries (items.length + 1) : Read ε (Option ℕ)) read
            (((i :: items).filterMap fun i => i.desc.tableLimits).head?.map Prod.fst) ∧
          (((i :: items).filterMap fun i => i.desc.tableLimits) = [] → rest = []) := by
      intro hkind hlimits
      have hsame : ((i :: items).filterMap fun i => i.desc.tableLimits) =
          items.filterMap fun i => i.desc.tableLimits := List.filterMap_cons_none hlimits
      refine ⟨i.bytes ++ read, rest, by rw [List.flatMap_cons, hsplit, List.append_assoc], ?_, ?_⟩
      · rw [hsame]
        simp only [Import.bytes, List.append_assoc, List.cons_append]
        refine reads_bind (reads_skipName i.module) (reads_bind (reads_skipName i.name)
          (reads_bind (reads_u8 i.desc.kind) ?_))
        rw [if_neg (by simpa using hkind)]
        exact reads_bind (reads_skipDescription i.desc (hplain i List.mem_cons_self)) hread
      · rw [hsame]
        exact hnone
    obtain ⟨module, name, desc⟩ := i
    cases desc with
    | table refType limits =>
      obtain ⟨⟨more, last⟩, min, max, hbounded⟩ := limits
      obtain rfl : more = [] := hplain _ List.mem_cons_self
      refine ⟨module.bytes ++ (name.bytes ++ ([1] ++ ([refType] ++ ([UInt8.ofNat last.val] ++
        min.bytes)))), (max.map Leb.bytes).getD [] ++ items.flatMap Import.bytes, ?_, ?_, ?_⟩
      · simp [Import.bytes, ImportDesc.bytes, Limits.bytes, Leb.bytes, ImportDesc.kind, kindTable]
      · exact reads_bind (reads_skipName module) (reads_bind (reads_skipName name)
          (reads_bind (reads_u8 1) (reads_bind (reads_u8 refType)
            (reads_bind (reads_u8 (UInt8.ofNat last.val)) (reads_last (reads_uleb min))))))
      · intro h
        simp [ImportDesc.tableLimits] at h
    | func type => exact hskip (by simp [ImportDesc.kind, kindFunc]) rfl
    | mem limits => exact hskip (by simp [ImportDesc.kind, kindMem]) rfl
    | global valType mutability => exact hskip (by simp [ImportDesc.kind, kindGlobal]) rfl
    | tag attr type => exact hskip (by simp [ImportDesc.kind, kindTag]) rfl

end Tables

section Agreement

/-- A section in front of the imports, of any other number. -/
structure Skipped where
  id : UInt8
  size : Leb
  body : List UInt8
  sized : size.value = body.length
  other : id ≠ 2

def Skipped.bytes (k : Skipped) : List UInt8 := k.id :: (k.size.bytes ++ k.body)

/-- A module with an import section. -/
def moduleBytes (before : List Skipped) (size : Leb) (s : ImportSection) (after : List UInt8) :
    List UInt8 :=
  magic ++ ([1, 0, 0, 0] ++ (before.flatMap Skipped.bytes ++ (2 :: (size.bytes ++
    (s.bytes ++ after)))))

theorem reads_tableImports {ε : Type} (s : ImportSection) : ∃ read rest, s.bytes = read ++ rest ∧
    Reads (tableImports : Read ε (Option ℕ)) read (s.tables.head?.map Prod.fst) ∧
    (s.tables = [] → rest = []) := by
  obtain ⟨read, rest, hsplit, hread, hnone⟩ := reads_tableEntries (ε := ε) s.entries.items s.plain
  refine ⟨s.entries.count.bytes ++ read, rest, ?_, ?_, hnone⟩
  · rw [ImportSection.bytes, Vec.bytes, hsplit, List.append_assoc]
  · refine reads_bind (reads_uleb s.entries.count) ?_
    rw [s.entries.counted]
    exact hread

theorem position_run {α : Type} {f : ℕ → Read Empty α} {bytes : List UInt8} {i : ℕ} :
    (position >>= f) bytes i = f i bytes i := rfl

theorem inputLength_run {α : Type} {f : ℕ → Read Empty α} {bytes : List UInt8} {i : ℕ} :
    (inputLength >>= f) bytes i = f bytes.length bytes i := rfl

/-- The worker goes over the sections in front of the imports. -/
theorem tableSections_bytes (before : List Skipped) (size : Leb) (s : ImportSection)
    (after pre : List UInt8) (fuel : ℕ) (hfuel : before.length < fuel) : ∃ j,
    (tableSections fuel : Read Empty ℕ) (pre ++ (before.flatMap Skipped.bytes ++
      (2 :: (size.bytes ++ (s.bytes ++ after))))) pre.length =
        .ok ((s.tables.head?.map Prod.fst).getD 0, j) := by
  induction before generalizing pre fuel with
  | nil =>
    obtain ⟨fuel, rfl⟩ : ∃ f, fuel = f + 1 := ⟨fuel - 1, by omega⟩
    obtain ⟨read, rest, hsplit, hread, -⟩ := reads_tableImports (ε := Empty) s
    have hreads : Reads (do
        let id ← u8
        let size ← uleb
        if id = some 2 then
          let initial ← tableImports
          return initial.getD 0
        else
          skip size
          tableSections fuel : Read Empty ℕ) ([2] ++ (size.bytes ++ read))
        ((s.tables.head?.map Prod.fst).getD 0) :=
      reads_bind (reads_u8 2) (reads_bind (reads_uleb size) (reads_last hread))
    have hrun := hreads pre (rest ++ after)
    have hwhole : pre ++ (([] : List Skipped).flatMap Skipped.bytes ++
        (2 :: (size.bytes ++ (s.bytes ++ after)))) =
        pre ++ (([2] ++ (size.bytes ++ read)) ++ (rest ++ after)) := by
      rw [hsplit]
      simp
    have hlt : pre.length <
        (pre ++ (([2] ++ (size.bytes ++ read)) ++ (rest ++ after))).length := by simp
    rw [hwhole]
    simp only [tableSections, position_run, inputLength_run, if_pos hlt]
    exact ⟨_, hrun⟩
  | cons k before ih =>
    obtain ⟨fuel, rfl⟩ : ∃ f, fuel = f + 1 := ⟨fuel - 1, by omega⟩
    obtain ⟨j, hj⟩ := ih (pre ++ k.bytes) fuel (by simp at hfuel; omega)
    have hwhole : ∀ rest, pre ++ ((k :: before).flatMap Skipped.bytes ++ rest) =
        (pre ++ k.bytes) ++ (before.flatMap Skipped.bytes ++ rest) := fun rest => by
      simp [List.flatMap_cons]
    have hlt : ∀ rest, pre.length <
        (pre ++ ((k :: before).flatMap Skipped.bytes ++ rest)).length := by simp [Skipped.bytes]
    simp only [tableSections, position_run, inputLength_run, if_pos (hlt _)]
    rw [hwhole]
    have hid : (u8 : Read Empty (Option UInt8)) ((pre ++ k.bytes) ++
        (before.flatMap Skipped.bytes ++ (2 :: (size.bytes ++ (s.bytes ++ after))))) pre.length =
        .ok (some k.id, pre.length + 1) := by
      have h := reads_u8 (ε := Empty) k.id pre (k.size.bytes ++ (k.body ++
        (before.flatMap Skipped.bytes ++ (2 :: (size.bytes ++ (s.bytes ++ after))))))
      simpa [Skipped.bytes] using h
    have hsize : (uleb : Read Empty ℕ) ((pre ++ k.bytes) ++ (before.flatMap Skipped.bytes ++
        (2 :: (size.bytes ++ (s.bytes ++ after))))) (pre.length + 1) =
        .ok (k.body.length, pre.length + 1 + k.size.bytes.length) := by
      have h := reads_uleb (ε := Empty) k.size (pre ++ [k.id]) (k.body ++
        (before.flatMap Skipped.bytes ++ (2 :: (size.bytes ++ (s.bytes ++ after)))))
      simpa [Skipped.bytes, k.sized] using h
    have hend : pre.length + 1 + k.size.bytes.length + k.body.length = (pre ++ k.bytes).length := by
      simp [Skipped.bytes]
      omega
    refine ⟨j, bind_eq_ok.mpr ⟨some k.id, _, hid, bind_eq_ok.mpr ⟨k.body.length, _, hsize, ?_⟩⟩⟩
    rw [if_neg (by simpa using k.other)]
    refine bind_eq_ok.mpr ⟨(), _, rfl, ?_⟩
    rwa [hend]

theorem tableImportInitial_module (before : List Skipped) (size : Leb) (s : ImportSection)
    (after : List UInt8) : tableImportInitial (moduleBytes before size s after) =
      (s.tables.head?.map Prod.fst).getD 0 := by
  have hfuel : before.length < (moduleBytes before size s after).length := by
    have hle := length_le_flatMap before Skipped.bytes (by simp [Skipped.bytes])
    simp only [moduleBytes, List.length_append, List.length_cons]
    omega
  obtain ⟨j, hj⟩ := tableSections_bytes before size s after (magic ++ [1, 0, 0, 0]) _ hfuel
  have hrun : (tableSections (moduleBytes before size s after).length : Read Empty ℕ)
      (moduleBytes before size s after) 8 = .ok ((s.tables.head?.map Prod.fst).getD 0, j) := by
    rw [List.append_assoc] at hj
    exact hj
  simp only [tableImportInitial, hrun]

/-- The same import for the loader and the pass: what is ASCII is the same name. -/
structure SameNames (e : Dylink.Import) (module name : Utf16) : Prop where
  module : (∀ u ∈ module, u.toNat < 128) → e.module = module
  name : (∀ u ∈ name, u.toNat < 128) → e.name = name

theorem sameNames_read (i : Import) :
    SameNames (i.read utf8Decode) (charsOf i.module) (charsOf i.name) :=
  ⟨charsOf_ascii i.module, charsOf_ascii i.name⟩

/-- The imports of a kind are those that the pass lists, in their order. -/
theorem forall₂_listed {β : Type} {f : Import → Option β} {kind : UInt8}
    {same : Dylink.Import → β → Prop}
    (hf : ∀ i, (f i).isSome = decide (i.desc.kind = kind))
    (hsame : ∀ i b, f i = some b → same (i.read utf8Decode) b) (items : List Import) :
    List.Forall₂ same ((items.map (Import.read utf8Decode)).filter (·.kind = some kind))
      (items.filterMap f) := by
  induction items with
  | nil => exact .nil
  | cons i items ih =>
    have hi := hf i
    have hkind : (i.read utf8Decode).kind = some i.desc.kind := rfl
    cases hfi : f i with
    | none =>
      rw [hfi, Option.isSome_none] at hi
      have hne : ¬ i.desc.kind = kind := of_decide_eq_false hi.symm
      rw [List.filterMap_cons_none hfi, List.map_cons, List.filter_cons_of_neg (by simpa [hkind])]
      exact ih
    | some b =>
      rw [hfi, Option.isSome_some] at hi
      have heq : i.desc.kind = kind := of_decide_eq_true hi.symm
      rw [List.filterMap_cons_some hfi, List.map_cons, List.filter_cons_of_pos (by simpa [hkind])]
      exact .cons (hsame i b hfi) ih

/-- On an import section the readers consume its bytes (the worker's up to the initial size of the
first table) and agree: on the functions and the globals and their order, on the type of each
function, on its names as far as they are ASCII, and on the initial size when there is one table. -/
theorem importWalkers_agree {ε : Type} (s : ImportSection) :
    ∃ (found : Detailed) (imports : List Dylink.Import),
      Reads (parseImportsDetailed : Read ε Detailed) s.bytes found ∧
      Reads (countImports 0 : Read ε ℕ) s.bytes found.funcs.length ∧
      Reads (countImports 3 : Read ε ℕ) s.bytes found.globals.length ∧
      List.Forall₂ (fun e f => SameNames e f.module f.name)
        (imports.filter (·.kind = some 0)) found.funcs ∧
      List.Forall₂ (fun e g => SameNames e g.module g.name)
        (imports.filter (·.kind = some 3)) found.globals ∧
      (∀ stop info, ∃ info',
        Reads (Dylink.sectionBody utf8Decode (some 2) stop info) s.bytes info' ∧
        info'.imports = info.imports ++ imports ∧
        info'.funcImportCount = info.funcImportCount + found.funcs.length ∧
        info'.funcImportTypes = info.funcImportTypes ++ found.funcs.map FuncImport.typeIdx ∧
        (s.tables.length ≤ 1 → info.tableImportInitial = 0 → ∀ before size after,
          info'.tableImportInitial = tableImportInitial (moduleBytes before size s after))) ∧
      ∃ read rest, s.bytes = read ++ rest ∧ (s.tables = [] → rest = []) ∧
        Reads (tableImports : Read ε (Option ℕ)) read (s.tables.head?.map Prod.fst) := by
  have hdetailed := reads_detailedEntries (ε := ε) s.entries.items s.plain ⟨[], []⟩
  have hcount : ∀ kind, Reads (countImports kind : Read ε ℕ) s.bytes
      (s.entries.items.filter fun i => i.desc.kind = kind).length := fun kind => by
    refine reads_bind (reads_uleb s.entries.count) ?_
    have h := reads_countEntries (ε := ε) kind s.entries.items s.plain 0
    rwa [Nat.zero_add, ← s.entries.counted] at h
  obtain ⟨read, rest, hsplit, hread, hnone⟩ := reads_tableImports (ε := ε) s
  refine ⟨⟨s.entries.items.filterMap funcOf, s.entries.items.filterMap globalOf⟩,
    s.entries.items.map (Import.read utf8Decode), ?_, ?_, ?_, ?_, ?_, fun stop info => ?_,
    read, rest, hsplit, hnone, hread⟩
  · refine reads_bind (reads_uleb s.entries.count) ?_
    rw [s.entries.counted]
    exact hdetailed
  · rw [length_filterMap_funcOf]
    exact hcount 0
  · rw [length_filterMap_globalOf]
    exact hcount 3
  · refine forall₂_listed (fun ⟨_, _, desc⟩ => by cases desc <;> rfl) ?_ _
    rintro ⟨module, name, desc⟩ b hb
    cases desc <;> cases hb
    exact sameNames_read ⟨module, name, _⟩
  · refine forall₂_listed (fun ⟨_, _, desc⟩ => by cases desc <;> rfl) ?_ _
    rintro ⟨module, name, desc⟩ b hb
    cases desc <;> cases hb
    exact sameNames_read ⟨module, name, _⟩
  · obtain ⟨info', hload, hloaded⟩ := reads_loadEntries s.entries.items info
    refine ⟨info', ?_, hloaded.imports, hloaded.count, hloaded.types,
      fun hone hzero before size after => ?_⟩
    · refine reads_bind (reads_uleb s.entries.count) ?_
      rw [s.entries.counted]
      exact hload
    · have hinitial : info'.tableImportInitial =
          (s.tables.getLast?.map Prod.fst).getD info.tableImportInitial := hloaded.initial
      rw [tableImportInitial_module, hinitial, hzero]
      rcases htables : s.tables with _ | ⟨t, _ | ⟨t', ts⟩⟩
      · rfl
      · rfl
      · simp [htables] at hone

/-- A function whose name is not ASCII, and two tables. -/
def twoTables : ImportSection where
  entries := Vec.ofList [
    ⟨asciiName "m" (by decide), ⟨Leb.ofNat 2, [0xe9], by simp [IsScalar], rfl⟩,
      .func (Leb.ofNat 0)⟩,
    ⟨asciiName "m" (by decide), asciiName "t" (by decide),
      .table 0x70 ⟨Leb.ofNat 0, Leb.ofNat 1, none, Limits.unbounded⟩⟩,
    ⟨asciiName "m" (by decide), asciiName "u" (by decide),
      .table 0x70 ⟨Leb.ofNat 0, Leb.ofNat 2, none, Limits.unbounded⟩⟩]
  plain := by simp [Vec.ofList, PlainFlags, Leb.ofNat, Leb.digits]

/-- The worker has the first table's size, the loader the last's, and the names differ. -/
theorem twoTables_differ :
    tableImportInitial (moduleBytes [] (Leb.ofNat twoTables.bytes.length) twoTables []) = 1 ∧
    ((Dylink.parseDylinkModule (moduleBytes [] (Leb.ofNat twoTables.bytes.length) twoTables [])).map
      fun info => (info.tableImportInitial, info.imports.map Dylink.Import.name)) =
      .ok (2, [[0xe9], [0x74], [0x75]]) ∧
    ((parseImportsDetailed : Read Empty Detailed) twoTables.bytes 0).map
      (fun r => r.1.funcs.map FuncImport.name) = .ok [[0xc3, 0xa9]] := by
  decide +kernel

end Agreement

end NixWasm.ImportWalkers
