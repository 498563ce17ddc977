import Mathlib.Data.List.Nodup
import NixWasm.DylinkSteps

/-!
What the table holds for the exports of one module. The loader trusts its own reading
of the module: the element slot of a name is a relative table index, and the slots of an
fpcast build are canonical. This is right when the engine reads the same names, writes
the element segment at the table base, and the `cb.dynsym` map names the slot of the
export itself, or of its build-time thunk in an fpcast build.
-/
namespace NixWasm.DynamicLoader

open Dylink Unicode

def Fn.type : Fn → Option FuncType
  | .defined _ _ type => type
  | .faultBridge => none
  | .thunk _ _ => some canonicalType

/-- The function is called through the wide signature. -/
def Fn.Canonical (f : Fn) : Prop := f.type = some canonicalType

/-- What the engine guarantees of the modules it compiles and links. -/
structure Engine.Lawful (E : Engine) : Prop where
  exportNames : ∀ bytes, E.compiles bytes = true →
    ((image bytes).exports.map Export.name).Nodup
  importTypes : ∀ bytes imports owner k f, E.links bytes imports = true →
    funcImport bytes imports owner k = some f → f.type = (image bytes).typeOf k
  tableMax_lt : E.tableMax < 2 ^ 32

/-- The parts of a module that decide its slots. -/
def layout (info : Info) :
    List Export × Option Elem × List FuncType × List ℕ × List ℕ × ℕ :=
  (info.exports, info.elem, info.types, info.funcImportTypes, info.funcTypes,
    info.funcImportCount)

/-- The segment's offset is the table base. -/
def anchored (bytes : List UInt8) (base : ℕ) : Offset → Prop
  | .const value => (value % 2 ^ 32).toNat = base
  | .global index =>
    match ((image bytes).imports.filter fun i => i.kind = kindGlobal)[index]? with
    | some i => i.module = ascii "env" ∧
        (i.name = ascii "__table_base" ∨ i.name = ascii "__table_base32")
    | none => False

section Build

-- `wraps bytes j = some k`: function `j` of the module is the build-time thunk of
-- function `k`.
variable (wraps : List UInt8 → ℕ → Option ℕ)

/-- What the loader relies on in a module it reads as `info`. -/
structure WellBuilt (bytes : List UInt8) (info : Info) : Prop where
  names : layout (image bytes) = layout info
  thunks : info.fpcast = true → ∀ elem, info.elem = some elem → ∀ j ∈ elem.funcIndices,
    info.typeOf j = some canonicalType
  dynsym : ∀ name slot, info.dynsym.get name = some slot → ∀ e ∈ info.exports,
    e.name = name → e.kind = kindFunc → ∃ elem j, info.elem = some elem ∧
      elem.funcIndices[slot]? = some j ∧
      if info.fpcast = true then wraps bytes j = some e.index else j = e.index

/-- `f` stands for the export `fn` in the table: it is the export, its build-time thunk
or the canonical thunk generated for its signature. -/
def Serves (f fn : Fn) : Prop :=
  f = fn ∨
    (∃ bytes imports owner j k, wraps bytes j = some k ∧
      funcAt bytes imports owner j = some f ∧ funcAt bytes imports owner k = some fn) ∨
    ∃ sig, f = .thunk sig fn ∧ fn.type.bind signatureOf = some sig

/-- A loaded module, its record and its entries in the table. -/
structure Backed (E : Engine) (table : List (Option Fn)) (m : DlModule) (i : Instance)
    (bytes : List UInt8) (info : Info) (imports : Imports) (owner : Owner) : Prop where
  inst : i = newInstance E bytes imports owner
  parsed : parseDylinkModule bytes = .ok info
  exportNames : ((image bytes).exports.map Export.name).Nodup
  built : WellBuilt wraps bytes info
  elemSlots : m.elemSlots = exportedElemSlots info
  fpcast : m.fpcast = info.fpcast
  sigOf : m.sigOf = buildSigLookup info
  count : info.elemCount ≤ m.tableCount
  linked : ∀ j, ∃ f, funcAt bytes imports owner j = some f
  types : ∀ j f, funcAt bytes imports owner j = some f → f.type = (image bytes).typeOf j
  entries : ∀ elem slot j, info.elem = some elem → elem.funcIndices[slot]? = some j →
    table[m.tableBase + slot]? = some (funcAt bytes imports owner j)

end Build

theorem typeOf_of_layout {info info' : Info} (h : layout info = layout info') (j : ℕ) :
    info.typeOf j = info'.typeOf j := by
  simp only [layout, Prod.mk.injEq] at h
  obtain ⟨-, -, htypes, himport, hfunc, hcount⟩ := h
  unfold Info.typeOf
  rw [htypes, himport, hfunc, hcount]

/-- A function export of an instance comes from one entry of the export section. -/
theorem newInstance_get {E : Engine} {bytes : List UInt8} {imports : Imports} {owner : Owner}
    {name : Utf16} {fn : Fn} (h : (newInstance E bytes imports owner).get name = some (.func fn)) :
    ∃ e ∈ (image bytes).exports, e.name = name ∧ e.kind = kindFunc ∧
      funcAt bytes imports owner e.index = some fn := by
  unfold Instance.get newInstance at h
  obtain ⟨x, hx, hval⟩ := Option.map_eq_some_iff.mp h
  have hname := List.find?_some hx
  obtain ⟨e, he, rfl⟩ := List.mem_map.mp (List.mem_of_find?_eq_some hx)
  refine ⟨e, he, by simpa using hname, ?_⟩
  simp only [exportValue] at hval
  split at hval
  · rename_i hkind
    split at hval
    · rename_i f hf
      cases hval
      exact ⟨hkind, hf⟩
    · cases hval
  · split at hval
    · cases hval
    · cases hval

theorem export_unique {exports : List Export} (h : (exports.map Export.name).Nodup)
    {e e' : Export} (he : e ∈ exports) (he' : e' ∈ exports) (hname : e.name = e'.name) :
    e = e' := List.inj_on_of_nodup_map h he he' hname

theorem signatureOf_canonicalType : (signatureOf canonicalType).isSome = true := by decide

namespace Backed

variable {E : Engine} {wraps : List UInt8 → ℕ → Option ℕ} {table : List (Option Fn)}
  {m : DlModule} {i : Instance} {bytes : List UInt8} {info : Info} {imports : Imports}
  {owner : Owner}

/-- Entries outside the module's own range do not matter. -/
theorem congr (h : Backed wraps E table m i bytes info imports owner)
    {table' : List (Option Fn)} {m' : DlModule} (hm : m'.core = m.core)
    (htable : ∀ index, m.tableBase ≤ index → index < m.tableBase + m.tableCount →
      table'[index]? = table[index]?) :
    Backed wraps E table' m' i bytes info imports owner := by
  refine ⟨h.inst, h.parsed, h.exportNames, h.built, (elemSlots_of_core hm).trans h.elemSlots,
    (fpcast_of_core hm).trans h.fpcast, (sigOf_of_core hm).trans h.sigOf,
    tableCount_of_core hm ▸ h.count, h.linked, h.types, ?_⟩
  intro elem slot j helem hj
  have hslot : slot < m.tableCount := by
    have hlt := (List.getElem?_eq_some_iff.mp hj).1
    have hcount := h.count
    simp only [Info.elemCount, helem, Option.map_some, Option.getD_some] at hcount
    omega
  rw [tableBase_of_core hm, htable _ (by omega) (by omega)]
  exact h.entries elem slot j helem hj

theorem export_of_get (h : Backed wraps E table m i bytes info imports owner) {name : Utf16}
    {fn : Fn} (hget : i.get name = some (.func fn)) :
    ∃ e ∈ info.exports, e.name = name ∧ e.kind = kindFunc ∧
      funcAt bytes imports owner e.index = some fn := by
  rw [h.inst] at hget
  have hexports : (image bytes).exports = info.exports := congrArg Prod.fst h.built.names
  rw [← hexports]
  exact newInstance_get hget

theorem nodup (h : Backed wraps E table m i bytes info imports owner) :
    (info.exports.map Export.name).Nodup := by
  have hexports : (image bytes).exports = info.exports := congrArg Prod.fst h.built.names
  rw [← hexports]
  exact h.exportNames

/-- The function at the slot of an export, by its index in the module. -/
theorem slot_entry (h : Backed wraps E table m i bytes info imports owner) {name : Utf16}
    {slot : ℕ} (hslot : m.elemSlots.get name = some slot) {e : Export}
    (he : e ∈ info.exports) (hname : e.name = name) (hkind : e.kind = kindFunc) :
    ∃ elem j, info.elem = some elem ∧ elem.funcIndices[slot]? = some j ∧
      (j = e.index ∨ info.fpcast = true ∧ info.dynsym.entries ≠ [] ∧
        wraps bytes j = some e.index) := by
  rw [h.elemSlots, exportedElemSlots] at hslot
  split at hslot
  · rename_i hdynsym
    obtain ⟨elem, j, helem, hj, hwraps⟩ := h.built.dynsym name slot hslot e he hname hkind
    refine ⟨elem, j, helem, hj, ?_⟩
    by_cases hfp : info.fpcast = true
    · rw [if_pos hfp] at hwraps
      exact .inr ⟨hfp, hdynsym, hwraps⟩
    · rw [if_neg hfp] at hwraps
      exact .inl hwraps
  · split at hslot
    · simp at hslot
    · rename_i elem helem
      rcases exportSlots_get hslot with hempty | ⟨e', he', hname', hkind', hj⟩
      · simp at hempty
      · obtain rfl : e' = e := export_unique h.nodup he' he (hname'.trans hname.symm)
        exact ⟨elem, e'.index, helem, hj, .inl rfl⟩

theorem slot_lt (h : Backed wraps E table m i bytes info imports owner) {elem : Elem}
    {slot j : ℕ} (helem : info.elem = some elem) (hj : elem.funcIndices[slot]? = some j) :
    slot < m.tableCount := by
  have hlt := (List.getElem?_eq_some_iff.mp hj).1
  have hcount := h.count
  simp only [Info.elemCount, helem, Option.map_some, Option.getD_some] at hcount
  omega

/-- The element slot of an export serves it, and is canonical as the build says. -/
theorem slot_serves (h : Backed wraps E table m i bytes info imports owner) {name : Utf16}
    {slot : ℕ} {fn : Fn} (hslot : m.elemSlots.get name = some slot)
    (hget : i.get name = some (.func fn)) :
    slot < m.tableCount ∧ ∃ f, table[m.tableBase + slot]? = some (some f) ∧
      Serves wraps f fn ∧ (f.Canonical ↔ m.fpcast = true) := by
  obtain ⟨e, he, hname, hkind, hfn⟩ := h.export_of_get hget
  obtain ⟨elem, j, helem, hj, hcase⟩ := h.slot_entry hslot he hname hkind
  obtain ⟨f, hf⟩ := h.linked j
  refine ⟨h.slot_lt helem hj, f, ?_, ?_, ?_⟩
  · rw [h.entries elem slot j helem hj, hf]
  · rcases hcase with rfl | ⟨-, -, hwraps⟩
    · exact .inl (Option.some.inj (hf.symm.trans hfn))
    · exact .inr (.inl ⟨bytes, imports, owner, j, e.index, hwraps, hf, hfn⟩)
  · rw [Fn.Canonical, h.types j f hf, typeOf_of_layout h.built.names, h.fpcast]
    constructor
    · intro htype
      exact (parseWith_fpcast h.parsed).mpr (typeOf_mem_types htype)
    · intro hfp
      exact h.built.thunks hfp elem helem j (List.mem_of_getElem? hj)

/-- Two exports in one slot are one function. -/
theorem slot_injective (h : Backed wraps E table m i bytes info imports owner)
    {name name' : Utf16} {slot : ℕ} {fn fn' : Fn} (hslot : m.elemSlots.get name = some slot)
    (hslot' : m.elemSlots.get name' = some slot) (hget : i.get name = some (.func fn))
    (hget' : i.get name' = some (.func fn')) : fn = fn' := by
  obtain ⟨e, he, hname, hkind, hfn⟩ := h.export_of_get hget
  obtain ⟨e', he', hname', hkind', hfn'⟩ := h.export_of_get hget'
  have hindex : e.index = e'.index := by
    rw [h.elemSlots, exportedElemSlots] at hslot hslot'
    by_cases hdynsym : info.dynsym.entries ≠ []
    · rw [if_pos hdynsym] at hslot hslot'
      obtain ⟨elem, j, helem, hj, hw⟩ := h.built.dynsym name slot hslot e he hname hkind
      obtain ⟨elem', j', helem', hj', hw'⟩ :=
        h.built.dynsym name' slot hslot' e' he' hname' hkind'
      obtain rfl : elem = elem' := Option.some.inj (helem.symm.trans helem')
      obtain rfl : j = j' := Option.some.inj (hj.symm.trans hj')
      by_cases hfp : info.fpcast = true
      · rw [if_pos hfp] at hw hw'
        exact Option.some.inj (hw.symm.trans hw')
      · rw [if_neg hfp] at hw hw'
        exact hw.symm.trans hw'
    · rw [if_neg hdynsym] at hslot hslot'
      cases helem : info.elem with
      | none => simp [helem] at hslot
      | some elem =>
        simp only [helem] at hslot hslot'
        rcases exportSlots_get hslot with hempty | ⟨x, hx, hxname, -, hj⟩
        · simp at hempty
        · rcases exportSlots_get hslot' with hempty | ⟨x', hx', hxname', -, hj'⟩
          · simp at hempty
          · obtain rfl : x = e := export_unique h.nodup hx he (hxname.trans hname.symm)
            obtain rfl : x' = e' := export_unique h.nodup hx' he' (hxname'.trans hname'.symm)
            exact Option.some.inj (hj.symm.trans hj')
  rw [hindex, hfn'] at hfn
  exact (Option.some.inj hfn).symm

/-- The signature found for an export is the one of its type. -/
theorem signature_of_export (h : Backed wraps E table m i bytes info imports owner)
    {name : Utf16} {fn : Fn} (hget : i.get name = some (.func fn)) :
    m.sigOf name = fn.type.bind signatureOf := by
  obtain ⟨e, he, hname, hkind, hfn⟩ := h.export_of_get hget
  have hmem : e ∈ info.exports.filter fun x => x.kind = kindFunc ∧ x.name = name :=
    List.mem_filter.mpr ⟨he, by simp [hname, hkind]⟩
  have hlast : (info.exports.filter fun x => x.kind = kindFunc ∧ x.name = name).getLast? =
      some e := by
    cases hl : (info.exports.filter fun x => x.kind = kindFunc ∧ x.name = name).getLast? with
    | none =>
      rw [List.getLast?_eq_none_iff.mp hl] at hmem
      cases hmem
    | some x =>
      have hx := List.mem_filter.mp (List.mem_of_getLast? hl)
      simp only [decide_eq_true_eq] at hx
      rw [export_unique h.nodup hx.1 he (hx.2.2.trans hname.symm)]
  rw [h.sigOf, h.types e.index fn hfn, typeOf_of_layout h.built.names]
  simp only [buildSigLookup, hlast]
  rfl

theorem canonical_signature (h : Backed wraps E table m i bytes info imports owner)
    {name : Utf16} {fn : Fn} (hget : i.get name = some (.func fn)) (hfn : fn.Canonical) :
    m.sigOf name ≠ none := by
  rw [h.signature_of_export hget, show fn.type = some canonicalType from hfn, Option.bind_some]
  exact Option.isSome_iff_ne_none.mp signatureOf_canonicalType

end Backed

end NixWasm.DynamicLoader
