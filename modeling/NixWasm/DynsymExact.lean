import Mathlib.Algebra.Order.BigOperators.Group.List
import NixWasm.DynsymAgree

/-!
The injector and the loader agree on a module exactly when its segment already stands at
the table base of the shared table, its sections have room for the change, and no name
loses a byte order mark on the way.
-/
namespace NixWasm.SideModule

open Dylink DynamicLoader DynsymInject Unicode

variable {only : Option (Str → Bool)} {M : SideModule}

section Names

theorem export_names_nodup (M : SideModule) : (M.exports.map fun e => e.name.text).Nodup := by
  have h := M.distinct
  rwa [← List.map_flatMap] at h

theorem mem_functionExports {e : Str × ℕ} (h : e ∈ M.functionExports) :
    ∃ x ∈ M.exports, x.kind = DynsymInject.kindFunc ∧ x.name.text = e.1 ∧ x.index.value = e.2 := by
  obtain ⟨x, hx, hsome⟩ := List.mem_filterMap.mp h
  split at hsome
  · rename_i hkind
    cases hsome
    exact ⟨x, hx, hkind, rfl, rfl⟩
  · cases hsome

theorem functionExports_scalars {e : Str × ℕ} (h : e ∈ M.functionExports) :
    ∀ c ∈ e.1, IsScalar c := by
  obtain ⟨x, -, -, hname, -⟩ := mem_functionExports h
  rw [← hname]
  exact x.name.scalars

theorem functionExports_names_nodup (M : SideModule) : (M.functionExports.map Prod.fst).Nodup := by
  have hsub : (M.functionExports.map Prod.fst).Sublist (M.exports.map fun e => e.name.text) := by
    unfold functionExports
    induction M.exports with
    | nil => exact List.Sublist.refl _
    | cons x xs ih =>
      rw [List.filterMap_cons, List.map_cons]
      split
      · exact ih.cons _
      · rename_i e he
        split at he
        · cases he
          exact ih.cons_cons _
        · cases he
  exact hsub.nodup (export_names_nodup M)

end Names

section Table

variable {E : Engine} {bytes : List UInt8} {I : Imports} {owner : Owner}
  {table table' : List (Option Fn)} {i : Instance}

/-- What a successful instantiation went through. -/
theorem instantiate_ok (h : instantiate E bytes I owner table = (some i, table')) :
    i = newInstance E bytes I owner ∧ functionsLink bytes I owner = true ∧
      initElements E bytes I owner table = some table' := by
  unfold instantiate at h
  split at h
  · rename_i hlink
    rw [Bool.and_eq_true] at hlink
    split at h
    · cases h
    · rename_i written hwritten
      split at h
      · cases h
        exact ⟨rfl, hlink.1, hwritten⟩
      · cases h
  · cases h

/-- An exported function of the instance. -/
theorem instance_get {e : Str × ℕ} (he : e ∈ M.functionExports)
    (hlink : functionsLink (M.output only) I owner = true) :
    ∃ f, funcAt (M.output only) I owner e.2 = some f ∧
      (newInstance E (M.output only) I owner).get (units e.1) = some (.func f) := by
  obtain ⟨x, hx, hkind, hname, hindex⟩ := mem_functionExports he
  obtain ⟨f, hf⟩ := funcAt_linked hlink e.2
  refine ⟨f, hf, ?_⟩
  have hexports := (image_output only M).2.2.1
  have hfind : M.exports.find? (fun y => units y.name.text = units e.1) = some x := by
    have hnodup := export_names_nodup M
    revert hx hnodup
    induction M.exports with
    | nil => exact fun hx => absurd hx (List.not_mem_nil)
    | cons y ys ih =>
      intro hx hnodup
      rw [List.map_cons, List.nodup_cons] at hnodup
      by_cases hy : units y.name.text = units e.1
      · have htext : y.name.text = x.name.text := by
          rw [hname]
          exact units_inj y.name.scalars (functionExports_scalars he) hy
        rcases List.mem_cons.mp hx with rfl | hx
        · simp [hname]
        · refine absurd (List.mem_map.mpr ⟨x, hx, ?_⟩) hnodup.1
          exact htext.symm
      · rcases List.mem_cons.mp hx with rfl | hx
        · exact absurd (congrArg units hname) hy
        · rw [List.find?_cons_of_neg (by simpa using hy)]
          exact ih hx hnodup.2
  have hvalue : exportValue E (M.output only) I owner (x.read engineName) = .func f := by
    have hk : (x.read engineName).kind = Dylink.kindFunc := congrArg some hkind
    have hi : (x.read engineName).index = e.2 := hindex
    simp [exportValue, hk, hi, hf]
  have hkey : ∀ y : Export, (y.read engineName).name = units y.name.text :=
    fun y => engineName_encodeUtf8 y.name.scalars
  simp only [Instance.get, newInstance, hexports, List.map_map, List.find?_map]
  have hpred : ((fun e' => decide (e'.1 = units e.1)) ∘
      (fun e' => (e'.name, exportValue E (M.output only) I owner e')) ∘ Export.read engineName) =
      fun y : Export => decide (units y.name.text = units e.1) := by
    funext y
    simp [hkey]
  rw [hpred, hfind]
  simp [hvalue]

end Table

section Enough

theorem dynsym_mem {name : Str} {slot : ℕ} (h : (name, slot) ∈ (M.assigned only).dynsym) :
    ∃ j, M.Recorded only (name, j) ∧
      (M.elemFuncs ++ (M.assigned only).added)[slot]? = some j :=
  (assigned_assign only M.elemFuncs M.functionExports).entry name slot h

/-- The loader finds the slot of a recorded function under its name. -/
theorem slot_read (hnames : ∀ e, M.Recorded only e → ¬ Marked e.1) {e : Str × ℕ}
    (he : M.Recorded only e) {m : JsMap Utf16 ℕ}
    (hm : m = (M.assigned only).dynsym.foldl
      (fun m e => m.set (utf8Decode (encodeUtf8 e.1)) e.2) JsMap.empty) :
    ∃ slot, m.get (units e.1) = some slot ∧
      (M.elemFuncs ++ (M.assigned only).added)[slot]? = some e.2 := by
  have hassigned := assigned_assign only M.elemFuncs M.functionExports
  obtain ⟨slot, hentry, hslot⟩ := hassigned.recorded e he
  have hkey : ∀ x ∈ (M.assigned only).dynsym, utf8Decode (encodeUtf8 x.1) = units x.1 := by
    rintro ⟨name, k⟩ hx
    obtain ⟨j, hj, -⟩ := dynsym_mem hx
    rw [utf8Decode_encodeUtf8 (functionExports_scalars hj.mem), if_neg (hnames _ hj)]
  have hnodup : ((M.assigned only).dynsym.map fun x => utf8Decode (encodeUtf8 x.1)).Nodup := by
    have htexts : ((M.assigned only).dynsym.map Prod.fst).Nodup :=
      hassigned.names.nodup (functionExports_names_nodup M)
    rw [List.map_congr_left hkey]
    have hmap : (M.assigned only).dynsym.map (fun x => units x.1) =
        ((M.assigned only).dynsym.map Prod.fst).map units := by
      rw [List.map_map]
      rfl
    rw [hmap]
    refine List.Nodup.map_on ?_ htexts
    intro s hs t ht hst
    obtain ⟨x, hx, rfl⟩ := List.mem_map.mp hs
    obtain ⟨y, hy, rfl⟩ := List.mem_map.mp ht
    have hscalars : ∀ z ∈ (M.assigned only).dynsym, ∀ c ∈ z.1, IsScalar c := by
      rintro ⟨name, slot⟩ hz
      obtain ⟨j, hj, -⟩ := dynsym_mem hz
      have hname := functionExports_scalars hj.mem
      exact hname
    exact units_inj (hscalars x hx) (hscalars y hy) hst
  refine ⟨slot, ?_, hslot⟩
  have hget := JsMap.get_foldl_set (fun x : Str × ℕ => utf8Decode (encodeUtf8 x.1)) Prod.snd
    hnodup JsMap.empty hentry
  rw [hkey _ hentry] at hget
  rw [hm]
  exact hget

theorem sharesTable_output (M : SideModule) : sharesTable (M.output only) = true ↔
    ∃ i, M.tableImports.head? = some i ∧ i.module.text = literal "env" ∧
      i.name.text = literal "__indirect_function_table" := by
  have hfind : (image (M.output only)).imports.find? (fun i => i.kind = Dylink.kindTable) =
      M.tableImports.head?.map (Import.read engineName) := by
    rw [(image_output only M).1, List.find?_map, tableImports, List.head?_filter]
    congr 2
    funext i
    have hiff : (i.read engineName).kind = Dylink.kindTable ↔
        i.desc.kind = DynsymInject.kindTable := ⟨Option.some.inj, congrArg some⟩
    exact decide_eq_decide.mpr hiff
  unfold sharesTable
  rw [hfind]
  cases M.tableImports.head? with
  | none => simp
  | some i =>
    have henv := read_engineName_eq_iff i.module "env" (by decide)
    have hname := read_engineName_eq_iff i.name "__indirect_function_table" (by decide)
    simp [Import.read, henv, hname]

/-- The import that a global index of the output stands for. -/
theorem globalImport_output (k : ℕ) :
    ((image (M.output only)).imports.filter fun i => i.kind = Dylink.kindGlobal)[k]? =
      M.globalImports[k]?.map (Import.read engineName) := by
  rw [(image_output only M).1, List.filter_map, List.getElem?_map, globalImports]
  congr 2
  refine List.filter_congr ?_
  intro i _
  have hiff : (i.read engineName).kind = Dylink.kindGlobal ↔
      i.desc.kind = DynsymInject.kindGlobal := ⟨Option.some.inj, congrArg some⟩
  exact decide_eq_decide.mpr hiff

theorem placed_output (h : M.Anchored) (base : ℕ) :
    Placed (M.output only) base (image (M.output only)) := by
  obtain ⟨⟨k, i, hoffset, hglobal, henv, hname⟩, htable⟩ := h
  intro elem helem _
  rw [(image_output only M).2.2.2] at helem
  cases helem
  refine ⟨(sharesTable_output M).mpr htable, ?_⟩
  rw [hoffset]
  simp only [OffsetExpr.value, anchored, globalImport_output, hglobal, Option.map_some]
  refine ⟨(read_engineName_eq_iff i.module "env" (by decide)).mpr henv, ?_⟩
  exact hname.imp (read_engineName_eq_iff i.name "__table_base" (by decide)).mpr
    (read_engineName_eq_iff i.name "__table_base32" (by decide)).mpr

theorem slotRight_of_injectable (h : M.Injectable only) {e : Str × ℕ} (he : M.Recorded only e) :
    SlotRight (M.output only) e := by
  obtain ⟨info, hparse, hdynsym, -⟩ := loader_output only M h.customs
  obtain ⟨slot, hget, hslot⟩ := slot_read h.names he hdynsym
  have hslots : exportedElemSlots info = info.dynsym := by
    unfold exportedElemSlots
    rw [if_pos]
    intro hempty
    simp [JsMap.get, hempty] at hget
  refine ⟨info, slot, hparse, by rw [hslots]; exact hget, ?_⟩
  intro E I owner table table' i hbase hinst
  obtain ⟨-, -, hentries⟩ := instantiate_placed rfl (fun _ => hbase)
    (placed_output (h.anchored ⟨e, he⟩) I.tableBase) hinst
  obtain ⟨hi, hlink, -, htable⟩ := hentries i rfl
  obtain ⟨f, hf, hexport⟩ := instance_get (E := E) he.mem hlink
  refine ⟨f, hi ▸ hexport, ?_⟩
  rw [htable _ slot e.2 (image_output only M).2.2.2 hslot, hf]

theorem slotsKept (only : Option (Str → Bool)) (M : SideModule) : M.SlotsKept (M.output only) := by
  intro E I owner table table' i start hshares hinst hstart k j hk
  obtain ⟨-, -, hinit⟩ := instantiate_ok hinst
  have helem := (image_output only M).2.2.2
  simp only [initElements, helem, hshares, if_true, hstart] at hinit
  split at hinit
  · rename_i hfits
    cases hinit
    have hlt := (List.getElem?_eq_some_iff.mp hk).1
    rw [getElem?_overwrite (by simpa using hfits), if_pos (by simp; omega)]
    rw [Nat.add_sub_cancel_left, List.getElem?_map, List.getElem?_append_left hlt, hk]
    rfl
  · cases hinit

theorem parseSections_output (only : Option (Str → Bool)) (M : SideModule) :
    parseSections (M.output only) = some ((M.injected only).map Content.raw) := by
  rw [output, parseSections_encode, List.map_map]
  rfl

theorem elemCount_output (only : Option (Str → Bool)) (M : SideModule) :
    (image (M.output only)).elemCount = M.elemFuncs.length + (M.assigned only).added.length := by
  simp [Info.elemCount, (image_output only M).2.2.2]

/-- The growth as it should be, up to what the condition says. -/
theorem grown_iff (hcustoms : ∀ c ∈ M.contents, ¬ c.IsDisguised) : M.Grown (M.output only) ↔
    (M.Wanted only → M.tableImports.length ≤ 1) ∧
      (M.Wanted only → ∃ s ∈ M.subs, s.sets ≠ none) := by
  have hwanted : M.Wanted only ↔ (M.assigned only).added.length ≠ 0 := by
    rw [Wanted, ← added_ne_nil_iff, assigned]
    simp
  obtain ⟨info₀, hparse₀, hinfo₀⟩ := loader_input M hcustoms
  obtain ⟨info, hparse, -, hinfo⟩ := loader_output only M hcustoms
  obtain ⟨d₀, hd₀, hm₀⟩ := Option.map_eq_some_iff.mp hinfo₀
  obtain ⟨d, hd, hm⟩ := Option.map_eq_some_iff.mp hinfo
  constructor
  · rintro ⟨n, sections, info₀', info', d₀', d', hcount, hsections, hviews, hparse₀', hd₀',
      hparse', hd', hgrow⟩
    obtain rfl : (M.assigned only).added.length = n := by
      rw [elemCount_output] at hcount
      omega
    obtain rfl : info₀ = info₀' := Except.ok.inj (hparse₀.symm.trans hparse₀')
    obtain rfl : info = info' := Except.ok.inj (hparse.symm.trans hparse')
    obtain rfl : d₀ = d₀' := Option.some.inj (hd₀.symm.trans hd₀')
    obtain rfl : d = d' := Option.some.inj (hd.symm.trans hd')
    rw [parseSections_output] at hsections
    cases hsections
    rw [imports_injected] at hviews
    have htables := (importLists_grown_iff M _).mp (Option.some.inj hviews)
    refine ⟨fun hw => htables.resolve_left (hwanted.mp hw), ?_⟩
    intro hw
    by_contra hunset
    have hunset' : ¬ ∃ s ∈ M.subs.map (Sub.grow (M.assigned only).added.length), s.sets ≠ none := by
      rintro ⟨s, hs, hne⟩
      obtain ⟨t, ht, rfl⟩ := List.mem_map.mp hs
      refine hunset ⟨t, ht, ?_⟩
      intro hnone
      rw [sets_grow, hnone] at hne
      exact hne rfl
    rw [hm, hm₀, memInfoOf_unset _ _ hunset', memInfoOf_unset _ _ hunset] at hgrow
    have hzero := congrArg MemInfo.tableSize hgrow
    have hpos := hwanted.mp hw
    simp only [noMemInfo, MemInfo.grow, Nat.zero_add] at hzero
    omega
  · rintro ⟨htables, hmem⟩
    refine ⟨(M.assigned only).added.length, _, info₀, info, d₀, d, elemCount_output only M,
      parseSections_output only M, ?_, hparse₀, hd₀, hparse, hd, ?_⟩
    · rw [imports_injected]
      refine congrArg some ((importLists_grown_iff M _).mpr ?_)
      by_cases hw : M.Wanted only
      · exact .inr (htables hw)
      · exact .inl (not_not.mp (mt hwanted.mpr hw))
    · rw [hm, hm₀]
      refine memInfoOf_grow _ _ _ _ ?_
      by_cases hw : M.Wanted only
      · exact .inl (hmem hw)
      · refine .inr ?_
        rw [not_not.mp (mt hwanted.mpr hw)]
        rfl

theorem restKept_iff : M.RestKept (M.output only) ↔
    (M.hasElem = false → ∀ c ∈ M.contents, c.id ≠ 13) := by
  have hids : ((M.injected only).map Content.raw).map Section.id =
      (M.injected only).map Content.id := by
    rw [List.map_map]
    rfl
  constructor
  · rintro ⟨sections, hsections, hordered, -⟩
    rw [parseSections_output] at hsections
    cases hsections
    rw [hids] at hordered
    exact (ordered_injected_iff only M).mp hordered
  · intro htag
    refine ⟨_, parseSections_output only M, ?_, untouched_injected only M, dylink_injected only M⟩
    rw [hids]
    exact (ordered_injected_iff only M).mpr htag

theorem inject_eq_output (h : M.hasElem = true → M.segments ≠ []) :
    inject only M.encode = some (M.output only) := by
  rw [inject_encode, if_neg fun hempty => h hempty.1 hempty.2]
  rfl

/-- The condition is enough. -/
theorem injects_of_injectable (h : M.Injectable only) : M.Injects only := by
  refine ⟨M.output only, inject_eq_output h.segment, fun e he => slotRight_of_injectable h he,
    slotsKept only M, (grown_iff h.customs).mpr ⟨h.oneTable, h.memInfo⟩, ?_⟩
  exact restKept_iff.mpr h.untagged

end Enough

section Needed

/-- What the loader and an engine ask of a module: functions and the segment's base come
from `env`, no name serves for both, and counts are far from 32 bits. -/
structure Loadable (M : SideModule) : Prop where
  functions : ∀ i ∈ M.imports, i.desc.kind = DynsymInject.kindFunc → i.module.text = literal "env"
  offsetGlobal : ∀ k i, M.offset = .global k → M.globalImports[k.value]? = some i →
    i.module.text = literal "env" ∧ ∀ j ∈ M.imports, j.desc.kind = DynsymInject.kindFunc →
      j.name.text ≠ i.name.text
  small : M.elemFuncs.length + M.functionExports.length < 2 ^ 31
  customs : ∀ c ∈ M.contents, ¬ c.IsDisguised

/-- The name of the imported global that the segment starts at. -/
def offsetName (M : SideModule) : Option Str :=
  match M.offset with
  | .const _ => none
  | .global k => M.globalImports[k.value]?.map fun i => i.name.text

/-- An environment with a host function for every function import, and 0 for the base of
the segment. -/
def hostEnv (M : SideModule) : JsMap Utf16 Value :=
  ⟨(M.offsetName.map fun t => (units t, Value.global (some 0))).toList ++
    (M.imports.filter fun i => i.desc.kind = DynsymInject.kindFunc).map fun i =>
      (units i.name.text, Value.host)⟩

def hostImports (M : SideModule) (base : ℕ) : Imports where
  env := M.hostEnv
  memoryBase := 0
  tableBase := base
  gotMem := JsMap.empty
  gotFunc := JsMap.empty

/-- An engine that accepts everything and reads every global as 0. -/
def zeroEngine : Engine where
  tableMax := 0
  compiles _ := true
  links _ _ := true
  globalNumber _ _ _ := some 0
  initialises _ _ := true
  mmuStart _ _ := true

theorem hostEnv_get_cases {t : Utf16} {v : Value} (h : M.hostEnv.get t = some v) :
    v = .host ∨ v = .global (some 0) := by
  obtain ⟨x, hx, rfl⟩ := Option.map_eq_some_iff.mp h
  rcases List.mem_append.mp (List.mem_of_find?_eq_some hx) with hmem | hmem
  · obtain ⟨s, -, rfl⟩ := Option.map_eq_some_iff.mp (Option.mem_toList.mp hmem)
    exact .inr rfl
  · obtain ⟨i, -, rfl⟩ := List.mem_map.mp hmem
    exact .inl rfl

theorem hostEnv_get_offset {t : Str} (h : M.offsetName = some t) :
    M.hostEnv.get (units t) = some (.global (some 0)) := by
  simp [JsMap.get, hostEnv, h]

theorem hostEnv_get_function (hload : M.Loadable) {i : Import} (hi : i ∈ M.imports)
    (hkind : i.desc.kind = DynsymInject.kindFunc) :
    M.hostEnv.get (units i.name.text) = some .host := by
  have hskip : ((M.offsetName.map fun t => (units t, Value.global (some 0))).toList.find?
      fun e => e.1 = units i.name.text) = none := by
    rw [List.find?_eq_none]
    intro x hx heq
    obtain ⟨t, ht, rfl⟩ := Option.map_eq_some_iff.mp (Option.mem_toList.mp hx)
    unfold offsetName at ht
    split at ht
    · cases ht
    · rename_i k hoffset
      obtain ⟨g, hg, rfl⟩ := Option.map_eq_some_iff.mp ht
      have hne := (hload.offsetGlobal k g hoffset hg).2 i hi hkind
      exact hne (units_inj i.name.scalars g.name.scalars
        (by simpa using Eq.symm (by simpa using heq)))
  have hfound : ∀ l : List Import, i ∈ l →
      ((l.map fun j => (units j.name.text, Value.host)).find?
        fun e => e.1 = units i.name.text) = some (units i.name.text, .host) := by
    intro l hl
    rw [List.find?_map]
    cases hfind : l.find? ((fun e : Utf16 × Value => decide (e.1 = units i.name.text)) ∘
        fun j : Import => (units j.name.text, Value.host)) with
    | none =>
      have hno := List.find?_eq_none.mp hfind i hl
      simp at hno
    | some j =>
      have hj := List.find?_some hfind
      have hname : units j.name.text = units i.name.text := by simpa using hj
      simp [hname]
  have hmem : i ∈ M.imports.filter fun i => i.desc.kind = DynsymInject.kindFunc :=
    List.mem_filter.mpr ⟨hi, by simpa using hkind⟩
  simp only [JsMap.get, hostEnv, List.find?_append, hskip, Option.none_or, hfound _ hmem,
    Option.map_some]

theorem funcImports_output (only : Option (Str → Bool)) (M : SideModule) (k : ℕ) :
    ((image (M.output only)).imports.filter fun i => i.kind = Dylink.kindFunc)[k]? =
      (M.imports.filter fun i => i.desc.kind = DynsymInject.kindFunc)[k]?.map
        (Import.read engineName) := by
  rw [(image_output only M).1, List.filter_map, List.getElem?_map]
  congr 2
  refine List.filter_congr ?_
  intro i _
  have hiff : (i.read engineName).kind = Dylink.kindFunc ↔
      i.desc.kind = DynsymInject.kindFunc := ⟨Option.some.inj, congrArg some⟩
  exact decide_eq_decide.mpr hiff

/-- All functions link against the environment, as functions of the instance. -/
theorem functionsLink_output (hload : M.Loadable) (base : ℕ) (owner : Owner) :
    functionsLink (M.output only) (M.hostImports base) owner = true := by
  rw [functionsLink, (image_output only M).2.1, List.all_eq_true]
  intro k hk
  have hlt : k < (M.imports.filter fun i => i.desc.kind = DynsymInject.kindFunc).length :=
    List.mem_range.mp hk
  have hget := funcImports_output only M k
  rw [List.getElem?_eq_getElem hlt, Option.map_some] at hget
  have hmem := List.getElem_mem hlt
  obtain ⟨hi, hkind⟩ := List.mem_filter.mp hmem
  have hkind' := of_decide_eq_true hkind
  have henv : ((M.imports.filter fun i => i.desc.kind = DynsymInject.kindFunc)[k].read
      engineName).module = ascii "env" :=
    (read_engineName_eq_iff _ "env" (by decide)).mpr (hload.functions _ hi hkind')
  have hname : ((M.imports.filter fun i => i.desc.kind = DynsymInject.kindFunc)[k].read
      engineName).name = units
      (M.imports.filter fun i => i.desc.kind = DynsymInject.kindFunc)[k].name.text :=
    engineName_encodeUtf8 (Name.scalars _)
  have hhost := hostEnv_get_function hload hi hkind'
  simp only [funcImport, hget, importValue, henv, if_true, hostImports, hname, hhost]
  rfl

/-- None of them is the bridge that fills the table. -/
theorem funcAt_ne_bridge {base : ℕ} {owner : Owner} {j : ℕ} {f : Fn}
    (h : funcAt (M.output only) (M.hostImports base) owner j = some f) : f ≠ .faultBridge := by
  unfold funcAt at h
  split at h
  · unfold funcImport at h
    split at h
    · cases h
    · rename_i i _
      split at h
      · rename_i g hvalue
        unfold importValue at hvalue
        split at hvalue
        · rcases hostEnv_get_cases hvalue with hv | hv <;> cases hv
        · cases hvalue
      · cases h
        exact fun heq => by cases heq
      · cases h
  · cases h
    exact fun heq => by cases heq

/-- A segment that does not start at the table base starts at a place that the base has
no influence on. -/
theorem elemStart_fixed (only : Option (Str → Bool)) (hload : M.Loadable)
    (h : ¬ ∃ k i, M.offset = .global k ∧ M.globalImports[k.value]? = some i ∧
      i.module.text = literal "env" ∧
      (i.name.text = literal "__table_base" ∨ i.name.text = literal "__table_base32")) :
    ∃ start < 2 ^ 32, ∀ base, elemStart zeroEngine (M.output only) (M.hostImports base)
      M.offset.value = some start := by
  cases hoffset : M.offset with
  | const value =>
    refine ⟨(Cursor.signedValue value % 2 ^ 32).toNat, ?_, fun _ => rfl⟩
    omega
  | global k =>
    refine ⟨0, by decide, ?_⟩
    intro base
    have hzero : globalAt zeroEngine (M.output only) (M.hostImports base) k.value = some 0 := by
      unfold globalAt
      rw [globalImport_output]
      cases hi : M.globalImports[k.value]? with
      | none => rfl
      | some i =>
        have henv := (hload.offsetGlobal k i hoffset hi).1
        have hread := (read_engineName_eq_iff i.module "env" (by decide)).mpr henv
        have hbase := mt (read_engineName_eq_iff i.name "__table_base" (by decide)).mp
          fun hname => h ⟨k, i, hoffset, hi, henv, .inl hname⟩
        have hbase32 := mt (read_engineName_eq_iff i.name "__table_base32" (by decide)).mp
          fun hname => h ⟨k, i, hoffset, hi, henv, .inr hname⟩
        have hname : i.name.read engineName = units i.name.text :=
          engineName_encodeUtf8 i.name.scalars
        have hget := hostEnv_get_offset (M := M) (t := i.name.text)
          (by simp [offsetName, hoffset, hi])
        simp only [Option.map_some, Import.read, hread, hbase, hbase32, or_self, if_false, ne_eq,
          not_true_eq_false]
        by_cases hmemory : i.name.read engineName = ascii "__memory_base"
        · rw [if_pos hmemory]
          rfl
        · rw [if_neg hmemory, hname]
          simp only [hostImports, hget]
    simp only [OffsetExpr.value, elemStart, hzero]
    rfl

/-- A table of any length with the bridge everywhere. -/
def bridgeTable : List (Option Fn) := List.replicate (2 ^ 34) (some .faultBridge)

theorem bridgeTable_get {k : ℕ} (h : k < 2 ^ 34) : bridgeTable[k]? = some (some .faultBridge) := by
  unfold bridgeTable
  rw [List.getElem?_replicate, if_pos h]

theorem bridgeTable_length : bridgeTable.length = 2 ^ 34 := List.length_replicate

/-- Away from the base there is an instance with none of the slots filled in. -/
theorem exists_unfilled (only : Option (Str → Bool)) (hload : M.Loadable) (h : ¬ M.Anchored) :
    ∃ base < 2 ^ 32, ∃ table',
    instantiate zeroEngine (M.output only) (M.hostImports base) .main bridgeTable =
      (some (newInstance zeroEngine (M.output only) (M.hostImports base) .main), table') ∧
    ∀ slot < M.elemFuncs.length + (M.assigned only).added.length,
      table'[base + slot]? = some (some .faultBridge) := by
  have hbound := (assigned_assign only M.elemFuncs M.functionExports).bounded
  have hsmall := hload.small
  have hlen : M.elemFuncs.length + (M.assigned only).added.length < 2 ^ 31 := by
    unfold assigned
    omega
  have helem := (image_output only M).2.2.2
  have hrun : ∀ base table', initElements zeroEngine (M.output only) (M.hostImports base) .main
      bridgeTable = some table' → instantiate zeroEngine (M.output only) (M.hostImports base) .main
      bridgeTable =
        (some (newInstance zeroEngine (M.output only) (M.hostImports base) .main), table') := by
    intro base table' hinit
    have hlinks : zeroEngine.links (M.output only) (M.hostImports base) = true := rfl
    have hstarts : zeroEngine.initialises (M.output only) (M.hostImports base) = true := rfl
    simp only [instantiate, functionsLink_output hload, hlinks, hinit, hstarts, Bool.and_self,
      if_true]
  by_cases hshares : sharesTable (M.output only) = true
  · have hoffset : ¬ ∃ k i, M.offset = .global k ∧ M.globalImports[k.value]? = some i ∧
        i.module.text = literal "env" ∧
        (i.name.text = literal "__table_base" ∨ i.name.text = literal "__table_base32") :=
      fun hbase => h ⟨hbase, (sharesTable_output M).mp hshares⟩
    obtain ⟨start, hstart, hfixed⟩ := elemStart_fixed only hload hoffset
    -- a base beyond the segment, or before it when the segment is high up
    obtain ⟨base, hbase, haway⟩ : ∃ base < 2 ^ 32, ∀ slot < M.elemFuncs.length +
        (M.assigned only).added.length, ¬ (start ≤ base + slot ∧
          base + slot < start + (M.elemFuncs.length + (M.assigned only).added.length)) := by
      by_cases hlow : start < 2 ^ 31
      · exact ⟨start + (M.elemFuncs.length + (M.assigned only).added.length), by omega,
          fun slot _ => by omega⟩
      · exact ⟨0, by decide, fun slot _ => by omega⟩
    refine ⟨base, hbase, overwrite bridgeTable start ((M.elemFuncs ++ (M.assigned only).added).map
      (funcAt (M.output only) (M.hostImports base) .main)), hrun base _ ?_, ?_⟩
    · simp only [initElements, helem, hshares, if_true, hfixed base]
      rw [if_pos]
      rw [bridgeTable_length, List.length_append]
      omega
    · intro slot hslot
      have hfits : start + ((M.elemFuncs ++ (M.assigned only).added).map
          (funcAt (M.output only) (M.hostImports base) .main)).length ≤ bridgeTable.length := by
        rw [bridgeTable_length, List.length_map, List.length_append]
        omega
      rw [getElem?_overwrite hfits, if_neg, bridgeTable_get (by omega)]
      rw [List.length_map, List.length_append]
      exact haway slot hslot
  · refine ⟨0, by decide, bridgeTable, hrun 0 bridgeTable ?_, ?_⟩
    · simp [initElements, helem, hshares]
    · intro slot hslot
      exact bridgeTable_get (by omega)

/-- Where a slot that the loader reads back comes from. -/
theorem slot_origin {info : Info} {e : Str × ℕ} (he : M.Recorded only e)
    (hdynsym : info.dynsym = (M.assigned only).dynsym.foldl
      (fun m e => m.set (utf8Decode (encodeUtf8 e.1)) e.2) JsMap.empty) {t : Utf16} {slot : ℕ}
    (h : (exportedElemSlots info).get t = some slot) :
    ∃ x, M.Recorded only x ∧ utf8Decode (encodeUtf8 x.1) = t ∧
      slot < M.elemFuncs.length + (M.assigned only).added.length := by
  have hslots : exportedElemSlots info = info.dynsym := by
    unfold exportedElemSlots
    rw [if_pos]
    intro hempty
    obtain ⟨slot', hentry, -⟩ := (assigned_assign only M.elemFuncs M.functionExports).recorded e he
    have hsome := JsMap.get_foldl_set_isSome (fun x : Str × ℕ => utf8Decode (encodeUtf8 x.1))
      Prod.snd (m := JsMap.empty) (.inr ⟨(e.1, slot'), hentry, rfl⟩)
    rw [assigned] at hdynsym
    rw [← hdynsym] at hsome
    simp [JsMap.get, hempty] at hsome
  rw [hslots, hdynsym] at h
  rcases JsMap.get_foldl_set_cases (fun x : Str × ℕ => utf8Decode (encodeUtf8 x.1)) Prod.snd h
    with hnone | ⟨⟨name, k⟩, hx, hkey, rfl⟩
  · cases hnone
  · obtain ⟨j, hj, hget⟩ := dynsym_mem hx
    refine ⟨(name, j), hj, hkey, ?_⟩
    have hlt := (List.getElem?_eq_some_iff.mp hget).1
    rwa [List.length_append] at hlt

theorem anchored_of_slotRight (hload : M.Loadable) {e : Str × ℕ} (he : M.Recorded only e)
    (h : SlotRight (M.output only) e) : M.Anchored := by
  by_contra hnot
  obtain ⟨info, hparse, hdynsym, -⟩ := loader_output only M hload.customs
  obtain ⟨info', slot, hparse', hget, hright⟩ := h
  obtain rfl : info = info' := Except.ok.inj (hparse.symm.trans hparse')
  obtain ⟨-, -, -, hslot⟩ := slot_origin he hdynsym hget
  obtain ⟨base, hbase, table', hinst, hunfilled⟩ := exists_unfilled only hload hnot
  obtain ⟨f, hexport, htable⟩ := hright zeroEngine (M.hostImports base) .main bridgeTable table' _
    hbase hinst
  obtain ⟨g, hg, hexport'⟩ := instance_get (E := zeroEngine) he.mem
    (functionsLink_output hload base .main)
  have hsame : g = f := by
    rw [hexport'] at hexport
    cases hexport
    rfl
  have hbridge : f = .faultBridge := by
    have h := htable.symm.trans (hunfilled slot hslot)
    cases h
    rfl
  exact funcAt_ne_bridge hg (hsame.trans hbridge)

/-- A name with a mark is found only through a longer one. -/
theorem longer_marked (hload : M.Loadable)
    (h : ∀ e, M.Recorded only e → SlotRight (M.output only) e) {e : Str × ℕ}
    (he : M.Recorded only e) (hmark : Marked e.1) :
    ∃ x, M.Recorded only x ∧ Marked x.1 ∧ e.1.length < x.1.length := by
  obtain ⟨info, hparse, hdynsym, -⟩ := loader_output only M hload.customs
  obtain ⟨info', slot, hparse', hget, -⟩ := h e he
  obtain rfl : info = info' := Except.ok.inj (hparse.symm.trans hparse')
  obtain ⟨x, hx, hkey, -⟩ := slot_origin he hdynsym hget
  have hscalars := functionExports_scalars hx.mem
  rw [utf8Decode_encodeUtf8 hscalars] at hkey
  by_cases hxmark : Marked x.1
  · rw [if_pos hxmark] at hkey
    have htail : x.1.tail = e.1 :=
      units_inj (fun c hc => hscalars c (List.mem_of_mem_tail hc))
        (functionExports_scalars he.mem) hkey
    refine ⟨x, hx, hxmark, ?_⟩
    obtain ⟨t, ht⟩ := List.head?_eq_some_iff.mp hxmark
    rw [ht, List.tail_cons] at htail
    rw [ht, htail, List.length_cons]
    exact Nat.lt_succ_self _
  · rw [if_neg hxmark] at hkey
    have hsame : x.1 = e.1 := units_inj hscalars (functionExports_scalars he.mem) hkey
    exact absurd (hsame ▸ hmark) hxmark

theorem names_of_slotRight (hload : M.Loadable)
    (h : ∀ e, M.Recorded only e → SlotRight (M.output only) e) :
    ∀ e, M.Recorded only e → ¬ Marked e.1 := by
  intro e he hmark
  have hgrow : ∀ n, ∃ x, M.Recorded only x ∧ Marked x.1 ∧ n ≤ x.1.length := by
    intro n
    induction n with
    | zero => exact ⟨e, he, hmark, Nat.zero_le _⟩
    | succ n ih =>
      obtain ⟨x, hx, hxmark, hlen⟩ := ih
      obtain ⟨y, hy, hymark, hlt⟩ := longer_marked hload h hx hxmark
      exact ⟨y, hy, hymark, by omega⟩
  obtain ⟨x, hx, -, hlen⟩ := hgrow ((M.functionExports.map fun e => e.1.length).sum + 1)
  have hle : x.1.length ≤ (M.functionExports.map fun e => e.1.length).sum :=
    List.le_sum_of_mem (List.mem_map_of_mem (f := fun e : Str × ℕ => e.1.length) hx.mem)
  omega

/-- The condition is needed. -/
theorem injectable_of_injects (hload : M.Loadable) (h : M.Injects only) : M.Injectable only := by
  obtain ⟨out, hinject, hslots, -, hgrown, hrest⟩ := h
  have hsegment : M.hasElem = true → M.segments ≠ [] := by
    intro hhas hempty
    rw [inject_encode, if_pos ⟨hhas, hempty⟩] at hinject
    cases hinject
  obtain rfl : M.output only = out :=
    Option.some.inj ((inject_eq_output hsegment).symm.trans hinject)
  obtain ⟨htables, hmem⟩ := (grown_iff hload.customs).mp hgrown
  exact ⟨hsegment, fun ⟨e, he⟩ => anchored_of_slotRight hload he (hslots e he),
    restKept_iff.mp hrest, htables, hmem, names_of_slotRight hload hslots, hload.customs⟩

end Needed

/-- The injector does what it is for when the condition holds, and for a module that the
loader takes only then. -/
theorem injects_exactly (only : Option (Str → Bool)) (M : SideModule) :
    (M.Injectable only → M.Injects only) ∧
      (M.Loadable → M.Injects only → M.Injectable only) :=
  ⟨injects_of_injectable, injectable_of_injects⟩

section Sample

def asciiName (name : String) (h : name.toList.all (fun c => c.toNat < 128) = true) : Name where
  length := Leb.ofNat (encodeUtf8 (literal name)).length
  text := literal name
  scalars := literal_scalars name h
  counted := Leb.value_ofNat _

def sampleTable : Import where
  module := asciiName "env" (by decide)
  name := asciiName "__indirect_function_table" (by decide)
  desc := .table 0x70 ⟨Leb.ofNat 0, Leb.ofNat 0, none, Limits.unbounded⟩

def sampleBase : Import where
  module := asciiName "env" (by decide)
  name := asciiName "__table_base" (by decide)
  desc := .global 0x7f 0

def sampleDylink : Content :=
  .dylink (asciiName "dylink.0" (by decide)) [.memInfo (Leb.ofNat 4) (Leb.ofNat 0) (Leb.ofNat 0)
    (Leb.ofNat 0) (Leb.ofNat 0) (by decide)] rfl

/-- The function `f`, exported and in no segment, up to the element section. -/
def sampleHead : List Content :=
  [sampleDylink, .plain 1 [1, 0x60, 0, 0] (by decide),
    .imports (Vec.ofList [sampleTable, sampleBase]), .plain 3 [1, 0] (by decide),
    .exports (Vec.ofList [⟨asciiName "f" (by decide), DynsymInject.kindFunc, Leb.ofNat 0⟩])]

def sampleCode : Content := .plain 10 [1, 2, 0, 0x0b] (by decide)

def sampleSegment : Content := elemContent (.global (Leb.ofNat 0)) []

/-- The module with an empty segment at the table base. -/
def anchoredModule : SideModule where
  sections := (sampleHead ++ [sampleSegment, sampleCode]).map Sec.ofContent
  ordered := by decide
  oneDylink := rfl
  distinct := by decide

/-- The same module without an element section. -/
def segmentlessModule : SideModule where
  sections := (sampleHead ++ [sampleCode]).map Sec.ofContent
  ordered := by decide
  oneDylink := rfl
  distinct := by decide

theorem injects_exactly_anchored : anchoredModule.Injects none := by
  refine (injects_exactly none anchoredModule).1 ⟨?_, ?_, ?_, ?_, ?_, ?_, ?_⟩
  · exact fun _ => List.cons_ne_nil _ _
  · exact fun _ => ⟨⟨Leb.ofNat 0, sampleBase, rfl, rfl, rfl, .inl rfl⟩, sampleTable, rfl, rfl, rfl⟩
  · intro h
    exact absurd h (by decide)
  · exact fun _ => by decide
  · exact fun _ => ⟨_, List.mem_cons_self .., fun h => by cases h⟩
  · intro e he
    have hall : ∀ e ∈ anchoredModule.functionExports, ¬ Marked e.1 := by decide
    exact hall e he.mem
  · have hall : ∀ c ∈ sampleHead ++ [sampleSegment, sampleCode], ¬ c.IsDisguised := by
      simp [sampleHead, sampleDylink, sampleSegment, sampleCode, elemContent, Content.IsDisguised]
    exact hall

/-- Without an element section the new one starts at 0, whatever the table base. -/
theorem segmentless_export : segmentlessModule.Loadable ∧ ¬ segmentlessModule.Injects none := by
  have hload : segmentlessModule.Loadable := by
    refine ⟨?_, ?_, by decide, ?_⟩
    · have hall : ∀ i ∈ [sampleTable, sampleBase], i.desc.kind = DynsymInject.kindFunc →
          i.module.text = literal "env" := by
        intro i hi hkind
        simp only [List.mem_cons, List.not_mem_nil, or_false] at hi
        rcases hi with rfl | rfl <;> rfl
      exact hall
    · intro k i h
      cases h
    · have hall : ∀ c ∈ sampleHead ++ [sampleCode], ¬ c.IsDisguised := by
        simp [sampleHead, sampleDylink, sampleCode, Content.IsDisguised]
      exact hall
  refine ⟨hload, ?_⟩
  intro h
  have hrecorded : segmentlessModule.Recorded none (literal "f", 0) :=
    ⟨[], [], by decide, .inr ⟨(literal "f", 0), by simp, rfl, rfl⟩⟩
  obtain ⟨⟨k, i, hoffset, -⟩, -⟩ :=
    (injectable_of_injects hload h).anchored ⟨_, hrecorded⟩
  cases hoffset

end Sample

end NixWasm.SideModule
