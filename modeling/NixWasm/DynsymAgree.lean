import NixWasm.DynsymOutput

/-!
What the injector is for, as a property of its output: the recorded slots are those of
the exported functions once the module is instantiated at any table base, old slots stay,
the table import and `MEM_INFO` grow by the number of new slots, the sections are in
order and everything else is as it was. A condition on the input is shown to be enough.
-/
namespace NixWasm.SideModule

open Dylink DynamicLoader DynsymInject Bytes Bytes.Reader Unicode

/-- An import as its bytes, those of a table without its limits, which are flags, minimum
and maximum. -/
abbrev ImportView := List UInt8 × Option (ℕ × ℕ × Option ℕ)

def importLimits (kind : UInt8) : Reader ImportView :=
  if kind = DynsymInject.kindTable then do
    let refType ← upTo 1
    let flags ← uleb
    let min ← uleb
    let max ← optionalMax flags
    return (refType, some (flags, min, max))
  else do
    let (tail, _) ← consumed (importTail kind)
    return (tail, none)

def importView : Reader ImportView := do
  let (head, kind) ← consumed importHead
  let (tail, limits) ← importLimits kind
  return (head ++ tail, limits)

def importViews (body : List UInt8) : Option (List ImportView) := do
  let (count, rest) ← uleb body
  let (views, _) ← items importView count rest
  return views

/-- The subsections of `dylink.0` other than `MEM_INFO`, as number and payload. -/
def otherSubsections : ℕ → List UInt8 → Option (List (UInt8 × List UInt8))
  | _, [] => some []
  | 0, _ => none
  | fuel + 1, id :: rest => do
    let (size, rest) ← uleb rest
    let later ← otherSubsections fuel (rest.drop size)
    return if id = wasmDylinkMemInfo then later else (id, rest.take size) :: later

def dylinkOthers (body : List UInt8) : Option (List (UInt8 × List UInt8)) := do
  let (_, rest) ← readName body
  otherSubsections rest.length rest

/-- The first table of a list of imports `n` entries larger. -/
def growFirst (n : ℕ) : List ImportView → List ImportView
  | [] => []
  | (bytes, some (flags, min, max)) :: rest =>
    (bytes, some (flags, min + n, max.map (· + n))) :: rest
  | (bytes, none) :: rest => (bytes, none) :: growFirst n rest

/-- Sections that have nothing to do with the change. -/
def untouched (s : Section) : Bool :=
  s.id ≠ secImport ∧ s.id ≠ secElem ∧ ¬ isCustom (literal "dylink.0") s ∧
    ¬ isCustom (literal "cb.dynsym") s

def bodies (p : Section → Bool) (sections : List Section) : List (List UInt8) :=
  (sections.filter p).map Section.body

def Import.view (i : Import) : ImportView :=
  match i.desc with
  | .table refType limits =>
    (i.module.bytes ++ (i.name.bytes ++ [i.desc.kind]) ++ [refType],
      some (limits.flags.value, limits.min.value, limits.max.map Leb.value))
  | desc => (i.module.bytes ++ (i.name.bytes ++ [i.desc.kind]) ++ desc.bytes, none)

def Sub.view : Sub → Option (UInt8 × List UInt8)
  | .memInfo .. => none
  | .other id _ payload _ _ => some (id, payload)

/-- The entries of an import section, as a list of their own. -/
def Content.importLists : Content → List (List Import)
  | .imports entries => [entries.items]
  | _ => []

section Property

variable (only : Option (Str → Bool)) (M : SideModule)

/-- The exported function `e` gets a slot. -/
def Recorded (e : Str × ℕ) : Prop := DynsymInject.Recorded only M.elemFuncs M.functionExports e

/-- Some exported function needs a new slot. -/
def Wanted : Prop := DynsymInject.Wanted only M.elemFuncs M.functionExports

/-- The slot that the loader reads back for `e` is that of the exported function in the
table of every instance. -/
def SlotRight (out : List UInt8) (e : Str × ℕ) : Prop :=
  ∃ info slot, parseDylinkModule out = .ok info ∧
    (exportedElemSlots info).get (units e.1) = some slot ∧
    ∀ (E : Engine) (I : Imports) (owner : Owner) (table table' : List (Option Fn)) (i : Instance),
      I.tableBase < 2 ^ 32 → instantiate E out I owner table = (some i, table') →
      ∃ f, i.get (units e.1) = some (.func f) ∧ table'[I.tableBase + slot]? = some (some f)

/-- The slots of the input's segment keep their functions. -/
def SlotsKept (out : List UInt8) : Prop :=
  ∀ (E : Engine) (I : Imports) (owner : Owner) (table table' : List (Option Fn)) (i : Instance)
    (start : ℕ), sharesTable out = true → instantiate E out I owner table = (some i, table') →
    elemStart E out I M.offset.value = some start →
    ∀ k j, M.elemFuncs[k]? = some j → table'[start + k]? = some (funcAt out I owner j)

/-- The segment, the imported table and the table size grow by the same number. -/
def Grown (out : List UInt8) : Prop :=
  ∃ n sections info₀ info d₀ d, (image out).elemCount = M.elemFuncs.length + n ∧
    parseSections out = some sections ∧
    (bodies (fun s => s.id = secImport) sections).mapM importViews =
      some ((M.contents.flatMap Content.importLists).map fun l => growFirst n (l.map Import.view)) ∧
    parseDylinkModule M.encode = .ok info₀ ∧ info₀.dylink = some d₀ ∧
    parseDylinkModule out = .ok info ∧ info.dylink = some d ∧
    sectionMemInfo d = MemInfo.grow n (sectionMemInfo d₀)

/-- The sections are in order, and what the change is not about is as it was. -/
def RestKept (out : List UInt8) : Prop :=
  ∃ sections, parseSections out = some sections ∧ Ordered (sections.map Section.id) ∧
    sections.filter untouched = (M.contents.map Content.raw).filter untouched ∧
    (bodies (isCustom (literal "dylink.0")) sections).mapM dylinkOthers =
      some [M.subs.filterMap Sub.view]

/-- The injector does what it is for. -/
def Injects : Prop :=
  ∃ out, inject only M.encode = some out ∧ (∀ e, M.Recorded only e → SlotRight out e) ∧
    M.SlotsKept out ∧ M.Grown out ∧ M.RestKept out

def tableImports : List Import := M.imports.filter fun i => i.desc.kind = DynsymInject.kindTable

def globalImports : List Import := M.imports.filter fun i => i.desc.kind = DynsymInject.kindGlobal

/-- The segment is for the shared table and starts at the table base. -/
def Anchored : Prop :=
  (∃ k i, M.offset = .global k ∧ M.globalImports[k.value]? = some i ∧
    i.module.text = literal "env" ∧
    (i.name.text = literal "__table_base" ∨ i.name.text = literal "__table_base32")) ∧
  ∃ i, M.tableImports.head? = some i ∧ i.module.text = literal "env" ∧
    i.name.text = literal "__indirect_function_table"

/-- The condition on the input. -/
structure Injectable : Prop where
  segment : M.hasElem = true → M.segments ≠ []
  anchored : (∃ e, M.Recorded only e) → M.Anchored
  untagged : M.hasElem = false → ∀ c ∈ M.contents, c.id ≠ 13
  oneTable : M.Wanted only → M.tableImports.length ≤ 1
  memInfo : M.Wanted only → ∃ s ∈ M.subs, s.sets ≠ none
  names : ∀ e, M.Recorded only e → ¬ Marked e.1
  customs : ∀ c ∈ M.contents, ¬ c.IsDisguised

end Property

section Views

theorem reads_importView (i : Import) : Reads importView i.bytes i.view := by
  have hhead : Reads importHead (i.module.bytes ++ (i.name.bytes ++ [i.desc.kind])) i.desc.kind :=
    reads_bind (reads_name i.module) (reads_bind (reads_name i.name) (reads_byte i.desc.kind))
  have hsplit : i.bytes = (i.module.bytes ++ (i.name.bytes ++ [i.desc.kind])) ++ i.desc.bytes := by
    simp [Import.bytes]
  have hlimits : ∃ tail limits, Reads (importLimits i.desc.kind) i.desc.bytes (tail, limits) ∧
      i.view = (i.module.bytes ++ (i.name.bytes ++ [i.desc.kind]) ++ tail, limits) := by
    unfold importLimits
    by_cases hkind : i.desc.kind = DynsymInject.kindTable
    · rw [if_pos hkind]
      obtain ⟨refType, limits, hdesc⟩ := ImportDesc.kind_eq_table hkind
      rw [hdesc]
      refine ⟨[refType], _, ?_, by rw [Import.view, hdesc]⟩
      exact reads_bind (reads_upTo [refType]) (reads_bind (reads_uleb limits.flags)
        (reads_bind (reads_uleb limits.min) (reads_last (reads_optionalMax limits))))
    · rw [if_neg hkind]
      refine ⟨i.desc.bytes, none, reads_last (reads_consumed (reads_importTail i.desc hkind)), ?_⟩
      unfold Import.view
      split
      · rename_i refType limits hdesc
        rw [hdesc] at hkind
        exact absurd rfl hkind
      · rfl
  obtain ⟨tail, limits, hread, hview⟩ := hlimits
  rw [hview, hsplit]
  exact reads_bind (reads_consumed hhead) (reads_last hread)

theorem importViews_bytes (v : Vec Import) :
    importViews (v.bytes Import.bytes) = some (v.items.map Import.view) := by
  have hitems := reads_items importView Import.bytes Import.view v.items
    (fun i _ => reads_importView i) []
  rw [List.append_nil] at hitems
  have hcount := reads_uleb v.count (v.items.flatMap Import.bytes)
  simp only [importViews, Vec.bytes, hcount, v.counted, Option.bind_eq_bind,
    Option.bind_some, hitems]
  rfl

theorem otherSubsections_bytes (fuel : ℕ) (subs : List Sub) (h : subs.length ≤ fuel) :
    otherSubsections fuel (subs.flatMap Sub.bytes) = some (subs.filterMap Sub.view) := by
  induction subs generalizing fuel with
  | nil => cases fuel <;> rfl
  | cons s subs ih =>
    obtain ⟨fuel, rfl⟩ : ∃ f, fuel = f + 1 := ⟨fuel - 1, by simp at h; omega⟩
    have htail := ih fuel (by simp at h; omega)
    cases s with
    | memInfo size memSize memAlign tableSize tableAlign sized =>
      have hdrop : (memSize.bytes ++ (memAlign.bytes ++ (tableSize.bytes ++ (tableAlign.bytes ++
          subs.flatMap Sub.bytes)))).drop size.value = subs.flatMap Sub.bytes := by
        rw [sized]
        simp
      simp only [List.flatMap_cons, Sub.bytes, List.cons_append, List.append_assoc,
        otherSubsections, reads_uleb size _, Option.bind_eq_bind, Option.bind_some, hdrop, htail]
      rfl
    | other id size payload notMemInfo sized =>
      simp only [List.flatMap_cons, Sub.bytes, List.cons_append, List.append_assoc,
        otherSubsections, reads_uleb size _, Option.bind_eq_bind, Option.bind_some, sized,
        List.drop_left, List.take_left, htail, notMemInfo, if_false]
      rfl

theorem dylinkOthers_bytes (name : Name) (subs : List Sub) :
    dylinkOthers (name.bytes ++ subs.flatMap Sub.bytes) = some (subs.filterMap Sub.view) := by
  have hlen := length_le_flatMap subs Sub.bytes (by intro s _; cases s <;> simp [Sub.bytes])
  simp only [dylinkOthers, reads_name name _, Option.bind_eq_bind, Option.bind_some]
  exact otherSubsections_bytes _ subs hlen

theorem view_grow (n : ℕ) (s : Sub) : (s.grow n).view = s.view := by cases s <;> rfl

/-- Every table of a list of imports `n` entries larger, as the injector has it. -/
def growTable (n : ℕ) (v : ImportView) : ImportView :=
  (v.1, v.2.map fun l => (l.1, l.2.1 + n, l.2.2.map (· + n)))

theorem import_view_grow (n : ℕ) (i : Import) : (i.grow n).view = growTable n i.view := by
  unfold Import.view Import.grow growTable
  cases i.desc with
  | table refType limits =>
    simp [ImportDesc.grow, ImportDesc.kind, Limits.grow, Function.comp_def]
  | _ => rfl

def isTable (v : ImportView) : Bool := v.2.isSome

theorem map_growTable_of_none (n : ℕ) (vs : List ImportView) (h : vs.filter isTable = []) :
    vs.map (growTable n) = vs := by
  conv_rhs => rw [← List.map_id vs]
  refine List.map_congr_left ?_
  rintro ⟨bytes, limits⟩ hv
  have hnot := List.filter_eq_nil_iff.mp h _ hv
  cases limits with
  | none => rfl
  | some l => exact absurd rfl hnot

/-- Growing every table is growing the first one exactly when there is no other, or
nothing to grow by. -/
theorem map_growTable_eq_iff (n : ℕ) (vs : List ImportView) :
    vs.map (growTable n) = growFirst n vs ↔ n = 0 ∨ (vs.filter isTable).length ≤ 1 := by
  induction vs with
  | nil => simp [growFirst]
  | cons v vs ih =>
    obtain ⟨bytes, limits⟩ := v
    cases limits with
    | none =>
      rw [List.filter_cons_of_neg (by simp [isTable]), ← ih]
      simp [growFirst, growTable]
    | some l =>
      obtain ⟨flags, min, max⟩ := l
      rw [List.filter_cons_of_pos (by rfl), List.length_cons]
      have hhead : growTable n (bytes, some (flags, min, max)) =
          (bytes, some (flags, min + n, max.map (· + n))) := rfl
      rw [List.map_cons, growFirst, hhead, List.cons.injEq]
      simp only [true_and]
      constructor
      · intro hsame
        by_cases hn : n = 0
        · exact .inl hn
        · refine .inr ?_
          by_contra hlong
          obtain ⟨w, hw⟩ : ∃ w, w ∈ vs.filter isTable :=
            List.exists_mem_of_length_pos (by omega)
          obtain ⟨hmem, htable⟩ := List.mem_filter.mp hw
          have hfix : growTable n w = w := by
            have hmap : vs.map (growTable n) = vs.map id := by rw [hsame, List.map_id]
            exact List.map_inj_left.mp hmap w hmem
          obtain ⟨wbytes, wlimits⟩ := w
          cases wlimits with
          | none => cases htable
          | some wl =>
            have hmin := congrArg (fun v : ImportView => v.2.map fun l => l.2.1) hfix
            simp [growTable] at hmin
            exact hn hmin
      · rintro (rfl | hle)
        · have hid : growTable 0 = id := by
            funext w
            obtain ⟨wbytes, wlimits⟩ := w
            cases wlimits <;> simp [growTable]
          rw [hid, List.map_id]
        · exact map_growTable_of_none n vs (List.length_eq_zero_iff.mp (by omega))

end Views

section Order

/-- Where a new element section goes, by section numbers. -/
def insertId : List UInt8 → List UInt8
  | [] => [secElem]
  | id :: rest =>
    if id > secElem ∧ id ≠ secCustom then secElem :: id :: rest else id :: insertId rest

theorem insertContent_ids {elem : Content} (h : elem.id = secElem) (cs : List Content) :
    (insertContent elem cs).map Content.id = insertId (cs.map Content.id) := by
  induction cs with
  | nil => simp [insertContent, insertId, h]
  | cons c cs ih =>
    rw [insertContent, List.map_cons, insertId]
    split
    · simp [h]
    · simp [ih]

theorem mem_insertId {ids : List UInt8} {id : UInt8} (h : id ∈ insertId ids) :
    id = secElem ∨ id ∈ ids := by
  induction ids with
  | nil => simpa [insertId] using h
  | cons a ids ih =>
    rw [insertId] at h
    split at h
    · simpa using h
    · rcases List.mem_cons.mp h with rfl | h
      · exact .inr (List.mem_cons_self ..)
      · exact (ih h).imp_right (List.mem_cons_of_mem a)

theorem ordered_cons (id : UInt8) (ids : List UInt8) : Ordered (id :: ids) ↔
    (∀ r, rank id = some r → ∀ j ∈ ids, ∀ r', rank j = some r' → r < r') ∧ Ordered ids := by
  unfold Ordered
  rw [List.filterMap_cons]
  cases hr : rank id with
  | none => simp
  | some r =>
    simp only [List.pairwise_cons, List.mem_filterMap, forall_exists_index, and_imp,
      Option.some.injEq, forall_eq']
    constructor
    · rintro ⟨hall, htail⟩
      exact ⟨fun j hj r' hr' => hall r' j hj hr', htail⟩
    · rintro ⟨hall, htail⟩
      exact ⟨fun r' j hj hr' => hall j hj r' hr', htail⟩

/-- The section numbers there are. -/
def sectionIds : List UInt8 := [0, 1, 2, 3, 4, 5, 6, 7, 8, 9, 10, 11, 12, 13]

/-- Ranks around that of the element section. -/
theorem rank_low {id : UInt8} {r : ℕ} (hid : id ∈ sectionIds)
    (h : ¬ (id > secElem ∧ id ≠ secCustom)) (hne : id ≠ secElem) (hr : rank id = some r) :
    r < 10 := by
  have hfacts : ∀ id ∈ sectionIds, ¬ (id > secElem ∧ id ≠ secCustom) → id ≠ secElem →
      (rank id).all (fun r => r < 10) = true := by
    simp [sectionIds, secElem, secCustom, rank]
  have hall := hfacts id hid h hne
  rw [hr] at hall
  simpa using hall

theorem rank_high {id : UInt8} (hid : id ∈ sectionIds) (h : id > secElem) (hne : id ≠ 13) :
    ∃ r, rank id = some r ∧ 10 < r := by
  have hfacts : ∀ id ∈ sectionIds, id > secElem → id ≠ 13 →
      (rank id).any (fun r => 10 < r) = true := by
    simp [sectionIds, secElem, rank]
  have hany := hfacts id hid h hne
  cases hr : rank id with
  | none => simp [hr] at hany
  | some r => exact ⟨r, rfl, by simpa [hr] using hany⟩

/-- A new element section is in order unless there is a tag section, whose number is
higher and whose place is lower. -/
theorem ordered_insertId_iff {ids : List UInt8} (h : Ordered ids)
    (hle : ∀ id ∈ ids, id ∈ sectionIds)
    (hno : secElem ∉ ids) : Ordered (insertId ids) ↔ (13 : UInt8) ∉ ids := by
  induction ids with
  | nil => simp [insertId, Ordered, rank, secElem]
  | cons a ids ih =>
    obtain ⟨hahead, htail⟩ := (ordered_cons a ids).mp h
    have hrest := ih htail (fun id hid => hle id (List.mem_cons_of_mem a hid))
      (fun hmem => hno (List.mem_cons_of_mem a hmem))
    rw [insertId]
    split
    · rename_i hhigh
      rw [ordered_cons]
      have helem : rank secElem = some 10 := rfl
      have htag : rank 13 = some 6 := rfl
      constructor
      · rintro ⟨hall, -⟩ hmem
        exact absurd (hall 10 helem 13 hmem 6 htag) (by decide)
      · intro hnot
        refine ⟨?_, h⟩
        intro r hr j hj r' hr'
        obtain rfl : 10 = r := Option.some.inj (helem.symm.trans hr)
        obtain ⟨ra, hra, hlt⟩ := rank_high (hle a (List.mem_cons_self ..)) hhigh.1
          (fun heq => hnot (heq ▸ List.mem_cons_self ..))
        rcases List.mem_cons.mp hj with rfl | hj
        · obtain rfl : ra = r' := Option.some.inj (hra.symm.trans hr')
          exact hlt
        · have hmore := hahead ra hra j hj r' hr'
          omega
    · rename_i hlow
      have hne : a ≠ secElem := fun heq => hno (heq ▸ List.mem_cons_self ..)
      have hne13 : a ≠ 13 := by
        rintro rfl
        exact hlow (by decide)
      rw [ordered_cons, hrest]
      constructor
      · rintro ⟨-, hnot⟩ hmem
        rcases List.mem_cons.mp hmem with heq | hmem
        · exact hne13 heq.symm
        · exact hnot hmem
      · intro hnot
        refine ⟨?_, fun hmem => hnot (List.mem_cons_of_mem a hmem)⟩
        intro r hr j hj r' hr'
        rcases mem_insertId hj with rfl | hj
        · obtain rfl : 10 = r' := Option.some.inj ((rfl : rank secElem = some 10).symm.trans hr')
          exact rank_low (hle a (List.mem_cons_self ..)) hlow hne hr
        · exact hahead r hr j hj r' hr'

theorem filterMap_rank_filter (p : Content → Bool) (h : ∀ c, p c = false → rank c.id = none)
    (cs : List Content) :
    ((cs.filter p).map Content.id).filterMap rank = (cs.map Content.id).filterMap rank := by
  induction cs with
  | nil => rfl
  | cons c cs ih =>
    by_cases hp : p c = true
    · rw [List.filter_cons_of_pos hp, List.map_cons, List.map_cons, List.filterMap_cons,
        List.filterMap_cons, ih]
    · have hnone := h c (by simpa using hp)
      rw [List.filter_cons_of_neg hp, List.map_cons, List.filterMap_cons, hnone, ih]

theorem isDynsym_id {c : Content} (h : c.isDynsym = true) : c.id = secCustom := by
  cases c with
  | custom n payload notDylink => rfl
  | _ => cases h

theorem content_id_mem (c : Content) : c.id ∈ sectionIds := by
  have hplain : ∀ id ∈ plainIds, id ∈ sectionIds := by
    simp [plainIds, sectionIds]
  have hnamed : secCustom ∈ sectionIds ∧ secImport ∈ sectionIds ∧ secExport ∈ sectionIds ∧
      secElem ∈ sectionIds := by decide
  cases c with
  | custom n payload notDylink => exact hnamed.1
  | dylink n subs named => exact hnamed.1
  | imports entries => exact hnamed.2.1
  | exports entries => exact hnamed.2.2.1
  | elem segments single => exact hnamed.2.2.2
  | plain id body listed => exact hplain id listed

theorem ordered_injected_iff (only : Option (Str → Bool)) (M : SideModule) :
    Ordered ((M.injected only).map Content.id) ↔
      (M.hasElem = false → ∀ c ∈ M.contents, c.id ≠ 13) := by
  have hM : Ordered (M.contents.map Content.id) := by
    have h := M.ordered
    rwa [show (M.sections.map fun s => s.content.id) = M.contents.map Content.id by
      simp [contents, Function.comp_def]] at h
  have hgrow : ∀ n, ((M.placed only).map (Content.grow n)).map Content.id =
      (M.placed only).map Content.id := by
    intro n
    rw [List.map_map]
    refine List.map_congr_left ?_
    intro c _
    cases c <;> rfl
  have hranks : ((M.injected only).map Content.id).filterMap rank =
      ((M.placed only).map Content.id).filterMap rank := by
    rw [injected, List.map_append, List.filterMap_append,
      filterMap_rank_filter _ (fun c hc => ?_), hgrow]
    · exact List.append_nil _
    · rw [isDynsym_id (by simpa using hc)]
      rfl
  have hsame : Ordered ((M.injected only).map Content.id) ↔
      Ordered ((M.placed only).map Content.id) := by
    unfold Ordered
    rw [hranks]
  rw [hsame]
  unfold placed
  by_cases hhas : M.hasElem = true
  · have hids : (M.contents.map (Content.withElem (M.newElem only))).map Content.id =
        M.contents.map Content.id := by
      rw [List.map_map]
      refine List.map_congr_left ?_
      intro c _
      cases c <;> rfl
    rw [if_pos hhas, hids]
    simp [hM, hhas]
  · have hfalse : M.hasElem = false := by simpa using hhas
    rw [if_neg hhas, insertContent_ids (by rfl), ordered_insertId_iff hM]
    · simp [hfalse]
    · intro id hid
      obtain ⟨c, -, rfl⟩ := List.mem_map.mp hid
      exact content_id_mem c
    · intro hmem
      obtain ⟨c, hc, hid⟩ := List.mem_map.mp hmem
      exact not_hasElem hfalse c hc hid

end Order

section Rest

variable (only : Option (Str → Bool)) (M : SideModule)

theorem filter_raw (p : Section → Bool) (cs : List Content) :
    (cs.map Content.raw).filter p = cs.flatMap fun c => if p c.raw then [c.raw] else [] := by
  induction cs with
  | nil => rfl
  | cons c cs ih =>
    rw [List.map_cons, List.filter_cons, List.flatMap_cons, ih]
    split <;> rfl

theorem bodies_raw (p : Section → Bool) (cs : List Content) :
    bodies p (cs.map Content.raw) = cs.flatMap fun c => if p c.raw then [c.body] else [] := by
  rw [bodies, filter_raw, List.map_flatMap]
  refine List.flatMap_congr ?_
  intro c _
  split <;> rfl

theorem dynsym_not_numbered {c : Content} (h : c.isDynsym = true) {id : UInt8}
    (hid : id ≠ secCustom) : c.id ≠ id := by
  rw [isDynsym_id h]
  exact Ne.symm hid

theorem untouched_injected : ((M.injected only).map Content.raw).filter untouched =
    (M.contents.map Content.raw).filter untouched := by
  rw [filter_raw, filter_raw, injected_flatMap]
  · refine List.flatMap_congr ?_
    intro c _
    have himport : ∀ entries, untouched (Content.imports entries).raw = false := fun _ => rfl
    have hdylink : ∀ name subs named, untouched (Content.dylink name subs named).raw = false := by
      intro name subs named
      have h := isCustom_dylink (Content.dylink name subs named)
      simp [untouched, h, Content.isDylink]
    cases c with
    | imports entries => simp [Content.grow, himport]
    | dylink name subs named => simp [Content.grow, hdylink]
    | _ => rfl
  · intro segments single
    rfl
  · intro c hc
    have h := (isCustom_dynsym c).trans hc
    simp [untouched, h]

theorem mapM_flatMap {α β : Type} (f : Content → List α) (g : α → Option β) (h : Content → List β)
    (cs : List Content) (hc : ∀ c ∈ cs, (f c).mapM g = some (h c)) :
    (cs.flatMap f).mapM g = some (cs.flatMap h) := by
  induction cs with
  | nil => rfl
  | cons c cs ih =>
    rw [List.flatMap_cons, List.mapM_append, hc c (List.mem_cons_self ..),
      ih fun d hd => hc d (List.mem_cons_of_mem c hd)]
    rfl

/-- The imports of the output, every table of them grown. -/
theorem imports_injected :
    (bodies (fun s => s.id = secImport) ((M.injected only).map Content.raw)).mapM importViews =
      some ((M.contents.flatMap Content.importLists).map fun l =>
        (l.map Import.view).map (growTable (M.assigned only).added.length)) := by
  rw [bodies_raw, injected_flatMap, List.map_flatMap]
  · refine mapM_flatMap _ _ _ _ ?_
    intro c _
    by_cases hid : c.id = secImport
    · obtain ⟨entries, rfl⟩ := (id_eq_import_iff c).mp hid
      have hviews := importViews_bytes
        (Vec.ofList (entries.items.map (Import.grow (M.assigned only).added.length)))
      have hbody : ((Content.imports entries).grow (M.assigned only).added.length).body =
        (Vec.ofList (entries.items.map (Import.grow (M.assigned only).added.length))).bytes
          Import.bytes := rfl
      have hmap : (Vec.ofList (entries.items.map
          (Import.grow (M.assigned only).added.length))).items.map Import.view =
          (entries.items.map Import.view).map (growTable (M.assigned only).added.length) := by
        simp [Vec.ofList, Function.comp_def, import_view_grow]
      rw [hmap] at hviews
      have htrue : decide (((Content.imports entries).grow
          (M.assigned only).added.length).raw.id = secImport) = true := rfl
      rw [htrue, if_pos rfl, hbody]
      simp [hviews, Content.importLists]
    · have hnone : c.importLists = [] := by
        cases c with
        | imports entries => exact absurd rfl hid
        | _ => rfl
      have hgrow : (c.grow (M.assigned only).added.length).id = c.id := by cases c <;> rfl
      have hfalse : decide ((c.grow (M.assigned only).added.length).raw.id = secImport) =
          false := by
        rw [Content.raw_id, hgrow]
        exact decide_eq_false hid
      rw [hfalse, hnone]
      rfl
  · intro segments single
    rfl
  · intro c hc
    have hid : c.id ≠ secImport := dynsym_not_numbered hc (by decide)
    have hfalse : decide (c.raw.id = secImport) = false := decide_eq_false hid
    rw [hfalse]
    rfl

/-- What the loader reads of the `dylink.0` section of some contents. -/
def subViews : Content → List (List (UInt8 × List UInt8))
  | .dylink _ subs _ => [subs.filterMap Sub.view]
  | _ => []

theorem dylink_injected :
    (bodies (isCustom (literal "dylink.0")) ((M.injected only).map Content.raw)).mapM dylinkOthers =
      some [M.subs.filterMap Sub.view] := by
  have hsubs : M.contents.flatMap subViews = [M.subs.filterMap Sub.view] := by
    rw [subs_eq]
    refine flatMap_oneDylink _ (fun subs => subs.filterMap Sub.view) (fun _ _ _ => rfl) ?_ _
      filter_isDylink_contents
    intro c hc
    cases c with
    | dylink name subs named => cases hc
    | _ => exact ⟨rfl, rfl⟩
  rw [bodies_raw, ← hsubs]
  simp only [isCustom_dylink]
  rw [injected_flatMap]
  · refine mapM_flatMap _ _ _ _ ?_
    intro c _
    cases c with
    | dylink name subs named =>
      have hothers := dylinkOthers_bytes name
        (subs.map (Sub.grow (M.assigned only).added.length))
      have hview : (subs.map (Sub.grow (M.assigned only).added.length)).filterMap Sub.view =
          subs.filterMap Sub.view := by
        rw [List.filterMap_map]
        exact List.filterMap_congr fun s _ => view_grow _ s
      rw [hview] at hothers
      simp [Content.grow, Content.isDylink, Content.body, hothers, subViews]
    | _ => rfl
  · intro segments single
    rfl
  · intro c hc
    cases c with
    | custom n payload notDylink => rfl
    | _ => cases hc

theorem imports_eq : M.imports = (M.contents.flatMap Content.importLists).flatten := by
  rw [imports, contents, List.flatMap_map, List.flatMap_def, List.flatMap_def, List.flatten_flatten,
    List.map_map]
  congr 1
  refine List.map_congr_left ?_
  intro s _
  cases hc : s.content <;> simp [Content.importEntries, Content.importLists, hc]

theorem importLists_length_le_one : (M.contents.flatMap Content.importLists).length ≤ 1 := by
  have hone := filter_contents_le_one (M := M) (k := secImport) (r := 2) rfl
  have hcount : ∀ cs : List Content, (cs.flatMap Content.importLists).length =
      (cs.filter fun c => c.id = secImport).length := by
    intro cs
    induction cs with
    | nil => rfl
    | cons c cs ih =>
      rw [List.flatMap_cons, List.length_append, ih]
      by_cases hid : c.id = secImport
      · obtain ⟨entries, rfl⟩ := (id_eq_import_iff c).mp hid
        rw [List.filter_cons_of_pos (by simpa using hid), List.length_cons]
        exact Nat.add_comm 1 _
      · have hnone : c.importLists = [] := by
          cases c with
          | imports entries => exact absurd rfl hid
          | _ => rfl
        rw [List.filter_cons_of_neg (by simpa using hid), hnone]
        exact Nat.zero_add _
  rw [hcount]
  exact hone

theorem isTable_view (i : Import) :
    isTable i.view = decide (i.desc.kind = DynsymInject.kindTable) := by
  unfold Import.view
  cases i.desc <;> rfl

/-- All tables grow as the first one should exactly when it is the only one. -/
theorem importLists_grown_iff (n : ℕ) :
    ((M.contents.flatMap Content.importLists).map fun l => (l.map Import.view).map (growTable n)) =
      ((M.contents.flatMap Content.importLists).map fun l => growFirst n (l.map Import.view)) ↔
    n = 0 ∨ M.tableImports.length ≤ 1 := by
  have hle := importLists_length_le_one M
  have himports := imports_eq M
  have htables : ∀ l : List Import, ((l.map Import.view).filter isTable).length =
      (l.filter fun i => i.desc.kind = DynsymInject.kindTable).length := by
    intro l
    rw [List.filter_map, List.length_map]
    simp [Function.comp_def, isTable_view]
  rcases hlists : M.contents.flatMap Content.importLists with _ | ⟨l, rest⟩
  · rw [hlists] at himports
    simp [tableImports, himports]
  · obtain rfl : rest = [] := by
      rw [hlists] at hle
      simpa using hle
    rw [hlists] at himports
    have hl : M.imports = l := by simpa using himports
    rw [List.map_cons, List.map_nil, List.map_cons, List.map_nil, List.cons.injEq]
    simp only [and_true]
    rw [map_growTable_eq_iff, htables, tableImports, hl]

end Rest

end NixWasm.SideModule
