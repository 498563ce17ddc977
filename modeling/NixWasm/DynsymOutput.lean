import NixWasm.DylinkReading
import NixWasm.DylinkTable
import NixWasm.DynsymAssign

/-!
The injector's output as its readers see it: the engine, which keeps every name, and
the loader, which drops a leading byte order mark. Both find the imports and exports of
the input, the longer segment and the grown `MEM_INFO`; the loader finds the map of names.
-/
namespace NixWasm.SideModule

open Dylink DynamicLoader DynsymInject Unicode

section Names

/-- The code units of a string. -/
def units (t : Str) : Utf16 := t.flatMap toUnits

/-- The string starts with a byte order mark. -/
def Marked (t : Str) : Prop := t.head? = some byteOrderMark

instance (t : Str) : Decidable (Marked t) := inferInstanceAs (Decidable (_ = _))

theorem units_inj {s t : Str} (hs : ∀ c ∈ s, IsScalar c) (ht : ∀ c ∈ t, IsScalar c)
    (h : units s = units t) : s = t := by
  rw [← toScalars_flatMap_toUnits s hs, ← toScalars_flatMap_toUnits t ht]
  exact congrArg toScalars h

theorem engineName_encodeUtf8 {t : Str} (h : ∀ c ∈ t, IsScalar c) :
    engineName (encodeUtf8 t) = units t := by
  unfold engineName encodeUtf8 units
  rw [decodeFrom_encodeScalars t h]

theorem utf8Decode_encodeUtf8 {t : Str} (h : ∀ c ∈ t, IsScalar c) :
    utf8Decode (encodeUtf8 t) = if Marked t then units t.tail else units t := by
  unfold utf8Decode encodeUtf8 units
  rw [decodeFrom_encodeScalars t h, dropByteOrderMark_eq]
  by_cases hmark : Marked t
  · have hhead : t.head? = some byteOrderMark := hmark
    rw [if_pos hmark, if_pos hhead]
  · have hhead : ¬ t.head? = some byteOrderMark := hmark
    rw [if_neg hmark, if_neg hhead]

theorem literal_scalars (name : String) (h : name.toList.all (fun c => c.toNat < 128) = true) :
    ∀ c ∈ literal name, IsScalar c := by
  intro c hc
  obtain ⟨ch, hch, rfl⟩ := List.mem_map.mp hc
  have hlt := List.all_eq_true.mp h ch hch
  simp only [decide_eq_true_eq] at hlt
  exact .inl (by omega)

theorem units_literal (name : String) (h : name.toList.all (fun c => c.toNat < 128) = true) :
    units (literal name) = ascii name := by
  unfold units literal ascii
  rw [List.flatMap_map, List.map_eq_flatMap]
  refine List.flatMap_congr ?_
  intro c hc
  have hlt := List.all_eq_true.mp h c hc
  simp only [decide_eq_true_eq] at hlt
  exact if_pos (by omega)

/-- A name is an ASCII literal to the engine when it is one. -/
theorem read_engineName_eq_iff (n : Name) (name : String)
    (h : name.toList.all (fun c => c.toNat < 128) = true) :
    n.read engineName = ascii name ↔ n.text = literal name := by
  rw [Name.read, engineName_encodeUtf8 n.scalars, ← units_literal name h]
  exact ⟨units_inj n.scalars (literal_scalars name h), congrArg units⟩

theorem read_utf8Decode (n : Name) (h : ¬ Marked n.text) :
    n.read utf8Decode = n.read engineName := by
  rw [Name.read, Name.read, utf8Decode_encodeUtf8 n.scalars, if_neg h,
    engineName_encodeUtf8 n.scalars]

/-- A custom section that the loader takes for the load section or the map of names, because it
drops the byte order mark before the name. -/
def Content.IsDisguised : Content → Prop
  | .custom n _ _ => n.text = byteOrderMark :: literal "dylink.0" ∨
      n.text = byteOrderMark :: literal "cb.dynsym"
  | _ => False

theorem told_engineName (c : Content) : c.Told engineName := by
  cases c with
  | custom n payload notDylink =>
    refine ⟨read_engineName_eq_iff n "cb.dynsym" (by decide), ?_⟩
    exact mt (read_engineName_eq_iff n "dylink.0" (by decide)).mp notDylink
  | dylink n subs named => exact (read_engineName_eq_iff n "dylink.0" (by decide)).mpr named
  | _ => trivial

/-- With the mark off, a name is an ASCII literal when the mark stands before that. -/
theorem read_marked_eq_iff (n : Name) (hmark : Marked n.text) (name : String)
    (h : name.toList.all (fun c => c.toNat < 128) = true) :
    n.read utf8Decode = ascii name ↔ n.text = byteOrderMark :: literal name := by
  obtain ⟨rest, hrest⟩ : ∃ rest, n.text = byteOrderMark :: rest := by
    rw [Marked, List.head?_eq_some_iff] at hmark
    exact hmark
  have hscalars : ∀ c ∈ rest, IsScalar c := fun c hc =>
    n.scalars c (hrest ▸ List.mem_cons_of_mem _ hc)
  rw [Name.read, utf8Decode_encodeUtf8 n.scalars, if_pos hmark, hrest, List.tail_cons,
    List.cons_inj_right, ← units_literal name h]
  exact ⟨units_inj hscalars (literal_scalars name h), congrArg units⟩

theorem told_utf8Decode {c : Content} (h : ¬ c.IsDisguised) : c.Told utf8Decode := by
  have hengine := told_engineName c
  cases c with
  | custom n payload notDylink =>
    by_cases hmark : Marked n.text
    · obtain ⟨hdylink, hdynsym⟩ := not_or.mp h
      refine ⟨iff_of_false (mt (read_marked_eq_iff n hmark _ (by decide)).mp hdynsym) ?_,
        mt (read_marked_eq_iff n hmark _ (by decide)).mp hdylink⟩
      intro heq
      rw [heq] at hmark
      exact absurd hmark (by decide)
    · simp only [Content.Told, read_utf8Decode n hmark]
      exact hengine
  | dylink n subs named =>
    have hmark : ¬ Marked n.text := by
      rw [named]
      decide
    simp only [Content.Told, read_utf8Decode n hmark]
    exact hengine
  | _ => trivial

end Names

section Injected

variable (only : Option (Str → Bool)) (M : SideModule)

/-- What a list of sections collects, when element sections give nothing to it. -/
theorem flatMap_insertContent {β : Type} (f : Content → List β) {elem : Content} (h : f elem = [])
    (cs : List Content) : (insertContent elem cs).flatMap f = cs.flatMap f := by
  induction cs with
  | nil => simp [insertContent, h]
  | cons c cs ih =>
    rw [insertContent]
    split
    · simp [h]
    · simp [ih]

theorem flatMap_filter_of_nil {β : Type} (f : Content → List β) (p : Content → Bool)
    (h : ∀ c, p c = false → f c = []) (cs : List Content) :
    (cs.filter p).flatMap f = cs.flatMap f := by
  induction cs with
  | nil => rfl
  | cons c cs ih =>
    by_cases hp : p c = true
    · simp [hp, ih]
    · have hnil := h c (by simpa using hp)
      simp [hp, ih, hnil]

theorem injected_flatMap {β : Type} (f : Content → List β)
    (helem : ∀ segments single, f (.elem segments single) = [])
    (hdynsym : ∀ c : Content, c.isDynsym = true → f c = []) :
    (M.injected only).flatMap f =
      M.contents.flatMap fun c => f (c.grow (M.assigned only).added.length) := by
  have hplaced : ((M.placed only).map (Content.grow (M.assigned only).added.length)).flatMap f =
      M.contents.flatMap fun c => f (c.grow (M.assigned only).added.length) := by
    rw [List.flatMap_map]
    unfold placed
    split
    · rw [List.flatMap_map]
      refine List.flatMap_congr ?_
      intro c _
      cases c with
      | elem segments single => exact (helem _ _).trans (helem _ _).symm
      | _ => rfl
    · have hnew : f ((M.newElem only).grow (M.assigned only).added.length) = [] := helem _ _
      exact flatMap_insertContent (fun c => f (c.grow (M.assigned only).added.length)) hnew _
  have hlast : f (dynsymContent (M.assigned only).dynsym) = [] := hdynsym _ rfl
  rw [injected, List.flatMap_append, flatMap_filter_of_nil f _ ?_, hplaced]
  · simp [hlast]
  · intro c hc
    exact hdynsym c (by simpa using hc)

theorem injected_imports : (M.injected only).flatMap Content.importEntries =
    M.imports.map (Import.grow (M.assigned only).added.length) := by
  rw [injected_flatMap only M Content.importEntries (fun _ _ => rfl) ?_, imports,
    List.map_flatMap, contents, List.flatMap_map]
  · refine List.flatMap_congr ?_
    intro s _
    cases s.content <;> rfl
  · intro c hc
    cases c with
    | custom n payload notDylink => rfl
    | _ => cases hc

theorem injected_exports : (M.injected only).flatMap Content.exportEntries = M.exports := by
  rw [injected_flatMap only M Content.exportEntries (fun _ _ => rfl) ?_, exports, contents,
    List.flatMap_map]
  · refine List.flatMap_congr ?_
    intro s _
    cases s.content <;> rfl
  · intro c hc
    cases c with
    | custom n payload notDylink => rfl
    | _ => cases hc

theorem segments_insertContent (elem : Content) {cs : List Content}
    (h : ∀ c ∈ cs, c.segments = []) :
    (insertContent elem cs).flatMap Content.segments = elem.segments := by
  induction cs with
  | nil => simp [insertContent]
  | cons c cs ih =>
    have hhead := h c (List.mem_cons_self ..)
    have htail : ∀ d ∈ cs, d.segments = [] := fun d hd => h d (List.mem_cons_of_mem c hd)
    have hnil : cs.flatMap Content.segments = [] := List.flatMap_eq_nil_iff.mpr htail
    rw [insertContent]
    split
    · simp [hhead, hnil]
    · simp [hhead, ih htail]

theorem injected_segments : (M.injected only).flatMap Content.segments =
    [newSegment M.offset (M.elemFuncs ++ (M.assigned only).added)] := by
  have hgrow : ∀ n (c : Content), (c.grow n).segments = c.segments := by
    intro n c
    cases c <;> rfl
  have hplaced : (M.placed only).flatMap Content.segments =
      [newSegment M.offset (M.elemFuncs ++ (M.assigned only).added)] := by
    unfold placed
    by_cases hhas : M.hasElem = true
    · rw [if_pos hhas]
      obtain ⟨segments, single, pre, post, hsplit, hothers⟩ := exists_elem hhas
      have hkeep : ∀ cs : List Content, (∀ c ∈ cs, c.id ≠ secElem) →
          (cs.map (Content.withElem (M.newElem only))).flatMap Content.segments = [] := by
        intro cs hcs
        rw [List.flatMap_map, List.flatMap_eq_nil_iff]
        intro c hc
        cases c with
        | elem segments single => exact absurd rfl (hcs _ hc)
        | _ => rfl
      rw [hsplit, List.map_append, List.flatMap_append, List.map_cons, List.flatMap_cons,
        hkeep pre fun c hc => hothers c (List.mem_append_left post hc),
        hkeep post fun c hc => hothers c (List.mem_append_right pre hc)]
      rfl
    · rw [if_neg hhas, segments_insertContent]
      · rfl
      · exact fun c hc => segments_of_id (not_hasElem (by simpa using hhas) c hc)
  rw [injected, List.flatMap_append, flatMap_filter_of_nil Content.segments _ ?_,
    List.flatMap_map]
  · simp only [hgrow, hplaced]
    rfl
  · intro c hc
    cases c with
    | custom n payload notDylink => rfl
    | _ => simp [Content.isDynsym] at hc

/-- What the only `dylink.0` section gives, among sections. -/
theorem flatMap_oneDylink {β : Type} (f : Content → List β) (g : List Sub → β)
    (hdylink : ∀ name subs named, f (.dylink name subs named) = [g subs])
    (hother : ∀ c : Content, c.isDylink = false → f c = [] ∧ c.subs = []) (cs : List Content)
    (hone : (cs.filter Content.isDylink).length = 1) :
    cs.flatMap f = [g (cs.flatMap Content.subs)] := by
  induction cs with
  | nil => cases hone
  | cons c cs ih =>
    by_cases hc : c.isDylink = true
    · have hnone : ∀ d ∈ cs, d.isDylink = false := by
        have hempty : cs.filter Content.isDylink = [] := by
          rw [List.filter_cons_of_pos hc, List.length_cons] at hone
          exact List.length_eq_zero_iff.mp (by omega)
        simpa using List.filter_eq_nil_iff.mp hempty
      have hf : cs.flatMap f = [] := List.flatMap_eq_nil_iff.mpr fun d hd =>
        (hother d (hnone d hd)).1
      have hs : cs.flatMap Content.subs = [] :=
        List.flatMap_eq_nil_iff.mpr fun d hd => (hother d (hnone d hd)).2
      cases c with
      | dylink name subs named => simp [hf, hs, hdylink, Content.subs]
      | _ => cases hc
    · obtain ⟨hf, hs⟩ := hother c (by simpa using hc)
      rw [List.filter_cons_of_neg hc] at hone
      rw [List.flatMap_cons, List.flatMap_cons, hf, hs]
      exact ih hone

theorem foldl_memInfo (cs : List Content) (m : Option MemInfo) :
    cs.foldl (fun m c => c.memInfo.or m) m =
      (cs.flatMap fun c => c.memInfo.toList).getLast?.or m := by
  induction cs generalizing m with
  | nil => rfl
  | cons c cs ih =>
    rw [List.foldl_cons, ih, List.flatMap_cons, List.getLast?_append]
    cases (cs.flatMap fun c => c.memInfo.toList).getLast? <;> cases c.memInfo <;> rfl

/-- No `MEM_INFO` read yet. -/
def noMemInfo : MemInfo := ⟨0, 0, 0, 0⟩

def MemInfo.grow (n : ℕ) (m : MemInfo) : MemInfo := { m with tableSize := m.tableSize + n }

theorem subs_eq : M.subs = M.contents.flatMap Content.subs := by
  simp [subs, contents, List.flatMap_map]

theorem contents_memInfo (M : SideModule) (n : ℕ) :
    (M.contents.flatMap fun c => (c.grow n).memInfo.toList) =
      [memInfoOf (M.subs.map (Sub.grow n)) noMemInfo] := by
  rw [subs_eq]
  refine flatMap_oneDylink _ (fun subs => memInfoOf (subs.map (Sub.grow n)) noMemInfo)
    (fun _ _ _ => rfl) ?_ _ filter_isDylink_contents
  intro c hc
  cases c with
  | dylink name subs named => cases hc
  | _ => exact ⟨rfl, rfl⟩

theorem contents_memInfo_self (M : SideModule) :
    (M.contents.flatMap fun c => c.memInfo.toList) = [memInfoOf M.subs noMemInfo] := by
  rw [subs_eq]
  refine flatMap_oneDylink _ (fun subs => memInfoOf subs noMemInfo)
    (fun _ _ _ => rfl) ?_ _ filter_isDylink_contents
  intro c hc
  cases c with
  | dylink name subs named => cases hc
  | _ => exact ⟨rfl, rfl⟩

theorem sets_grow (n : ℕ) (s : Sub) : (s.grow n).sets = s.sets.map (MemInfo.grow n) := by
  cases s with
  | memInfo size memSize memAlign tableSize tableAlign sized =>
    simp [Sub.grow, Sub.sets, MemInfo.grow]
  | other id size payload notMemInfo sized => rfl

/-- With a `MEM_INFO` the table size grows, and nothing else of it. -/
theorem memInfoOf_grow (n : ℕ) (subs : List Sub) (m m' : MemInfo)
    (h : (∃ s ∈ subs, s.sets ≠ none) ∨ m' = MemInfo.grow n m) :
    memInfoOf (subs.map (Sub.grow n)) m' = MemInfo.grow n (memInfoOf subs m) := by
  induction subs generalizing m m' with
  | nil =>
    rcases h with ⟨s, hs, -⟩ | rfl
    · cases hs
    · rfl
  | cons s subs ih =>
    simp only [memInfoOf, List.map_cons, List.foldl_cons] at ih ⊢
    refine ih _ _ ?_
    rw [sets_grow]
    cases hsets : s.sets with
    | some x => exact .inr rfl
    | none =>
      rcases h with ⟨t, ht, hne⟩ | rfl
      · rcases List.mem_cons.mp ht with rfl | ht
        · exact absurd hsets hne
        · exact .inl ⟨t, ht, hne⟩
      · exact .inr rfl

theorem memInfoOf_unset (subs : List Sub) (m : MemInfo) (h : ¬ ∃ s ∈ subs, s.sets ≠ none) :
    memInfoOf subs m = m := by
  induction subs generalizing m with
  | nil => rfl
  | cons s subs ih =>
    have hs : s.sets = none := by
      by_contra hne
      exact h ⟨s, List.mem_cons_self .., hne⟩
    rw [memInfoOf, List.foldl_cons, hs]
    exact ih m fun ⟨t, ht, hne⟩ => h ⟨t, List.mem_cons_of_mem s ht, hne⟩

/-- The bytes written out. -/
def output : List UInt8 := encodeSections ((M.injected only).map Sec.ofContent)

theorem output_contents :
    ((M.injected only).map Sec.ofContent).map Sec.content = M.injected only := by
  rw [List.map_map]
  exact List.map_id _

theorem output_parse {decode : List UInt8 → Utf16}
    (h : ∀ c ∈ M.injected only, c.Told decode) : ∃ info,
    parseWith decode (M.output only) = .ok info ∧
      Steps decode (M.injected only) .initial info := by
  have hsegs := injected_segments only M
  obtain ⟨info, hparse, hsteps⟩ := parse_encodeSections ((M.injected only).map Sec.ofContent)
    (by
      intro s hs
      obtain ⟨c, hc, rfl⟩ := List.mem_map.mp hs
      exact h c hc)
    (by
      rw [List.flatMap_map]
      change ((M.injected only).flatMap Content.segments).length ≤ 1
      rw [hsegs]
      exact Nat.le_refl 1)
  rw [output_contents] at hsteps
  exact ⟨info, hparse, hsteps⟩

theorem newSegment_read (o : OffsetExpr) (funcs : List ℕ) :
    (newSegment o funcs).read = ⟨o.value, funcs⟩ := by
  simp [Segment.read, newSegment, Segment.indices, Vec.ofList, Function.comp_def]

theorem grow_read (decode : List UInt8 → Utf16) (n : ℕ) (i : Import) :
    (i.grow n).read decode = i.read decode := by
  have hkind : (i.desc.grow n).kind = i.desc.kind := by cases i.desc <;> rfl
  simp [Import.grow, Import.read, hkind]

/-- The engine's reading of the output. -/
theorem image_output : (image (M.output only)).imports = M.imports.map (Import.read engineName) ∧
    (image (M.output only)).funcImportCount = funcCount M.imports ∧
    (image (M.output only)).exports = M.exports.map (Export.read engineName) ∧
    (image (M.output only)).elem =
      some ⟨M.offset.value, M.elemFuncs ++ (M.assigned only).added⟩ := by
  obtain ⟨info, hparse, hsteps⟩ := output_parse only M fun c _ => told_engineName c
  have himage : image (M.output only) = info := by simp [image, hparse]
  have hsegs := injected_segments only M
  have hcount : funcCount (M.imports.map (Import.grow (M.assigned only).added.length)) =
      funcCount M.imports := by
    rw [funcCount, List.filter_map, List.length_map, funcCount]
    congr 1
    refine List.filter_congr ?_
    intro i _
    have hkind : (i.desc.grow (M.assigned only).added.length).kind = i.desc.kind := by
      cases i.desc <;> rfl
    simp [Import.grow, hkind]
  rw [himage, hsteps.imports, hsteps.funcImportCount, hsteps.exports,
    hsteps.elem (by rw [hsegs]; exact Nat.le_refl 1),
    injected_imports, injected_exports, hsegs]
  refine ⟨?_, by simp [Info.initial, hcount], by simp [Info.initial], by simp [newSegment_read]⟩
  simp only [Info.initial, List.nil_append, List.map_map]
  exact List.map_congr_left fun i _ => grow_read engineName _ i

/-- Sections of the output are old ones, the segment or the map of names. -/
theorem injected_not_disguised (h : ∀ c ∈ M.contents, ¬ c.IsDisguised) :
    ∀ c ∈ M.injected only, ¬ c.IsDisguised := by
  have hgrow : ∀ n (c : Content), (c.grow n).IsDisguised ↔ c.IsDisguised := by
    intro n c
    cases c <;> rfl
  have hinsert : ∀ (cs : List Content) (elem d : Content), d ∈ insertContent elem cs →
      d = elem ∨ d ∈ cs := by
    intro cs elem d hd
    induction cs with
    | nil => simpa [insertContent] using hd
    | cons c cs ih =>
      rw [insertContent] at hd
      split at hd
      · simpa using hd
      · rcases List.mem_cons.mp hd with rfl | hd
        · exact .inr (List.mem_cons_self ..)
        · exact (ih hd).imp_right (List.mem_cons_of_mem c)
  intro c hc
  rcases List.mem_append.mp hc with hold | hnew
  · obtain ⟨d, hd, rfl⟩ := List.mem_map.mp (List.mem_filter.mp hold).1
    rw [hgrow]
    unfold placed at hd
    split at hd
    · obtain ⟨c₀, hc₀, rfl⟩ := List.mem_map.mp hd
      have hold := h c₀ hc₀
      cases c₀ with
      | elem segments single => exact id
      | _ => exact hold
    · rcases hinsert _ _ _ hd with rfl | hd
      · exact id
      · exact h d hd
  · obtain rfl := List.mem_singleton.mp hnew
    rintro (hname | hname)
    · exact absurd hname (by decide)
    · exact absurd hname (by decide)

theorem injected_dynsym_last : ∀ c ∈ ((M.placed only).map
    (Content.grow (M.assigned only).added.length)).filter (fun c => ¬ c.isDynsym),
    c.isDynsym = false := by
  intro c hc
  simpa using (List.mem_filter.mp hc).2

/-- The loader's reading of the output. -/
theorem loader_output (h : ∀ c ∈ M.contents, ¬ c.IsDisguised) : ∃ info,
    parseDylinkModule (M.output only) = .ok info ∧
      info.dynsym = (M.assigned only).dynsym.foldl
        (fun m e => m.set (utf8Decode (encodeUtf8 e.1)) e.2) JsMap.empty ∧
      info.dylink.map sectionMemInfo =
        some (memInfoOf (M.subs.map (Sub.grow (M.assigned only).added.length)) noMemInfo) := by
  obtain ⟨info, hparse, hsteps⟩ := output_parse only M
    fun c hc => told_utf8Decode (injected_not_disguised only M h c hc)
  have hmem := injected_flatMap only M (fun c => c.memInfo.toList) (fun _ _ => rfl) (by
    intro c hc
    cases c with
    | custom n payload notDylink => rfl
    | _ => cases hc)
  refine ⟨info, hparse, hsteps.entries (injected_dynsym_last only M), ?_⟩
  rw [hsteps.memInfo, foldl_memInfo, hmem, contents_memInfo]
  rfl

theorem segments_length_le_one (M : SideModule) : M.segments.length ≤ 1 := by
  by_cases hhas : M.hasElem = true
  · obtain ⟨segments, single, pre, post, hsplit, hothers⟩ := exists_elem hhas
    rw [segments_of_split hsplit hothers]
    exact single
  · have hnil : M.segments = [] := by
      rw [segments_eq, List.flatMap_eq_nil_iff]
      exact fun c hc => segments_of_id (not_hasElem (by simpa using hhas) c hc)
    simp [hnil]

/-- The loader's reading of the input. -/
theorem loader_input (h : ∀ c ∈ M.contents, ¬ c.IsDisguised) : ∃ info,
    parseDylinkModule M.encode = .ok info ∧
      info.dylink.map sectionMemInfo = some (memInfoOf M.subs noMemInfo) := by
  obtain ⟨info, hparse, hsteps⟩ := @parse_encodeSections utf8Decode M.sections
    (fun s hs => told_utf8Decode (h s.content (List.mem_map_of_mem hs))) (segments_length_le_one M)
  refine ⟨info, hparse, ?_⟩
  rw [hsteps.memInfo, foldl_memInfo]
  change ((M.contents.flatMap fun c => c.memInfo.toList).getLast?).or none = _
  rw [contents_memInfo_self]
  rfl

end Injected

end NixWasm.SideModule
