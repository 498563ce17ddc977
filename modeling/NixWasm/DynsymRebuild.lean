import NixWasm.SideModule

/-!
The injector on well-formed modules. Its readers give back the parts of a module as
they were written, and what it writes is again the encoding of sections, which are
computed here: the element segment with the new entries, imported tables and `MEM_INFO`
grown, and the map of names at the end.
-/
namespace NixWasm.SideModule

open DynsymInject Bytes Bytes.Reader Unicode

section Grown

/-- Limits written again, `n` larger. -/
def Limits.grow (n : ℕ) (l : Limits) : Limits where
  flags := Leb.ofNat l.flags.value
  min := Leb.ofNat (l.min.value + n)
  max := l.max.map fun m => Leb.ofNat (m.value + n)
  bounded := by simpa using l.bounded

def ImportDesc.grow (n : ℕ) : ImportDesc → ImportDesc
  | .table refType limits => .table refType (limits.grow n)
  | desc => desc

def Import.grow (n : ℕ) (i : Import) : Import := { i with desc := i.desc.grow n }

def Sub.grow (n : ℕ) : Sub → Sub
  | .memInfo _ memSize memAlign tableSize tableAlign _ =>
    .memInfo (Leb.ofNat _) (Leb.ofNat memSize.value) (Leb.ofNat memAlign.value)
      (Leb.ofNat (tableSize.value + n)) (Leb.ofNat tableAlign.value) (Leb.value_ofNat _)
  | .other id size payload notMemInfo sized =>
    .other id (Leb.ofNat size.value) payload notMemInfo (by rw [Leb.value_ofNat, sized])

def Content.grow (n : ℕ) : Content → Content
  | .imports entries => .imports (Vec.ofList (entries.items.map (Import.grow n)))
  | .dylink name subs named => .dylink name (subs.map (Sub.grow n)) named
  | c => c

def newSegment (offset : OffsetExpr) (funcs : List ℕ) : Segment where
  flags := Leb.ofNat 0
  active := Leb.value_ofNat 0
  offset := offset
  funcs := Vec.ofList (funcs.map Leb.ofNat)

def elemContent (offset : OffsetExpr) (funcs : List ℕ) : Content :=
  .elem (Vec.ofList [newSegment offset funcs]) (Nat.le_refl 1)

def Content.withElem (elem : Content) : Content → Content
  | .elem _ _ => elem
  | c => c

def insertContent (elem : Content) : List Content → List Content
  | [] => [elem]
  | c :: rest =>
    if c.id > secElem ∧ c.id ≠ secCustom then elem :: c :: rest
    else c :: insertContent elem rest

def Content.isDynsym : Content → Bool
  | .custom name _ _ => name.text = literal "cb.dynsym"
  | _ => false

def dynsymName : Name where
  length := Leb.ofNat (encodeUtf8 (literal "cb.dynsym")).length
  text := literal "cb.dynsym"
  scalars := by simp [literal, IsScalar]
  counted := Leb.value_ofNat _

def dynsymContent (dynsym : List (Str × ℕ)) : Content :=
  .custom dynsymName (writeUleb dynsym.length ++ dynsym.flatMap dynsymEntry) (by decide)

variable (only : Option (Str → Bool)) (M : SideModule)

def contents : List Content := M.sections.map Sec.content

/-- Offset of the segment; a module without one gets `i32.const 0`. -/
def offset : OffsetExpr :=
  match M.segments with
  | [] => .const (Leb.ofNat 0)
  | s :: _ => s.offset

def assigned : Assignment := assign only M.elemFuncs M.functionExports

def newElem : Content := elemContent M.offset (M.elemFuncs ++ (M.assigned only).added)

def placed : List Content :=
  if M.hasElem then M.contents.map (Content.withElem (M.newElem only))
  else insertContent (M.newElem only) M.contents

/-- The sections of the injector's output. -/
def injected : List Content :=
  ((M.placed only).map (Content.grow (M.assigned only).added.length)).filter
    (fun c => ¬ c.isDynsym) ++ [dynsymContent (M.assigned only).dynsym]

end Grown

def Content.raw (c : Content) : Section := ⟨c.id, c.body⟩

@[simp] theorem Content.raw_id (c : Content) : c.raw.id = c.id := rfl

section Reading

theorem decodeUtf8_encodeUtf8 (s : Str) (h : ∀ c ∈ s, IsScalar c) :
    decodeUtf8 (encodeUtf8 s) = some s := by
  have hdecode : decodeFrom none (encodeUtf8 s) = s := decodeFrom_encodeScalars s h
  simp [decodeUtf8, hdecode]

theorem reads_name (n : Name) : Reads readName n.bytes n.text := by
  unfold readName Name.bytes
  refine reads_bind (reads_uleb n.length) ?_
  rw [n.counted]
  exact reads_bind_nil (reads_upTo _)
    (reads_ofOption (decodeUtf8_encodeUtf8 n.text n.scalars))

theorem customName_append (n : Name) (id : UInt8) (rest : List UInt8) :
    customName ⟨id, n.bytes ++ rest⟩ = some n.text := by
  simp [customName, reads_name n rest]

theorem reads_export (e : Export) :
    Reads exportEntry e.bytes (e.name.text, e.kind, e.index.value) := by
  unfold exportEntry Export.bytes
  exact reads_bind (reads_name e.name) (reads_bind (reads_byte e.kind)
    (reads_last (reads_uleb e.index)))

theorem reads_exports (v : Vec Export) : Reads readExports (v.bytes Export.bytes)
    (v.items.filterMap fun e =>
      if e.kind = kindFunc then some (e.name.text, e.index.value) else none) := by
  unfold readExports Vec.bytes
  refine reads_bind (reads_uleb v.count) ?_
  rw [v.counted]
  have hitems := reads_items exportEntry Export.bytes
    (fun e => (e.name.text, e.kind, e.index.value)) v.items fun e _ => reads_export e
  have hlast := reads_last (f := fun entries : List (Str × UInt8 × ℕ) => entries.filterMap
    fun e => if e.2.1 = kindFunc then some (e.1, e.2.2) else none) hitems
  rwa [List.filterMap_map] at hlast

theorem reads_offset (o : OffsetExpr) : Reads offsetExpr o.bytes () := by
  cases o with
  | const value =>
    have hoperand : Reads (offsetOperand 0x41) value.bytes () := reads_anyLeb value
    exact reads_bind (reads_byte 0x41) (reads_bind hoperand
      (reads_bind_nil (reads_byte 0x0b) (reads_require rfl)))
  | global index =>
    have hoperand : Reads (offsetOperand 0x23) index.bytes () := reads_last (reads_uleb index)
    exact reads_bind (reads_byte 0x23) (reads_bind hoperand
      (reads_bind_nil (reads_byte 0x0b) (reads_require rfl)))

theorem reads_segment (count : Leb) (hcount : count.value = 1) (s : Segment) :
    Reads readElem (count.bytes ++ s.bytes) ⟨s.offset.bytes, s.indices⟩ := by
  unfold readElem Segment.bytes
  refine reads_bind (reads_uleb count) (reads_nil_bind (reads_require hcount) ?_)
  refine reads_bind (reads_uleb s.flags) (reads_nil_bind (reads_require s.active) ?_)
  refine reads_bind (reads_consumed (reads_offset s.offset)) ?_
  refine reads_bind (reads_uleb s.funcs.count) ?_
  rw [s.funcs.counted]
  exact reads_last (reads_items uleb Leb.bytes Leb.value s.funcs.items fun l _ => reads_uleb l)

theorem reads_optionalMax (l : Limits) :
    Reads (optionalMax l.flags.value) ((l.max.map Leb.bytes).getD []) (l.max.map Leb.value) := by
  have hb := l.bounded
  unfold optionalMax
  cases hmax : l.max with
  | none =>
    rw [hmax] at hb
    rw [if_neg (by simpa using hb)]
    exact reads_pure none
  | some m =>
    rw [hmax] at hb
    rw [if_pos (by simpa using hb)]
    exact reads_map some (reads_uleb m)

theorem reads_skipLimits (l : Limits) : Reads skipLimits l.bytes () :=
  reads_bind (reads_uleb l.flags) (reads_bind (reads_uleb l.min) (reads_last (reads_optionalMax l)))

theorem reads_bumpTable (n : ℕ) (refType : UInt8) (l : Limits) :
    Reads (bumpTable n) (refType :: l.bytes) (refType :: (l.grow n).bytes) := by
  have hvalue : refType :: (l.grow n).bytes = [refType] ++ (writeUleb l.flags.value ++
      (writeUleb (l.min.value + n) ++
        ((l.max.map Leb.value).map fun m => writeUleb (m + n)).getD [])) := by
    cases hmax : l.max <;> simp [Limits.grow, Limits.bytes, writeUleb, hmax]
  rw [hvalue]
  unfold bumpTable
  refine reads_bind (reads_upTo [refType]) ?_
  refine reads_bind (reads_uleb l.flags) (reads_bind (reads_uleb l.min) ?_)
  exact reads_last (reads_optionalMax l)

theorem reads_importTail (d : ImportDesc) (h : d.kind ≠ kindTable) :
    Reads (importTail d.kind) d.bytes () := by
  cases d with
  | func type => exact reads_last (reads_uleb type)
  | table refType limits => exact absurd rfl h
  | mem limits => exact reads_skipLimits limits
  | global valType mutability => exact reads_last (reads_upTo [valType, mutability])
  | tag attr type => exact reads_bind (reads_upTo [attr]) (reads_last (reads_uleb type))

theorem ImportDesc.kind_eq_table {d : ImportDesc} (h : d.kind = kindTable) :
    ∃ refType limits, d = .table refType limits := by
  cases d with
  | table refType limits => exact ⟨refType, limits, rfl⟩
  | _ => exact absurd h (by simp [kind, kindFunc, kindTable, kindMem, kindGlobal, kindTag])

theorem reads_importRest (n : ℕ) (d : ImportDesc) :
    Reads (importRest n d.kind) d.bytes (d.grow n).bytes := by
  unfold importRest
  by_cases hkind : d.kind = kindTable
  · obtain ⟨refType, limits, rfl⟩ := ImportDesc.kind_eq_table hkind
    exact reads_bumpTable n refType limits
  · rw [if_neg hkind]
    have hsame : d.grow n = d := by
      cases d with
      | table refType limits => exact absurd rfl hkind
      | _ => rfl
    rw [hsame]
    exact reads_last (reads_consumed (reads_importTail d hkind))

theorem reads_bumpImport (n : ℕ) (i : Import) : Reads (bumpImport n) i.bytes (i.grow n).bytes := by
  have hhead : Reads importHead (i.module.bytes ++ (i.name.bytes ++ [i.desc.kind])) i.desc.kind :=
    reads_bind (reads_name i.module) (reads_bind (reads_name i.name) (reads_byte i.desc.kind))
  have hkind : (i.desc.grow n).kind = i.desc.kind := by cases i.desc <;> rfl
  have hsplit : ∀ d : ImportDesc, d.kind = i.desc.kind → Import.bytes { i with desc := d } =
      (i.module.bytes ++ (i.name.bytes ++ [i.desc.kind])) ++ d.bytes := by
    intro d hd
    simp [Import.bytes, hd]
  rw [Import.grow, hsplit _ hkind, show i.bytes = _ from hsplit i.desc rfl]
  exact reads_bind (reads_consumed hhead) (reads_last (reads_importRest n i.desc))

theorem bumpImports_bytes (n : ℕ) (v : Vec Import) : bumpImports n (v.bytes Import.bytes) =
    some ((Vec.ofList (v.items.map (Import.grow n))).bytes Import.bytes) := by
  have hitems := reads_items (bumpImport n) Import.bytes (fun i => (i.grow n).bytes) v.items
    (fun i _ => reads_bumpImport n i) []
  rw [List.append_nil] at hitems
  have hcount := reads_uleb v.count (v.items.flatMap Import.bytes)
  simp only [bumpImports, Vec.bytes, hcount, v.counted, Option.bind_eq_bind,
    Option.bind_some, hitems]
  simp only [Vec.ofList, writeUleb, List.map_map, List.length_map, List.flatMap_def]
  rfl

theorem bumpSubsections_bytes (n fuel : ℕ) (subs : List Sub) (h : subs.length ≤ fuel) :
    bumpSubsections n fuel (subs.flatMap Sub.bytes) =
      some ((subs.map (Sub.grow n)).flatMap Sub.bytes) := by
  induction subs generalizing fuel with
  | nil => cases fuel <;> rfl
  | cons s subs ih =>
    obtain ⟨fuel, rfl⟩ : ∃ f, fuel = f + 1 := ⟨fuel - 1, by simp at h; omega⟩
    have htail := ih fuel (by simp at h; omega)
    cases s with
    | memInfo size memSize memAlign tableSize tableAlign sized =>
      have hinfo : Reads memInfo (memSize.bytes ++ (memAlign.bytes ++ (tableSize.bytes ++
          tableAlign.bytes))) ⟨memSize.value, memAlign.value, tableSize.value, tableAlign.value⟩ :=
        reads_bind (reads_uleb memSize) (reads_bind (reads_uleb memAlign)
          (reads_bind (reads_uleb tableSize) (reads_last (reads_uleb tableAlign))))
      simp only [List.flatMap_cons, Sub.bytes, List.cons_append, List.append_assoc,
        bumpSubsections, reads_uleb size _, Option.bind_eq_bind, Option.bind_some]
      have hdrop : (memSize.bytes ++ (memAlign.bytes ++ (tableSize.bytes ++ (tableAlign.bytes ++
          subs.flatMap Sub.bytes)))).drop size.value = subs.flatMap Sub.bytes := by
        rw [sized]
        simp
      have hread := hinfo (subs.flatMap Sub.bytes)
      simp only [List.append_assoc] at hread
      simp only [hdrop, htail, Option.bind_some, if_true, hread]
      simp [Sub.grow, Sub.bytes, subsection, MemInfo.encode, writeUleb]
    | other id size payload notMemInfo sized =>
      simp only [List.flatMap_cons, Sub.bytes, List.cons_append, List.append_assoc,
        bumpSubsections, reads_uleb size _, Option.bind_eq_bind, Option.bind_some, notMemInfo,
        if_false, sized, List.drop_left, List.take_left, htail]
      simp [Sub.grow, Sub.bytes, writeUleb, sized]

theorem length_le_flatMap {α : Type} (l : List α) (write : α → List UInt8)
    (h : ∀ a ∈ l, write a ≠ []) : l.length ≤ (l.flatMap write).length := by
  induction l with
  | nil => simp
  | cons a l ih =>
    have hhead := List.length_pos_iff.mpr (h a (List.mem_cons_self ..))
    have htail := ih fun b hb => h b (List.mem_cons_of_mem a hb)
    simp only [List.flatMap_cons, List.length_append, List.length_cons]
    omega

theorem bumpDylink_bytes (n : ℕ) (name : Name) (subs : List Sub) :
    bumpDylink n (name.bytes ++ subs.flatMap Sub.bytes) =
      some (name.bytes ++ (subs.map (Sub.grow n)).flatMap Sub.bytes) := by
  have hname := reads_consumed (reads_name name) (subs.flatMap Sub.bytes)
  have hlen := length_le_flatMap subs Sub.bytes (by intro s _; cases s <;> simp [Sub.bytes])
  simp only [bumpDylink, hname, Option.bind_eq_bind, Option.bind_some,
    bumpSubsections_bytes n _ subs hlen]
  rfl

theorem sectionsFrom_bytes (fuel : ℕ) (secs : List Sec) (h : secs.length ≤ fuel) :
    sectionsFrom fuel (secs.flatMap Sec.bytes) = some (secs.map fun s => s.content.raw) := by
  induction secs generalizing fuel with
  | nil => cases fuel <;> rfl
  | cons s secs ih =>
    obtain ⟨fuel, rfl⟩ : ∃ f, fuel = f + 1 := ⟨fuel - 1, by simp at h; omega⟩
    have htail := ih fuel (by simp at h; omega)
    simp only [List.flatMap_cons, Sec.bytes, List.cons_append, List.append_assoc, sectionsFrom,
      reads_uleb s.size _, Option.bind_eq_bind, Option.bind_some, s.sized, List.drop_left,
      List.take_left, htail, List.map_cons]
    rfl

theorem parseSections_encode (secs : List Sec) :
    parseSections (encodeSections secs) = some (secs.map fun s => s.content.raw) := by
  have hlen := length_le_flatMap secs Sec.bytes (by simp [Sec.bytes])
  have hdrop : (encodeSections secs).drop 8 = secs.flatMap Sec.bytes := rfl
  have htake : (encodeSections secs).take 4 = magic := rfl
  unfold parseSections
  rw [if_neg (not_not.mpr htake), hdrop]
  refine sectionsFrom_bytes _ secs ?_
  simp only [encodeSections, List.length_append]
  omega

end Reading

section Sections

variable {only : Option (Str → Bool)} {M : SideModule}

/-- A numbered section appears once at most. -/
theorem Ordered.filter_le_one {ids : List UInt8} (h : Ordered ids) {k : UInt8} {r : ℕ}
    (hr : rank k = some r) : (ids.filter fun id => id = k).length ≤ 1 := by
  induction ids with
  | nil => simp
  | cons id ids ih =>
    have htail : Ordered ids := by
      unfold Ordered at h ⊢
      rw [List.filterMap_cons] at h
      split at h
      · exact h
      · exact (List.pairwise_cons.mp h).2
    by_cases hid : id = k
    · have hnone : ids.filter (fun id => id = k) = [] := by
        rw [List.filter_eq_nil_iff]
        intro j hj hjk
        obtain rfl : j = k := by simpa using hjk
        unfold Ordered at h
        rw [hid, List.filterMap_cons_some hr, List.pairwise_cons] at h
        exact absurd (h.1 r (List.mem_filterMap.mpr ⟨j, hj, hr⟩)) (Nat.lt_irrefl r)
      simp [hid, hnone]
    · simpa [hid] using ih htail

/-- Rewriting the only section of a kind rewrites every section of that kind. -/
theorem updateLast_map (p : Section → Bool) (f : List UInt8 → Option (List UInt8))
    (g : Content → Content) (cs : List Content)
    (hone : (cs.filter fun c => p c.raw).length ≤ 1)
    (hyes : ∀ c ∈ cs, p c.raw = true → f c.body = some (g c).body ∧ (g c).id = c.id)
    (hno : ∀ c ∈ cs, p c.raw = false → g c = c) :
    updateLast p f (cs.map Content.raw) = some ((cs.map g).map Content.raw) := by
  induction cs with
  | nil => rfl
  | cons c cs ih =>
    have hrest := ih (by
      by_cases hc : p c.raw
      · simp only [List.filter_cons, hc, if_true, List.length_cons] at hone
        omega
      · simpa [List.filter_cons, hc] using hone)
      (fun d hd => hyes d (List.mem_cons_of_mem c hd))
      (fun d hd => hno d (List.mem_cons_of_mem c hd))
    simp only [List.map_cons, updateLast]
    by_cases hc : p c.raw
    · have hnone : ∀ d ∈ cs, p d.raw = false := by
        intro d hd
        by_contra hp
        have hmem : d ∈ cs.filter fun c => p c.raw := List.mem_filter.mpr ⟨hd, by simpa using hp⟩
        have hpos := List.length_pos_of_mem hmem
        simp only [List.filter_cons, hc, if_true, List.length_cons] at hone
        omega
      obtain ⟨hbody, hid⟩ := hyes c (List.mem_cons_self ..) hc
      have hany : ((cs.map Content.raw).any p) = false := by simpa using hnone
      have hsame : cs.map g = cs := by
        conv_rhs => rw [← List.map_id cs]
        exact List.map_congr_left fun d hd => hno d (List.mem_cons_of_mem c hd) (hnone d hd)
      rw [if_pos ⟨hc, by simp [hany]⟩]
      have hbody' : f c.raw.body = some (g c).body := hbody
      simp only [hbody', Option.bind_eq_bind, Option.bind_some, hsame]
      simp [Content.raw, hid]
    · rw [if_neg (by simp [hc]), hrest]
      have hc' : g c = c := hno c (List.mem_cons_self ..) (by simpa using hc)
      rw [hc']
      rfl

theorem insertElem_raw (elem : Content) (cs : List Content) :
    insertElem elem.raw (cs.map Content.raw) = (insertContent elem cs).map Content.raw := by
  induction cs with
  | nil => rfl
  | cons c cs ih =>
    simp only [List.map_cons, insertElem, insertContent]
    rw [Content.raw_id]
    split
    · rfl
    · rw [ih]
      rfl

theorem filter_insertContent {p : Content → Bool} {elem : Content} (h : p elem = false)
    (cs : List Content) : (insertContent elem cs).filter p = cs.filter p := by
  induction cs with
  | nil => simp [insertContent, h]
  | cons c cs ih =>
    rw [insertContent]
    split
    · simp [List.filter_cons, h]
    · simp [List.filter_cons, ih]

theorem isCustom_raw (name : Str) (c : Content) : isCustom name c.raw = match c with
    | .custom n _ _ => decide (n.text = name)
    | .dylink n _ _ => decide (n.text = name)
    | _ => false := by
  have hplain : ∀ id ∈ plainIds, id ≠ secCustom := by simp [plainIds, secCustom]
  cases c with
  | custom n payload notDylink =>
    simp [isCustom, Content.raw, Content.id, Content.body, customName_append]
  | dylink n subs named =>
    simp [isCustom, Content.raw, Content.id, Content.body, customName_append]
  | imports entries => rfl
  | exports entries => rfl
  | elem segments single => rfl
  | plain id body listed => simp [isCustom, Content.raw, Content.id, hplain id listed]

theorem isCustom_dylink (c : Content) : isCustom (literal "dylink.0") c.raw = c.isDylink := by
  rw [isCustom_raw]
  cases c with
  | custom n payload notDylink => simp [notDylink, Content.isDylink]
  | dylink n subs named => simp [named, Content.isDylink]
  | _ => rfl

theorem isCustom_dynsym (c : Content) : isCustom (literal "cb.dynsym") c.raw = c.isDynsym := by
  rw [isCustom_raw]
  cases c with
  | dylink n subs named =>
    change decide (n.text = literal "cb.dynsym") = false
    rw [named]
    rfl
  | _ => rfl

theorem id_eq_import_iff (c : Content) :
    c.id = secImport ↔ ∃ entries, c = .imports entries := by
  have hplain : ∀ id ∈ plainIds, id ≠ secImport := by simp [plainIds, secImport]
  cases c with
  | plain id body listed => simp [Content.id, hplain id listed]
  | _ => simp [Content.id, secCustom, secImport, secExport, secElem]

theorem id_eq_elem_iff (c : Content) :
    c.id = secElem ↔ ∃ segments single, c = .elem segments single := by
  have hplain : ∀ id ∈ plainIds, id ≠ secElem := by simp [plainIds, secElem]
  cases c with
  | plain id body listed => simp [Content.id, hplain id listed]
  | elem segments single => simp [Content.id, single]
  | _ => simp [Content.id, secCustom, secImport, secExport, secElem]

theorem id_eq_export_iff (c : Content) :
    c.id = secExport ↔ ∃ entries, c = .exports entries := by
  have hplain : ∀ id ∈ plainIds, id ≠ secExport := by simp [plainIds, secExport]
  cases c with
  | plain id body listed => simp [Content.id, hplain id listed]
  | _ => simp [Content.id, secCustom, secImport, secExport, secElem]

theorem filter_contents_le_one {k : UInt8} {r : ℕ} (hr : rank k = some r) :
    (M.contents.filter fun c => c.id = k).length ≤ 1 := by
  have h := M.ordered.filter_le_one hr
  rw [show (M.sections.map fun s => s.content.id) = M.contents.map Content.id by
    simp [contents, Function.comp_def], List.filter_map, List.length_map] at h
  exact h

theorem exists_elem (h : M.hasElem = true) : ∃ segments single pre post,
    M.contents = pre ++ Content.elem segments single :: post ∧
      ∀ c ∈ pre ++ post, c.id ≠ secElem := by
  obtain ⟨s, hs, hid⟩ : ∃ s ∈ M.sections, s.content.id = secElem := by
    simpa [hasElem] using h
  obtain ⟨segments, single, hc⟩ := (id_eq_elem_iff s.content).mp hid
  have hmem : Content.elem segments single ∈ M.contents := by
    rw [← hc]
    exact List.mem_map_of_mem hs
  obtain ⟨pre, post, hsplit⟩ := List.append_of_mem hmem
  refine ⟨segments, single, pre, post, hsplit, ?_⟩
  intro c hcmem hcid
  have hone := filter_contents_le_one (M := M) (k := secElem) (r := 10) rfl
  have hpos : 0 < (pre.filter (fun c => c.id = secElem) ++
      post.filter fun c => c.id = secElem).length := by
    rw [← List.filter_append]
    exact List.length_pos_of_mem (List.mem_filter.mpr ⟨hcmem, by simpa using hcid⟩)
  rw [hsplit] at hone
  simp only [List.filter_append, List.filter_cons, Content.id, decide_true, if_true,
    List.length_append, List.length_cons] at hone hpos
  omega

theorem segments_of_id {c : Content} (h : c.id ≠ secElem) : c.segments = [] := by
  cases c with
  | elem segments single => exact absurd rfl h
  | _ => rfl

theorem segments_eq : M.segments = M.contents.flatMap Content.segments := by
  simp [segments, contents, List.flatMap_map]

theorem segments_of_split {segments : Vec Segment} {single : segments.items.length ≤ 1}
    {pre post : List Content} (hsplit : M.contents = pre ++ Content.elem segments single :: post)
    (hothers : ∀ c ∈ pre ++ post, c.id ≠ secElem) : M.segments = segments.items := by
  have hpre : pre.flatMap Content.segments = [] := by
    rw [List.flatMap_eq_nil_iff]
    exact fun c hc => segments_of_id (hothers c (List.mem_append_left post hc))
  have hpost : post.flatMap Content.segments = [] := by
    rw [List.flatMap_eq_nil_iff]
    exact fun c hc => segments_of_id (hothers c (List.mem_append_right pre hc))
  rw [segments_eq, hsplit, List.flatMap_append, List.flatMap_cons, hpre, hpost]
  simp [Content.segments]

theorem lastSection_split {pre post : List Content} {c : Content} (hc : c.id = secElem)
    (hothers : ∀ d ∈ pre ++ post, d.id ≠ secElem) :
    lastSection (fun s => s.id = secElem) ((pre ++ c :: post).map Content.raw) = some c.raw := by
  have hnone : (post.map Content.raw).reverse.find? (fun s => s.id = secElem) = none := by
    rw [List.find?_eq_none]
    intro s hs
    obtain ⟨d, hd, rfl⟩ := List.mem_map.mp (List.mem_reverse.mp hs)
    simp [hothers d (List.mem_append_right pre hd)]
  simp only [lastSection, List.map_append, List.map_cons, List.reverse_append, List.reverse_cons,
    List.append_assoc, List.find?_append, hnone, Option.none_or]
  simp [hc]

theorem lastSection_none {cs : List Content} (h : ∀ d ∈ cs, d.id ≠ secElem) :
    lastSection (fun s => s.id = secElem) (cs.map Content.raw) = none := by
  rw [lastSection, List.find?_eq_none]
  intro s hs
  obtain ⟨d, hd, rfl⟩ := List.mem_map.mp (List.mem_reverse.mp hs)
  simp [h d hd]

theorem not_hasElem (h : M.hasElem = false) : ∀ c ∈ M.contents, c.id ≠ secElem := by
  intro c hc
  obtain ⟨s, hs, rfl⟩ := List.mem_map.mp hc
  simp only [hasElem, List.any_eq_false, decide_eq_true_eq] at h
  exact h s hs

/-- The segment as read; an element section without a segment is refused. -/
theorem readSegment_contents : readSegment (M.contents.map Content.raw) =
    if M.hasElem = true ∧ M.segments = [] then none
    else some ⟨M.offset.bytes, M.elemFuncs⟩ := by
  by_cases hhas : M.hasElem = true
  · obtain ⟨segments, single, pre, post, hsplit, hothers⟩ := exists_elem hhas
    have hsegs := segments_of_split hsplit hothers
    have hlast := lastSection_split (c := Content.elem segments single) rfl hothers
    rw [← hsplit] at hlast
    simp only [readSegment, hlast]
    rcases hitems : segments.items with _ | ⟨s, rest⟩
    · have hzero : segments.count.value = 0 := by rw [segments.counted, hitems]; rfl
      rw [if_pos ⟨hhas, by rw [hsegs, hitems]⟩]
      have hread := reads_uleb segments.count []
      rw [List.append_nil, hzero] at hread
      have hbody : (Content.elem segments single).raw.body = segments.count.bytes := by
        simp [Content.raw, Content.body, Vec.bytes, hitems]
      rw [hbody]
      simp only [readElem]
      change Option.map _ ((uleb segments.count.bytes).bind _) = none
      rw [hread]
      rfl
    · have hrest : rest = [] := by
        rw [hitems] at single
        simpa using single
      subst hrest
      have hone : segments.count.value = 1 := by rw [segments.counted, hitems]; rfl
      rw [if_neg (by simp [hsegs, hitems])]
      have hread := reads_segment segments.count hone s []
      rw [List.append_nil] at hread
      have hbody : (Content.elem segments single).raw.body = segments.count.bytes ++ s.bytes := by
        simp [Content.raw, Content.body, Vec.bytes, hitems]
      rw [hbody, hread]
      simp [offset, elemFuncs, hsegs, hitems]
  · have hnone := lastSection_none (not_hasElem (by simpa using hhas))
    have hsegs : M.segments = [] := by
      rw [segments_eq, List.flatMap_eq_nil_iff]
      exact fun c hc => segments_of_id (not_hasElem (by simpa using hhas) c hc)
    rw [if_neg (by simp [hhas])]
    simp only [readSegment, hnone, offset, elemFuncs, hsegs]
    rfl

theorem exportedFuncs_raw (cs : List Content) : exportedFuncs (cs.map Content.raw) =
    some ((cs.flatMap Content.exportEntries).filterMap fun e =>
      if e.kind = kindFunc then some (e.name.text, e.index.value) else none) := by
  induction cs with
  | nil => rfl
  | cons c cs ih =>
    rw [List.map_cons, exportedFuncs, List.flatMap_cons, List.filterMap_append]
    by_cases hid : c.id = secExport
    · obtain ⟨entries, rfl⟩ := (id_eq_export_iff c).mp hid
      have hread := reads_exports entries []
      rw [List.append_nil] at hread
      rw [Content.raw_id, if_pos hid]
      have hbody : (Content.exports entries).raw.body = entries.bytes Export.bytes := rfl
      simp only [hbody, hread, ih, Option.bind_eq_bind, Option.bind_some]
      rfl
    · have hnone : c.exportEntries = [] := by
        cases c with
        | exports entries => exact absurd rfl hid
        | _ => rfl
      rw [Content.raw_id, if_neg hid, ih, hnone]
      rfl

theorem elemBody_eq (added : List ℕ) : elemBody ⟨M.offset.bytes, M.elemFuncs⟩ added =
    (elemContent M.offset (M.elemFuncs ++ added)).body := by
  have hwrite : writeUleb = fun v => (Leb.ofNat v).bytes := rfl
  simp [elemBody, elemContent, Content.body, Vec.bytes, Vec.ofList, newSegment, Segment.bytes,
    hwrite, List.flatMap_map]

theorem placeElem_contents (only : Option (Str → Bool)) (M : SideModule) :
    placeElem (M.contents.map Content.raw |>.any fun s => s.id = secElem)
    (M.newElem only).body (M.contents.map Content.raw) =
      some ((M.placed only).map Content.raw) := by
  have hany : ((M.contents.map Content.raw).any fun s => s.id = secElem) = M.hasElem := by
    simp [contents, hasElem, Function.comp_def, Content.raw]
  rw [hany]
  unfold placeElem placed
  by_cases hhas : M.hasElem = true
  · rw [if_pos hhas, if_pos hhas]
    refine updateLast_map _ _ _ _ (filter_contents_le_one (k := secElem) (r := 10) rfl) ?_ ?_
    · intro c _ hc
      obtain ⟨segments, single, rfl⟩ := (id_eq_elem_iff c).mp (of_decide_eq_true hc)
      exact ⟨rfl, rfl⟩
    · intro c _ hc
      have hid : c.id ≠ secElem := of_decide_eq_false hc
      cases c with
      | elem segments single => exact absurd rfl hid
      | _ => rfl
  · rw [if_neg hhas, if_neg hhas]
    exact congrArg some (insertElem_raw (M.newElem only) M.contents)

theorem placed_filter (only : Option (Str → Bool)) (M : SideModule) {p : Content → Bool}
    (helem : ∀ o fs, p (elemContent o fs) = false)
    (hsegs : ∀ segments single, p (.elem segments single) = false) :
    (M.placed only).filter p = M.contents.filter p := by
  unfold placed
  split
  · rw [List.filter_map]
    have hsame : M.contents.filter (p ∘ Content.withElem (M.newElem only)) =
        M.contents.filter p := by
      refine List.filter_congr ?_
      intro c _
      cases c with
      | elem segments single => exact (helem _ _).trans (hsegs _ _).symm
      | _ => rfl
    rw [hsame]
    conv_rhs => rw [← List.map_id (M.contents.filter p)]
    refine List.map_congr_left ?_
    intro c hc
    have hpc := (List.mem_filter.mp hc).2
    cases c with
    | elem segments single =>
      rw [hsegs] at hpc
      cases hpc
    | _ => rfl
  · exact filter_insertContent (helem _ _) _

/-- The imports of the only import section grow. -/
def growImports (n : ℕ) : Content → Content
  | .imports entries => .imports (Vec.ofList (entries.items.map (Import.grow n)))
  | c => c

def growDylink (n : ℕ) : Content → Content
  | .dylink name subs named => .dylink name (subs.map (Sub.grow n)) named
  | c => c

theorem grow_eq (n : ℕ) (c : Content) : c.grow n = growDylink n (growImports n c) := by
  cases c <;> rfl

theorem updateLast_imports (n : ℕ) : updateLast (fun s => s.id = secImport) (bumpImports n)
    ((M.placed only).map Content.raw) =
      some (((M.placed only).map (growImports n)).map Content.raw) := by
  refine updateLast_map _ _ _ _ ?_ ?_ ?_
  · have hsame := placed_filter only M (p := fun c => c.id = secImport)
      (fun _ _ => rfl) (fun _ _ => rfl)
    change ((M.placed only).filter fun c => c.id = secImport).length ≤ 1
    rw [hsame]
    exact filter_contents_le_one (k := secImport) (r := 2) rfl
  · intro c _ hc
    obtain ⟨entries, rfl⟩ := (id_eq_import_iff c).mp (of_decide_eq_true hc)
    exact ⟨bumpImports_bytes n entries, rfl⟩
  · intro c _ hc
    have hid : c.id ≠ secImport := of_decide_eq_false hc
    cases c with
    | imports entries => exact absurd rfl hid
    | _ => rfl

theorem filter_isDylink_contents : (M.contents.filter Content.isDylink).length = 1 := by
  have h := M.oneDylink
  rw [contents, List.filter_map, List.length_map]
  exact h

theorem updateLast_dylink (n : ℕ) :
    updateLast (isCustom (literal "dylink.0")) (bumpDylink n)
      (((M.placed only).map (growImports n)).map Content.raw) =
      some (((M.placed only).map (Content.grow n)).map Content.raw) := by
  have hmap : (M.placed only).map (Content.grow n) =
      ((M.placed only).map (growImports n)).map (growDylink n) := by
    rw [List.map_map]
    exact List.map_congr_left fun c _ => grow_eq n c
  rw [hmap]
  refine updateLast_map _ _ _ _ ?_ ?_ ?_
  · have hsame := placed_filter only M (p := Content.isDylink)
      (fun _ _ => rfl) (fun _ _ => rfl)
    have hcomp : (fun c : Content => c.isDylink) ∘ growImports n = Content.isDylink := by
      funext c
      cases c <;> rfl
    simp only [isCustom_dylink]
    rw [List.filter_map, List.length_map, hcomp, hsame, filter_isDylink_contents]
  · intro c _ hc
    rw [isCustom_dylink] at hc
    cases c with
    | dylink name subs named => exact ⟨bumpDylink_bytes n name subs, rfl⟩
    | _ => cases hc
  · intro c _ hc
    rw [isCustom_dylink] at hc
    cases c with
    | dylink name subs named => cases hc
    | _ => rfl

theorem customName_isSome (c : Content) (h : c.id = secCustom) :
    (customName c.raw).isSome = true := by
  have hplain : ∀ id ∈ plainIds, id ≠ secCustom := by simp [plainIds, secCustom]
  cases c with
  | custom name payload notDylink => simp [Content.raw, Content.body, customName_append]
  | dylink name subs named => simp [Content.raw, Content.body, customName_append]
  | imports entries => cases h
  | exports entries => cases h
  | elem segments single => cases h
  | plain id body listed => exact absurd h (hplain id listed)

/-- The injector on the sections of a module. -/
theorem rebuild_contents : rebuild only (M.contents.map Content.raw) =
    if M.hasElem = true ∧ M.segments = [] then none
    else some ((M.injected only).map Content.raw) := by
  have hcustom : (M.contents.map Content.raw).all
      (fun s => s.id ≠ secCustom ∨ (customName s).isSome) = true := by
    rw [List.all_eq_true]
    intro s hs
    obtain ⟨c, -, rfl⟩ := List.mem_map.mp hs
    by_cases hid : c.id = secCustom
    · simp [customName_isSome c hid]
    · simp [hid]
  have hdylink : (M.contents.map Content.raw).any (isCustom (literal "dylink.0")) = true := by
    have hpos : 0 < (M.contents.filter Content.isDylink).length := by
      rw [filter_isDylink_contents]
      exact Nat.one_pos
    obtain ⟨c, hc⟩ := List.exists_mem_of_length_pos hpos
    obtain ⟨hmem, hdy⟩ := List.mem_filter.mp hc
    exact List.any_eq_true.mpr ⟨c.raw, List.mem_map_of_mem hmem, (isCustom_dylink c).trans hdy⟩
  have hexports : exportedFuncs (M.contents.map Content.raw) = some M.functionExports := by
    rw [exportedFuncs_raw, functionExports, exports, contents, List.flatMap_map]
  have hplace := placeElem_contents only M
  rw [newElem, ← elemBody_eq] at hplace
  simp only [rebuild, hcustom, hdylink, not_true, if_false, hexports, readSegment_contents,
    Option.bind_eq_bind, Option.bind_some]
  by_cases hempty : M.hasElem = true ∧ M.segments = []
  · rw [if_pos hempty, if_pos hempty]
    rfl
  · rw [if_neg hempty, if_neg hempty]
    rw [assigned] at hplace
    simp only [Option.bind_some, hplace, updateLast_imports, updateLast_dylink]
    simp only [injected, assigned, List.map_append, List.filter_map]
    simp only [Function.comp_def, isCustom_dynsym]
    rfl

/-- The injector on an encoded module. -/
theorem inject_encode : inject only M.encode =
    if M.hasElem = true ∧ M.segments = [] then none
    else some (encodeSections ((M.injected only).map Sec.ofContent)) := by
  have hparse : parseSections M.encode = some (M.contents.map Content.raw) := by
    rw [encode, parseSections_encode, contents, List.map_map]
    rfl
  simp only [inject, hparse, Option.bind_eq_bind, Option.bind_some, rebuild_contents]
  by_cases hempty : M.hasElem = true ∧ M.segments = []
  · rw [if_pos hempty, if_pos hempty]
    rfl
  · rw [if_neg hempty, if_neg hempty]
    simp only [Option.bind_some, outputBytes, encodeSections, List.flatMap_map]
    rfl

end Sections

end NixWasm.SideModule
