import NixWasm.DynsymRebuild

/-!
The loader's reader on encoded sections. For each section: whatever the reader had, it
goes on after the section with the imports, exports, segment, table size and name map
that the section stands for. The reader never looks at the sections kept as byte strings
in a way that these parts depend on.
-/
namespace NixWasm.SideModule

open Dylink Cursor DynsymInject Unicode

variable {decode : List UInt8 → Utf16}

/-- A name as the reader decodes it. -/
def Name.read (decode : List UInt8 → Utf16) (n : Name) : Utf16 := decode (encodeUtf8 n.text)

def Import.read (decode : List UInt8 → Utf16) (i : Import) : Dylink.Import :=
  ⟨i.module.read decode, i.name.read decode, some i.desc.kind⟩

def Export.read (decode : List UInt8 → Utf16) (e : Export) : Dylink.Export :=
  ⟨e.name.read decode, some e.kind, e.index.value⟩

def Segment.read (s : Segment) : Elem := ⟨s.offset.value, s.indices⟩

/-- What the subsections of `dylink.0` set; the last `MEM_INFO` counts. -/
def memInfoOf (subs : List Sub) (before : MemInfo) : MemInfo :=
  subs.foldl (fun m s => s.sets.getD m) before

def Content.memInfo : Content → Option MemInfo
  | .dylink _ subs _ => some (memInfoOf subs ⟨0, 0, 0, 0⟩)
  | _ => none

def sectionMemInfo (d : DylinkSection) : MemInfo :=
  ⟨d.memSize, d.memAlign, d.tableSize, d.tableAlign⟩

/-- Custom sections are told apart by the reader as they were named. -/
def Content.Told (decode : List UInt8 → Utf16) : Content → Prop
  | .custom n _ _ => (n.read decode = ascii "cb.dynsym" ↔ n.text = literal "cb.dynsym") ∧
      n.read decode ≠ ascii "dylink.0"
  | .dylink n _ _ => n.read decode = ascii "dylink.0"
  | _ => True

/-- States that agree in the parts that are followed here. -/
structure Same (a b : Info) : Prop where
  imports : b.imports = a.imports
  funcImportCount : b.funcImportCount = a.funcImportCount
  exports : b.exports = a.exports
  elem : b.elem = a.elem
  dylink : b.dylink = a.dylink
  dynsym : b.dynsym = a.dynsym

theorem Same.refl (a : Info) : Same a a := ⟨rfl, rfl, rfl, rfl, rfl, rfl⟩

/-- How many functions a list of imports has. -/
def funcCount (items : List Import) : ℕ :=
  (items.filter fun i => i.desc.kind = DynsymInject.kindFunc).length

/-- What reading a section makes of the reader's state. -/
structure Step (decode : List UInt8 → Utf16) (c : Content) (a b : Info) : Prop where
  imports : b.imports = a.imports ++ c.importEntries.map (Import.read decode)
  funcImportCount : b.funcImportCount = a.funcImportCount + funcCount c.importEntries
  exports : b.exports = a.exports ++ c.exportEntries.map (Export.read decode)
  elem : b.elem = (c.segments.head?.map Segment.read).or a.elem
  memInfo : b.dylink.map sectionMemInfo = c.memInfo.or (a.dylink.map sectionMemInfo)
  dynsym : c.isDynsym = false → b.dynsym = a.dynsym
  entries : ∀ es : List (Str × ℕ), c = dynsymContent es →
    b.dynsym = es.foldl (fun m e => m.set (decode (encodeUtf8 e.1)) e.2) a.dynsym

theorem reads_readName (n : Name) :
    Reads (Cursor.name decode : Parser Utf16) n.bytes (n.read decode) := by
  unfold Cursor.name Name.bytes
  refine reads_bind (reads_uleb n.length) ?_
  rw [n.counted]
  exact reads_last (reads_take (encodeUtf8 n.text))

theorem reads_exportEntry (e : Export) :
    Reads (Dylink.exportEntry decode) e.bytes (e.read decode) :=
  reads_bind (reads_readName e.name) (reads_bind (reads_u8 e.kind)
    (reads_last (reads_uleb e.index)))

theorem reads_limitsMax (l : Limits) : Reads (limitsMax l.flags.value)
    ((l.max.map Leb.bytes).getD []) ((l.max.map Leb.value).getD 0) := by
  have hb := l.bounded
  unfold limitsMax
  cases hmax : l.max with
  | none =>
    rw [hmax] at hb
    rw [if_neg (by simpa using hb)]
    exact reads_pure 0
  | some m =>
    rw [hmax] at hb
    rw [if_pos (by simpa using hb)]
    exact reads_uleb m

/-- Reading the description of an import counts it when it is a function. -/
theorem reads_importDescription (d : ImportDesc) (info : Info) : ∃ b : Info,
    Reads (importDescription (some d.kind) info) d.bytes b ∧
      Same { info with funcImportCount :=
        info.funcImportCount + if d.kind = DynsymInject.kindFunc then 1 else 0 } b := by
  cases d with
  | func type => exact ⟨_, reads_last (reads_uleb type), rfl, rfl, rfl, rfl, rfl, rfl⟩
  | table refType limits =>
    exact ⟨_, reads_bind (reads_u8 refType) (reads_bind (reads_uleb limits.flags)
      (reads_bind (reads_uleb limits.min) (reads_last (reads_limitsMax limits)))),
      rfl, rfl, rfl, rfl, rfl, rfl⟩
  | mem limits =>
    have hskip : Reads Dylink.skipLimits limits.bytes limits.flags.value :=
      reads_bind (reads_uleb limits.flags) (reads_bind (reads_uleb limits.min)
        (reads_last (reads_limitsMax limits)))
    exact ⟨info, reads_last hskip, Same.refl info⟩
  | global valType mutability =>
    exact ⟨info, reads_last (reads_skip [valType, mutability]), Same.refl info⟩
  | tag attr type =>
    exact ⟨info, reads_bind (reads_u8 attr) (reads_last (reads_uleb type)), Same.refl info⟩

theorem reads_importSection (decode : List UInt8 → Utf16) (items : List Import) (info : Info) :
    ∃ b : Info, Reads (importSection decode info items.length) (items.flatMap Import.bytes) b ∧
      Same { info with
        imports := info.imports ++ items.map (Import.read decode)
        funcImportCount := info.funcImportCount + funcCount items } b := by
  induction items generalizing info with
  | nil => exact ⟨info, reads_pure info, by simp, rfl, rfl, rfl, rfl, rfl⟩
  | cons i items ih =>
    obtain ⟨b, hb, hsame⟩ :=
      reads_importDescription i.desc { info with imports := info.imports ++ [i.read decode] }
    obtain ⟨c, hc, hsame'⟩ := ih b
    refine ⟨c, ?_, ?_, ?_, hsame'.exports.trans hsame.exports, hsame'.elem.trans hsame.elem,
      hsame'.dylink.trans hsame.dylink, hsame'.dynsym.trans hsame.dynsym⟩
    · simp only [List.flatMap_cons, Import.bytes, List.append_assoc, List.cons_append]
      refine reads_bind (reads_readName i.module) (reads_bind (reads_readName i.name) ?_)
      exact reads_bind (reads_u8 i.desc.kind) (reads_bind hb hc)
    · simp [hsame'.imports, hsame.imports]
    · rw [hsame'.funcImportCount, hsame.funcImportCount]
      by_cases hkind : i.desc.kind = DynsymInject.kindFunc
      · simp [funcCount, hkind]
        omega
      · simp [funcCount, hkind]

theorem reads_elemOffset (o : OffsetExpr) : ∃ bytes, o.bytes = bytes ++ [0x0b] ∧
    Reads elemOffset bytes o.value := by
  cases o with
  | const value =>
    exact ⟨0x41 :: value.bytes, rfl, reads_bind (reads_u8 0x41) (reads_last (reads_sleb value))⟩
  | global index =>
    exact ⟨0x23 :: index.bytes, rfl, reads_bind (reads_u8 0x23) (reads_last (reads_uleb index))⟩

theorem reads_elemSegment (s : Segment) (info : Info) (h : info.elem = none) :
    Reads (elemSegment info) s.bytes { info with elem := some s.read } := by
  obtain ⟨bytes, hsplit, hoffset⟩ := reads_elemOffset s.offset
  unfold elemSegment Segment.bytes Vec.bytes
  refine reads_bind (reads_uleb s.flags) ?_
  rw [if_neg (not_not.mpr s.active), hsplit, List.append_assoc]
  refine reads_bind hoffset (reads_bind (reads_u8 0x0b) ?_)
  rw [if_neg (by simp)]
  refine reads_bind (reads_uleb s.funcs.count) ?_
  rw [s.funcs.counted]
  simp only [h, Option.isSome_none, Bool.false_eq_true, if_false]
  exact reads_last (reads_times uleb Leb.bytes Leb.value s.funcs.items fun l _ => reads_uleb l)

theorem total_typeSection (k : ℕ) (info : Info) :
    Total (Same info)
      (typeSection info k) := by
  induction k generalizing info with
  | zero => exact total_pure (Same.refl _)
  | succ k ih =>
    simp only [typeSection]
    refine total_bind total_u8 fun tag _ => ?_
    split
    · exact total_pure (Same.refl _)
    · refine total_bind total_uleb fun np _ => total_bind (total_times total_u8 np) fun _ _ =>
        total_bind total_uleb fun nr _ => total_bind (total_times total_u8 nr) fun _ _ => ?_
      refine total_mono (ih _) ?_
      rintro b ⟨himports, hcount, hexports, helem, hdylink, hdynsym⟩
      exact ⟨himports, hcount, hexports, helem, hdylink, hdynsym⟩

theorem reads_dynsymEntries (es : List (Str × ℕ)) :
    Reads (times es.length (Dylink.dynsymEntry decode)) (es.flatMap DynsymInject.dynsymEntry)
      (es.map fun e => (decode (encodeUtf8 e.1), e.2)) := by
  refine reads_times _ _ _ es ?_
  intro e _
  have hname : Reads (Cursor.name decode : Parser Utf16)
      (writeUleb (encodeUtf8 e.1).length ++ encodeUtf8 e.1) (decode (encodeUtf8 e.1)) := by
    refine reads_bind (reads_uleb (Leb.ofNat (encodeUtf8 e.1).length)) ?_
    rw [Leb.value_ofNat]
    exact reads_last (reads_take (encodeUtf8 e.1))
  have hslot : Reads (uleb : Parser ℕ) (writeUleb e.2) e.2 := by
    have h := reads_uleb (ε := ParseError) (Leb.ofNat e.2)
    rwa [Leb.value_ofNat] at h
  rw [DynsymInject.dynsymEntry, ← List.append_assoc]
  exact reads_bind hname (reads_last hslot)

theorem reads_dynsymSection (decode : List UInt8 → Utf16) (es : List (Str × ℕ))
    (info : Info) :
    Reads (Dylink.dynsymSection decode info)
      (writeUleb es.length ++ es.flatMap DynsymInject.dynsymEntry)
      { info with
        dynsym := es.foldl (fun m e => m.set (decode (encodeUtf8 e.1)) e.2) info.dynsym } := by
  refine reads_bind (reads_uleb (Leb.ofNat es.length)) ?_
  rw [Leb.value_ofNat]
  have hfold : es.foldl (fun m e => m.set (decode (encodeUtf8 e.1)) e.2) info.dynsym =
      (es.map fun e => (decode (encodeUtf8 e.1), e.2)).foldl (fun m e => m.set e.1 e.2)
        info.dynsym := by
    rw [List.foldl_map]
  rw [hfold]
  exact reads_last (reads_dynsymEntries es)

theorem total_dynsymSection (decode : List UInt8 → Utf16) (info : Info) :
    Total (fun b : Info => Same info { b with dynsym := info.dynsym })
      (Dylink.dynsymSection decode info) := by
  have hentry : Total (fun _ => True) (Dylink.dynsymEntry decode) :=
    total_bind (total_name decode) fun _ _ => total_bind total_uleb fun _ _ => total_pure trivial
  refine total_bind total_uleb fun n _ => total_bind (total_times hentry n) fun _ _ => ?_
  exact total_pure ⟨rfl, rfl, rfl, rfl, rfl, rfl⟩

/-- A subsection other than `MEM_INFO` leaves what `MEM_INFO` set. -/
theorem total_dylinkSubsection (sub : UInt8) (h : sub ≠ wasmDylinkMemInfo) (d : DylinkSection) :
    Total (fun b : DylinkSection => sectionMemInfo b = sectionMemInfo d)
      (dylinkSubsection decode (some sub) d) := by
  unfold dylinkSubsection
  rw [if_neg (by simpa [wasmDylinkMemInfo] using h)]
  split
  · exact total_bind total_uleb fun n _ =>
      total_bind (total_times (total_name decode) n) fun _ _ => total_pure rfl
  · exact total_pure rfl

theorem position_bind {α : Type} {f : ℕ → Parser α} {bytes : List UInt8} {i : ℕ} :
    (position >>= f) bytes i = f i bytes i := rfl

theorem inputLength_bind {α : Type} {f : ℕ → Parser α} {bytes : List UInt8} {i : ℕ} :
    (inputLength >>= f) bytes i = f bytes.length bytes i := rfl

/-- A numbered and sized piece: its body is read, then the cursor goes to its end. -/
theorem framed_run {α β : Type} {r : Option UInt8 → ℕ → Parser α} {k : α → Parser β}
    {id : UInt8} {size : Leb} {payload pre post : List UInt8} {a : α} {j : ℕ}
    (hsize : size.value = payload.length)
    (hbody : r (some id) ((pre ++ id :: size.bytes).length + payload.length)
      ((pre ++ id :: size.bytes) ++ (payload ++ post)) (pre ++ id :: size.bytes).length =
        .ok (a, j)) :
    (do
      let number ← u8
      let n ← uleb
      let start ← position
      let x ← r number (start + n)
      seek (start + n)
      k x : Parser β) (pre ++ (id :: (size.bytes ++ payload) ++ post)) pre.length =
      k a (pre ++ id :: (size.bytes ++ payload) ++ post)
        (pre ++ id :: (size.bytes ++ payload)).length := by
  have hwhole : pre ++ (id :: (size.bytes ++ payload) ++ post) =
      (pre ++ id :: size.bytes) ++ (payload ++ post) := by simp
  have hend : (pre ++ id :: size.bytes).length + payload.length =
      (pre ++ id :: (size.bytes ++ payload)).length := by
    simp only [List.length_append, List.length_cons]
    omega
  have hnumber : (u8 : Parser (Option UInt8)) (pre ++ (id :: (size.bytes ++ payload) ++ post))
      pre.length = .ok (some id, pre.length + 1) := reads_u8 id pre _
  have hn : (uleb : Parser ℕ) (pre ++ (id :: (size.bytes ++ payload) ++ post)) (pre.length + 1) =
      .ok (payload.length, (pre ++ id :: size.bytes).length) := by
    have h := reads_uleb (ε := ParseError) size (pre ++ [id]) (payload ++ post)
    simpa [hsize, Nat.add_assoc, Nat.add_comm] using h
  change Except.bind (u8 _ _) (fun x => Except.bind (uleb _ x.2) (fun y =>
    Except.bind (r x.1 (y.2 + y.1) _ y.2) fun z => k z.1 _ (y.2 + y.1))) = _
  rw [hnumber]
  simp only [Except.bind]
  rw [hn]
  rw [← hwhole, hend] at hbody
  simp only [hend, hbody]
  rw [List.append_assoc]

/-- The subsections one after the other, each from where its size says. -/
theorem dylinkSubsections_bytes (decode : List UInt8 → Utf16) (subs : List Sub)
    (pre post : List UInt8) (fuel : ℕ) (hfuel : subs.length < fuel) (d : DylinkSection) : ∃ b j,
    dylinkSubsections decode (pre.length + (subs.flatMap Sub.bytes).length) fuel d
      (pre ++ (subs.flatMap Sub.bytes ++ post)) pre.length = .ok (b, j) ∧
      sectionMemInfo b = memInfoOf subs (sectionMemInfo d) := by
  induction subs generalizing pre fuel d with
  | nil =>
    obtain ⟨fuel, rfl⟩ : ∃ f, fuel = f + 1 := ⟨fuel - 1, by omega⟩
    refine ⟨d, pre.length, ?_, rfl⟩
    simp only [dylinkSubsections, position_bind]
    simp
    rfl
  | cons s subs ih =>
    obtain ⟨fuel, rfl⟩ : ∃ f, fuel = f + 1 := ⟨fuel - 1, by omega⟩
    obtain ⟨id, size, payload, hbytes, hsize, hbody⟩ : ∃ id size payload,
        s.bytes = id :: (Leb.bytes size ++ payload) ∧ size.value = payload.length ∧
        ∀ pre post, ∃ b j, dylinkSubsection decode (some id) d (pre ++ (payload ++ post))
          pre.length = .ok (b, j) ∧ sectionMemInfo b = s.sets.getD (sectionMemInfo d) := by
      cases s with
      | memInfo size memSize memAlign tableSize tableAlign sized =>
        refine ⟨_, size, _, rfl, sized, ?_⟩
        intro pre post
        have hreads : Reads (dylinkSubsection decode (some 1) d) (memSize.bytes ++
            (memAlign.bytes ++ (tableSize.bytes ++ tableAlign.bytes))) _ :=
          reads_bind (reads_uleb memSize) (reads_bind (reads_uleb memAlign)
            (reads_bind (reads_uleb tableSize) (reads_last (reads_uleb tableAlign))))
        exact ⟨_, _, hreads pre post, rfl⟩
      | other id size payload notMemInfo sized =>
        refine ⟨id, size, payload, rfl, sized, ?_⟩
        intro pre post
        exact total_dylinkSubsection id notMemInfo d _ _
    obtain ⟨a, j, ha, hsets⟩ := hbody (pre ++ id :: size.bytes) (subs.flatMap Sub.bytes ++ post)
    obtain ⟨b, j', hb, hinfo⟩ := ih (pre ++ s.bytes) fuel (by simp at hfuel; omega) a
    refine ⟨b, j', ?_, ?_⟩
    · have hlt : pre.length < pre.length + ((s :: subs).flatMap Sub.bytes).length := by
        simp [hbytes]
      have hstop : pre.length + ((s :: subs).flatMap Sub.bytes).length =
          (pre ++ s.bytes).length + (subs.flatMap Sub.bytes).length := by
        simp only [List.flatMap_cons, List.length_append]
        omega
      simp only [dylinkSubsections, position_bind, if_pos hlt]
      rw [hstop, List.flatMap_cons, List.append_assoc, hbytes]
      have hrun := framed_run (r := fun sub _ => dylinkSubsection decode sub d) hsize ha
        (k := fun d => dylinkSubsections decode
          ((pre ++ s.bytes).length + (subs.flatMap Sub.bytes).length) fuel d)
      rw [hbytes] at hrun hb
      rw [hrun, List.append_assoc]
      rwa [List.append_assoc] at hb
    · rw [hinfo, hsets]
      rfl

/-- A section that adds nothing. -/
theorem Step.of_same {c : Content} {a b : Info} (h : Same a b) (hi : c.importEntries = [])
    (he : c.exportEntries = []) (hs : c.segments = []) (ht : c.memInfo = none)
    (hd : c.isDynsym = false) : Step decode c a b where
  imports := by simp [h.imports, hi]
  funcImportCount := by simp [h.funcImportCount, hi, funcCount]
  exports := by simp [h.exports, he]
  elem := by simp [h.elem, hs]
  memInfo := by simp [h.dylink, ht]
  dynsym _ := h.dynsym
  entries es hc := by
    rw [hc] at hd
    cases hd

theorem name_run {α : Type} (n : Name) {f : Utf16 → Parser α} (pre rest : List UInt8) :
    (Cursor.name decode >>= f) (pre ++ (n.bytes ++ rest)) pre.length =
      f (n.read decode) ((pre ++ n.bytes) ++ rest) (pre ++ n.bytes).length := by
  change Except.bind (Cursor.name decode _ _) (fun x => f x.1 _ x.2) = _
  rw [reads_readName n pre rest]
  simp [Except.bind]

theorem customSection_step (n : Name) (payload : List UInt8)
    (notDylink : n.text ≠ literal "dylink.0") (info : Info)
    (htold : (Content.custom n payload notDylink).Told decode) (pre post : List UInt8) (stop : ℕ) :
    ∃ b j, customSection decode stop info (pre ++ (n.bytes ++ payload ++ post)) pre.length =
      .ok (b, j) ∧ Step decode (.custom n payload notDylink) info b := by
  obtain ⟨hdynsym, hdylink⟩ := htold
  simp only [customSection, List.append_assoc, name_run]
  by_cases hname : n.read decode = ascii "cb.dynsym"
  · rw [if_pos hname]
    obtain ⟨b, j, hb, hsame⟩ := total_dynsymSection decode info
      (pre ++ (n.bytes ++ (payload ++ post))) (pre ++ n.bytes).length
    have himports : b.imports = info.imports := hsame.imports
    have hcount : b.funcImportCount = info.funcImportCount := hsame.funcImportCount
    have hexports : b.exports = info.exports := hsame.exports
    have helem : b.elem = info.elem := hsame.elem
    have hdy : b.dylink = info.dylink := hsame.dylink
    refine ⟨b, j, hb, ?_⟩
    refine ⟨by simp [himports, Content.importEntries],
      by simp [hcount, Content.importEntries, funcCount], by simp [hexports, Content.exportEntries],
      by simp [helem, Content.segments], by simp [hdy, Content.memInfo], ?_, ?_⟩
    · intro h
      simp [Content.isDynsym, hdynsym.mp hname] at h
    · intro es hes
      have hpayload : payload = writeUleb es.length ++ es.flatMap DynsymInject.dynsymEntry := by
        simpa using (Content.custom.inj hes).2
      have hread := reads_dynsymSection decode es info (pre ++ n.bytes) post
      rw [← hpayload, List.append_assoc, hb] at hread
      exact congrArg (fun r => r.1.dynsym) (Except.ok.inj hread)
  · rw [if_neg hname, if_neg hdylink]
    exact ⟨info, _, rfl, Step.of_same (Same.refl info) rfl rfl rfl rfl
      (by simpa [Content.isDynsym] using mt hdynsym.mpr hname)⟩

theorem dylinkSection_step (n : Name) (subs : List Sub) (named : n.text = literal "dylink.0")
    (info : Info) (htold : (Content.dylink n subs named).Told decode) (pre post : List UInt8) :
    ∃ b j, customSection decode (pre.length + (n.bytes ++ subs.flatMap Sub.bytes).length) info
      (pre ++ (n.bytes ++ subs.flatMap Sub.bytes ++ post)) pre.length = .ok (b, j) ∧
      Step decode (.dylink n subs named) info b := by
  have hread : n.read decode = ascii "dylink.0" := htold
  have hne : n.read decode ≠ ascii "cb.dynsym" := by
    rw [hread]
    decide
  have hstop : pre.length + (n.bytes ++ subs.flatMap Sub.bytes).length =
      (pre ++ n.bytes).length + (subs.flatMap Sub.bytes).length := by
    simp only [List.length_append]
    omega
  have hlen : subs.length ≤ (subs.flatMap Sub.bytes).length :=
    length_le_flatMap subs Sub.bytes (by intro s _; cases s <;> simp [Sub.bytes])
  have hpos : 0 < n.bytes.length := by
    have h := n.length.bytes_length_pos
    simp only [Name.bytes, List.length_append]
    omega
  obtain ⟨d, j, hd, hinfo⟩ := dylinkSubsections_bytes decode subs (pre ++ n.bytes) post
    ((pre ++ n.bytes).length + (subs.flatMap Sub.bytes).length)
    (by simp only [List.length_append]; omega) ⟨0, 0, 0, 0, []⟩
  refine ⟨{ info with dylink := some d }, j, ?_, ?_⟩
  · simp only [customSection, List.append_assoc, name_run]
    rw [if_neg hne, if_pos hread, dylinkSection, hstop]
    rw [List.append_assoc] at hd
    exact bind_eq_ok.mpr ⟨d, j, hd, rfl⟩
  · refine ⟨by simp [Content.importEntries], by simp [Content.importEntries, funcCount],
      by simp [Content.exportEntries], by simp [Content.segments], congrArg some hinfo,
      fun _ => rfl, ?_⟩
    intro es h
    cases h

theorem reads_elemSection (segments : List Segment) (single : segments.length ≤ 1) (info : Info)
    (h : segments ≠ [] → info.elem = none) :
    Reads (elemSection info segments.length) (segments.flatMap Segment.bytes)
      { info with elem := (segments.head?.map Segment.read).or info.elem } := by
  rcases segments with _ | ⟨s, rest⟩
  · exact reads_pure info
  · obtain rfl : rest = [] := by simpa using single
    have hseg := reads_elemSegment s info (h (by simp))
    exact reads_bind hseg (reads_pure _)

theorem total_plainSection (id : UInt8) (h : id ∈ plainIds) (stop : ℕ) (info : Info) :
    Total (Same info)
      (sectionBody decode (some id) stop info) := by
  have hids : ∀ id ∈ plainIds, id ≠ 0 ∧ id ≠ 2 ∧ id ≠ 7 ∧ id ≠ 9 := by simp [plainIds]
  obtain ⟨h0, h2, h7, h9⟩ := hids id h
  simp only [sectionBody, Option.some.injEq, h0, h2, h7, h9, if_false]
  split
  · exact total_bind total_uleb fun n _ => total_typeSection n info
  · split
    · exact total_bind total_uleb fun n _ => total_bind (total_times total_uleb n) fun _ _ =>
        total_pure ⟨rfl, rfl, rfl, rfl, rfl, rfl⟩
    · exact total_pure (Same.refl _)

theorem sectionBody_step (c : Content) (info : Info) (htold : c.Told decode)
    (helem : c.segments ≠ [] → info.elem = none) (pre post : List UInt8) :
    ∃ b j, sectionBody decode (some c.id) (pre.length + c.body.length) info
      (pre ++ (c.body ++ post)) pre.length = .ok (b, j) ∧ Step decode c info b := by
  cases c with
  | custom n payload notDylink => exact customSection_step n payload notDylink info htold pre post _
  | dylink n subs named => exact dylinkSection_step n subs named info htold pre post
  | imports entries =>
    obtain ⟨b, hb, hsame⟩ := reads_importSection decode entries.items info
    have hread : Reads (sectionBody decode (some secImport)
        (pre.length + (entries.bytes Import.bytes).length) info)
          (entries.bytes Import.bytes) b := by
      refine reads_bind (reads_uleb entries.count) ?_
      rw [entries.counted]
      exact hb
    refine ⟨b, _, hread pre post, ?_⟩
    refine ⟨hsame.imports, hsame.funcImportCount, by simp [hsame.exports, Content.exportEntries],
      by simp [hsame.elem, Content.segments], by simp [hsame.dylink, Content.memInfo],
      fun _ => hsame.dynsym, ?_⟩
    intro es h
    cases h
  | exports entries =>
    have hread : Reads (sectionBody decode (some secExport)
        (pre.length + (entries.bytes Export.bytes).length) info) (entries.bytes Export.bytes)
        { info with exports := info.exports ++ entries.items.map (Export.read decode) } := by
      refine reads_bind (reads_uleb entries.count) ?_
      rw [entries.counted]
      exact reads_last (reads_times _ _ _ entries.items fun e _ => reads_exportEntry e)
    refine ⟨_, _, hread pre post, ?_⟩
    refine ⟨by simp [Content.importEntries], by simp [Content.importEntries, funcCount], rfl,
      by simp [Content.segments], by simp [Content.memInfo], fun _ => rfl, ?_⟩
    intro es h
    cases h
  | elem segments single =>
    have hread : Reads (sectionBody decode (some secElem)
        (pre.length + (segments.bytes Segment.bytes).length) info) (segments.bytes Segment.bytes)
        { info with elem := (segments.items.head?.map Segment.read).or info.elem } := by
      refine reads_bind (reads_uleb segments.count) ?_
      rw [segments.counted]
      exact reads_elemSection segments.items single info helem
    refine ⟨_, _, hread pre post, ?_⟩
    refine ⟨by simp [Content.importEntries], by simp [Content.importEntries, funcCount],
      by simp [Content.exportEntries], rfl, by simp [Content.memInfo], fun _ => rfl, ?_⟩
    intro es h
    cases h
  | plain id body listed =>
    have htotal : Total (Same info)
        (sectionBody decode (some id) (pre.length + body.length) info) :=
      total_plainSection id listed _ info
    obtain ⟨b, j, hb, hsame⟩ := htotal (pre ++ (body ++ post)) pre.length
    exact ⟨b, j, hb, Step.of_same hsame rfl rfl rfl rfl rfl⟩

/-- The states the reader goes through over a list of sections. -/
inductive Steps (decode : List UInt8 → Utf16) : List Content → Info → Info → Prop where
  | nil (a : Info) : Steps decode [] a a
  | cons {c : Content} {cs : List Content} {a b d : Info} (head : Step decode c a b)
      (tail : Steps decode cs b d) : Steps decode (c :: cs) a d

namespace Steps

variable {cs : List Content} {a b : Info}

theorem imports (h : Steps decode cs a b) :
    b.imports = a.imports ++ (cs.flatMap Content.importEntries).map (Import.read decode) := by
  induction h with
  | nil a => simp
  | cons head tail ih => simp [ih, head.imports]

theorem funcImportCount (h : Steps decode cs a b) : b.funcImportCount =
    a.funcImportCount + funcCount (cs.flatMap Content.importEntries) := by
  induction h with
  | nil a => rfl
  | cons head tail ih =>
    rw [ih, head.funcImportCount, List.flatMap_cons]
    simp only [funcCount, List.filter_append, List.length_append]
    omega

theorem exports (h : Steps decode cs a b) :
    b.exports = a.exports ++ (cs.flatMap Content.exportEntries).map (Export.read decode) := by
  induction h with
  | nil a => simp
  | cons head tail ih => simp [ih, head.exports]

/-- Among sections with one segment in all, that segment counts. -/
theorem elem (h : Steps decode cs a b) (hone : (cs.flatMap Content.segments).length ≤ 1) :
    b.elem = ((cs.flatMap Content.segments).head?.map Segment.read).or a.elem := by
  induction h with
  | nil a => simp
  | @cons c cs a b d head tail ih =>
    rw [List.flatMap_cons, List.length_append] at hone
    rw [ih (by omega), head.elem, List.flatMap_cons]
    rcases hsegs : c.segments with _ | ⟨s, rest⟩
    · simp
    · have hnil : cs.flatMap Content.segments = [] := by
        rw [hsegs, List.length_cons] at hone
        exact List.length_eq_zero_iff.mp (by omega)
      simp [hnil]

theorem memInfo (h : Steps decode cs a b) : b.dylink.map sectionMemInfo =
    cs.foldl (fun m c => c.memInfo.or m) (a.dylink.map sectionMemInfo) := by
  induction h with
  | nil a => rfl
  | cons head tail ih => rw [ih, head.memInfo, List.foldl_cons]

/-- The map of names at the end of a module is the one read. -/
theorem entries {es : List (Str × ℕ)} (h : Steps decode (cs ++ [dynsymContent es]) a b)
    (hnone : ∀ c ∈ cs, c.isDynsym = false) :
    b.dynsym = es.foldl (fun m e => m.set (decode (encodeUtf8 e.1)) e.2) a.dynsym := by
  induction cs generalizing a with
  | nil =>
    cases h with
    | cons head tail =>
      cases tail with
      | nil => exact head.entries es rfl
  | cons c cs ih =>
    cases h with
    | cons head tail =>
      rw [ih tail fun d hd => hnone d (List.mem_cons_of_mem c hd),
        head.dynsym (hnone c (List.mem_cons_self ..))]

end Steps

theorem sections_steps (secs : List Sec) (pre : List UInt8) (fuel : ℕ) (hfuel : secs.length < fuel)
    (info : Info) (htold : ∀ s ∈ secs, s.content.Told decode)
    (hone : info.elem.toList.length + (secs.flatMap fun s => s.content.segments).length ≤ 1) :
    ∃ b j, Dylink.sections decode fuel info (pre ++ secs.flatMap Sec.bytes) pre.length =
      .ok (b, j) ∧ Steps decode (secs.map Sec.content) info b := by
  induction secs generalizing pre fuel info with
  | nil =>
    obtain ⟨fuel, rfl⟩ : ∃ f, fuel = f + 1 := ⟨fuel - 1, by omega⟩
    refine ⟨info, pre.length, ?_, .nil info⟩
    simp only [Dylink.sections, position_bind, inputLength_bind, List.flatMap_nil, List.append_nil,
      Nat.lt_irrefl, if_false]
    rfl
  | cons s secs ih =>
    obtain ⟨fuel, rfl⟩ : ∃ f, fuel = f + 1 := ⟨fuel - 1, by omega⟩
    rw [List.flatMap_cons, List.length_append] at hone
    have hfree : s.content.segments ≠ [] → info.elem = none := by
      intro hne
      have hpos := List.length_pos_iff.mpr hne
      have hzero : info.elem.toList.length = 0 := by omega
      simpa using hzero
    obtain ⟨a, j, ha, hstep⟩ := sectionBody_step s.content info
      (htold s (List.mem_cons_self ..)) hfree (pre ++ s.content.id :: s.size.bytes)
      (secs.flatMap Sec.bytes)
    have hone' : a.elem.toList.length + (secs.flatMap fun s => s.content.segments).length ≤ 1 := by
      rw [hstep.elem]
      rcases hsegs : s.content.segments with _ | ⟨seg, rest⟩
      · simp only [List.head?_nil, Option.map_none, Option.none_or]
        omega
      · rw [hsegs, List.length_cons] at hone
        simp only [List.head?_cons, Option.map_some, Option.some_or, Option.toList_some,
          List.length_singleton]
        omega
    obtain ⟨b, j', hb, hsteps⟩ := ih (pre ++ s.bytes) fuel (by simp at hfuel; omega) a
      (fun t ht => htold t (List.mem_cons_of_mem s ht)) hone'
    refine ⟨b, j', ?_, .cons hstep hsteps⟩
    have hlt : pre.length < (pre ++ (s :: secs).flatMap Sec.bytes).length := by
      simp [Sec.bytes]
    simp only [Dylink.sections, position_bind, inputLength_bind, if_pos hlt]
    rw [List.flatMap_cons]
    have hrun := framed_run (r := fun id stop => sectionBody decode id stop info) s.sized ha
      (k := fun info => Dylink.sections decode fuel info)
    exact hrun.trans hb

/-- Reading the encoding of sections. -/
theorem parse_encodeSections (secs : List Sec) (htold : ∀ s ∈ secs, s.content.Told decode)
    (hone : (secs.flatMap fun s => s.content.segments).length ≤ 1) :
    ∃ info, parseWith decode (encodeSections secs) = .ok info ∧
      Steps decode (secs.map Sec.content) .initial info := by
  have hlen := length_le_flatMap secs Sec.bytes (by simp [Sec.bytes])
  have hlength : (encodeSections secs).length = 8 + (secs.flatMap Sec.bytes).length := by
    simp [encodeSections, magic]
    omega
  obtain ⟨info, j, hread, hsteps⟩ := sections_steps secs (magic ++ [1, 0, 0, 0])
    (encodeSections secs).length (by omega) .initial htold (by simpa [Info.initial] using hone)
  refine ⟨info, ?_, hsteps⟩
  have hmagic : ¬ ((encodeSections secs).length < 8 ∨
      (encodeSections secs).take 4 ≠ [0, 0x61, 0x73, 0x6d]) := by
    rintro (hshort | htake)
    · omega
    · exact htake rfl
  have hwhole : encodeSections secs = magic ++ [1, 0, 0, 0] ++ secs.flatMap Sec.bytes := by
    simp [encodeSections]
  rw [← hwhole] at hread
  rw [parseWith, if_neg hmagic]
  have hread' : Dylink.sections decode (encodeSections secs).length .initial
    (encodeSections secs) 8 =
      .ok (info, j) := hread
  rw [hread']
  rfl

end NixWasm.SideModule
