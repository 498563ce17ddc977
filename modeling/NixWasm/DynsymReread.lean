import NixWasm.DynsymRebuild
import NixWasm.Rereads

/-!
What the injector's readers make of bytes that it wrote itself. Nothing is said about the
input here but that it was read: its numbers may be padded, its last name or section cut
short. The rewritten parts come back as they are when no slot is added.
-/
namespace NixWasm.DynsymInject

open Bytes Bytes.Reader SideModule

theorem reads_writeUleb (v : ℕ) : Reads uleb (writeUleb v) v := by
  have h := reads_uleb (Leb.ofNat v)
  rwa [Leb.value_ofNat] at h

theorem stable_readName : Stable readName :=
  stable_bind stable_uleb fun n => stable_bind (stable_upTo n) fun _ => stable_ofOption _

theorem stable_offsetOperand (op : UInt8) : Stable (offsetOperand op) := by
  unfold offsetOperand
  split
  · exact stable_anyLeb
  · split
    · exact stable_bind stable_uleb fun _ => stable_pure ()
    · exact stable_ofOption none

theorem stable_offsetExpr : Stable offsetExpr :=
  stable_bind stable_byte fun op => stable_bind (stable_offsetOperand op) fun _ =>
    stable_bind stable_byte fun last => stable_require (last = 0x0b)

theorem stable_optionalMax (flags : ℕ) : Stable (optionalMax flags) := by
  unfold optionalMax
  split
  · exact stable_map some stable_uleb
  · exact stable_pure none

theorem stable_skipLimits : Stable skipLimits :=
  stable_bind stable_uleb fun flags => stable_bind stable_uleb fun _ =>
    stable_bind (stable_optionalMax flags) fun _ => stable_pure ()

theorem stable_importTail (kind : UInt8) : Stable (importTail kind) := by
  unfold importTail
  split
  · exact stable_bind stable_uleb fun _ => stable_pure ()
  split
  · exact stable_skipLimits
  split
  · exact stable_bind (stable_upTo 2) fun _ => stable_pure ()
  split
  · exact stable_bind (stable_upTo 1) fun _ => stable_bind stable_uleb fun _ => stable_pure ()
  · exact stable_ofOption none

theorem stable_importHead : Stable importHead :=
  stable_bind stable_readName fun _ => stable_bind stable_readName fun _ => stable_byte

/-- The flags say whether a maximum was read. -/
theorem optionalMax_isSome {flags : ℕ} {bs rest : List UInt8} {max : Option ℕ}
    (h : optionalMax flags bs = some (max, rest)) : max.isSome = decide (flags % 2 = 1) := by
  unfold optionalMax at h
  split at h
  · rename_i hodd
    obtain ⟨⟨m, mid⟩, -, heq⟩ := Option.bind_eq_some_iff.mp h
    obtain ⟨rfl, -⟩ : some m = max ∧ mid = rest := by simpa using heq
    simp [hodd]
  · rename_i heven
    obtain ⟨rfl, -⟩ : none = max ∧ bs = rest := pure_eq_some h
    simp [heven]

/-- The limits of a table are written in their shortest form. -/
theorem echoes_bumpTable (n : ℕ) : Echoes (bumpTable n) (bumpTable 0) := by
  intro bs e rest h
  obtain ⟨refType, bs₁, htype, h⟩ := bind_eq_some h
  obtain ⟨flags, bs₂, hflags, h⟩ := bind_eq_some h
  obtain ⟨initial, bs₃, hinitial, h⟩ := bind_eq_some h
  obtain ⟨max, bs₄, hmax, h⟩ := bind_eq_some h
  obtain ⟨rfl, rfl⟩ : refType ++ (writeUleb flags ++ (writeUleb (initial + n) ++
      (max.map fun m => writeUleb (m + n)).getD [])) = e ∧ bs₄ = rest := pure_eq_some h
  cases bs with
  | nil =>
    obtain ⟨rfl, rfl⟩ : [] = refType ∧ [] = bs₁ := by simpa [upTo] using htype
    cases hflags
  | cons b bs =>
    obtain ⟨rfl, -⟩ : [b] = refType ∧ bs = bs₁ := by simpa [upTo] using htype
    refine ⟨fun hnil => absurd hnil (List.cons_ne_nil b bs), fun rest' _ => ?_⟩
    have hbound := optionalMax_isSome hmax
    let limits : Limits :=
      { flags := Leb.ofNat flags
        min := Leb.ofNat (initial + n)
        max := max.map fun m => Leb.ofNat (m + n)
        bounded := by rw [Leb.value_ofNat, ← hbound, Option.isSome_map] }
    have hwritten : [b] ++ (writeUleb flags ++ (writeUleb (initial + n) ++
        (max.map fun m => writeUleb (m + n)).getD [])) = b :: limits.bytes := by
      cases max <;> rfl
    have hsame : (limits.grow 0).bytes = limits.bytes := by
      cases max <;> simp [limits, Limits.grow, Limits.bytes]
    have hagain := reads_bumpTable 0 b limits rest'
    rw [hsame] at hagain
    rw [hwritten]
    exact hagain

theorem echoes_importRest (n : ℕ) (kind : UInt8) :
    Echoes (importRest n kind) (importRest 0 kind) := by
  unfold importRest
  split
  · exact echoes_bumpTable n
  · exact echoes_consumed (stable_importTail kind)

theorem echoes_bumpImport (n : ℕ) : Echoes (bumpImport n) (bumpImport 0) :=
  echoes_after stable_importHead fun kind => echoes_importRest n kind

/-- Imports written once are written the same when no slot is added. -/
theorem bumpImports_again {n : ℕ} {body out : List UInt8} (h : bumpImports n body = some out) :
    bumpImports 0 out = some out := by
  obtain ⟨⟨count, rest⟩, -, h⟩ := Option.bind_eq_some_iff.mp h
  obtain ⟨⟨entries, left⟩, hitems, h⟩ := Option.bind_eq_some_iff.mp h
  obtain rfl : writeUleb count ++ entries.flatten = out := by simpa using h
  have hagain := (echoes_items (echoes_bumpImport n) count hitems).2 [] fun _ => rfl
  rw [List.append_nil] at hagain
  simp only [bumpImports, reads_writeUleb count _, Option.bind_eq_bind, Option.bind_some, hagain]
  rfl

theorem reads_memInfo (m : MemInfo) : Reads memInfo m.encode m :=
  reads_bind (reads_writeUleb _) (reads_bind (reads_writeUleb _)
    (reads_bind (reads_writeUleb _) (reads_last (reads_writeUleb _))))

/-- By the subsections; one that was cut short is the last. -/
theorem bumpSubsections_again {n fuel : ℕ} {rest subs : List UInt8}
    (h : bumpSubsections n fuel rest = some subs) {fuel' : ℕ} (hfuel : subs.length ≤ fuel') :
    bumpSubsections 0 fuel' subs = some subs := by
  induction fuel generalizing rest subs fuel' with
  | zero =>
    cases rest with
    | nil =>
      obtain rfl : [] = subs := by simpa [bumpSubsections] using h
      cases fuel' <;> rfl
    | cons sub rest => simp [bumpSubsections] at h
  | succ fuel ih =>
    cases rest with
    | nil =>
      obtain rfl : [] = subs := by simpa [bumpSubsections] using h
      cases fuel' <;> rfl
    | cons sub rest =>
      obtain ⟨⟨size, rest⟩, -, h⟩ := Option.bind_eq_some_iff.mp h
      obtain ⟨later, hlater, h⟩ := Option.bind_eq_some_iff.mp h
      dsimp only at hlater h
      split at h
      · rename_i hinfo
        obtain ⟨⟨m, left⟩, -, h⟩ := Option.bind_eq_some_iff.mp h
        obtain rfl : subsection sub { m with tableSize := m.tableSize + n }.encode ++ later =
            subs := by simpa using h
        generalize { m with tableSize := m.tableSize + n } = m' at hfuel ⊢
        simp only [subsection, List.length_append, List.length_cons] at hfuel
        obtain ⟨fuel', rfl⟩ : ∃ f, fuel' = f + 1 := ⟨fuel' - 1, by omega⟩
        have hrest : bumpSubsections 0 fuel' later = some later := ih hlater (by omega)
        rw [subsection, List.cons_append, List.append_assoc]
        simp only [bumpSubsections, reads_writeUleb _ _, Option.bind_eq_bind, Option.bind_some,
          List.drop_left, hrest, if_pos hinfo, reads_memInfo m' later]
        simp [subsection]
      · rename_i hother
        obtain rfl : sub :: (writeUleb size ++ rest.take size) ++ later = subs := by simpa using h
        simp only [List.length_append, List.length_cons] at hfuel
        obtain ⟨fuel', rfl⟩ : ∃ f, fuel' = f + 1 := ⟨fuel' - 1, by omega⟩
        have hrest : bumpSubsections 0 fuel' later = some later := ih hlater (by omega)
        have hcut : (rest.take size ++ later).take size = rest.take size ∧
            (rest.take size ++ later).drop size = later := by
          by_cases hsize : size ≤ rest.length
          · have hlen : (rest.take size).length = size := List.length_take_of_le hsize
            exact ⟨List.take_left' hlen, List.drop_left' hlen⟩
          · -- fewer bytes than the size: nothing followed
            rw [List.drop_eq_nil_of_le (by omega)] at hlater
            obtain rfl : [] = later := by cases fuel <;> simpa [bumpSubsections] using hlater
            simp only [List.append_nil, List.take_take, Nat.min_self, true_and]
            exact List.drop_eq_nil_of_le (List.length_take_le _ _)
        rw [List.cons_append, List.append_assoc]
        simp only [bumpSubsections, reads_writeUleb _ _, Option.bind_eq_bind, Option.bind_some,
          hcut, hrest, if_neg hother]
        simp

/-- The name of the section is kept as well. -/
theorem bumpDylink_again {n : ℕ} {body out : List UInt8} (h : bumpDylink n body = some out) :
    bumpDylink 0 out = some out ∧ (readName out).map Prod.fst = (readName body).map Prod.fst := by
  obtain ⟨⟨⟨name, text⟩, rest⟩, hname, h⟩ := Option.bind_eq_some_iff.mp h
  obtain ⟨subs, hsubs, h⟩ := Option.bind_eq_some_iff.mp h
  obtain rfl : name ++ subs = out := by simpa using h
  obtain ⟨hbody, hagain⟩ := consumed_eq_some stable_readName hname
  have hfollows : Follows rest subs := by
    rintro rfl
    simpa [bumpSubsections, eq_comm] using hsubs
  have hread := hagain subs hfollows
  refine ⟨?_, ?_⟩
  · simp only [bumpDylink, consumed_of_eq hread, Option.bind_eq_bind, Option.bind_some,
      bumpSubsections_again hsubs (Nat.le_refl _)]
    rfl
  · rw [hread, hbody, hagain rest id]
    rfl

/-- The offset expression of a segment can be read in front of anything. -/
def ElemSegment.Readable (seg : ElemSegment) : Prop :=
  Reads DynsymInject.offsetExpr seg.offsetExpr ()

theorem readable_noElem : noElem.Readable := reads_offset (.const (Leb.ofNat 0))

theorem readable_of_readElem {body rest : List UInt8} {seg : ElemSegment}
    (h : readElem body = some (seg, rest)) : seg.Readable := by
  obtain ⟨n, bs₁, -, h⟩ := bind_eq_some h
  obtain ⟨_, bs₂, -, h⟩ := bind_eq_some h
  obtain ⟨flags, bs₃, -, h⟩ := bind_eq_some h
  obtain ⟨_, bs₄, -, h⟩ := bind_eq_some h
  obtain ⟨⟨expr, _⟩, bs₅, hexpr, h⟩ := bind_eq_some h
  obtain ⟨cnt, bs₆, hcnt, h⟩ := bind_eq_some h
  obtain ⟨funcs, bs₇, -, h⟩ := bind_eq_some h
  obtain ⟨rfl, -⟩ : (⟨expr, funcs⟩ : ElemSegment) = seg ∧ bs₇ = rest := pure_eq_some h
  intro rest'
  refine (consumed_eq_some stable_offsetExpr hexpr).2 rest' ?_
  -- the count was read behind the expression
  rintro rfl
  cases hcnt

theorem readSegment_readable {sections : List Section} {seg : ElemSegment}
    (h : readSegment sections = some seg) : seg.Readable := by
  unfold readSegment at h
  split at h
  · cases h
    exact readable_noElem
  · obtain ⟨⟨_, rest⟩, hread, rfl⟩ := Option.map_eq_some_iff.mp h
    exact readable_of_readElem hread

/-- The offset expression is kept byte for byte, the functions in their shortest form. -/
theorem readElem_elemBody {seg : ElemSegment} (h : seg.Readable) (added : List ℕ) :
    readElem (elemBody seg added) = some (⟨seg.offsetExpr, seg.funcs ++ added⟩, []) := by
  have hfuncs : Reads (items uleb (seg.funcs ++ added).length)
      ((seg.funcs ++ added).flatMap writeUleb) (seg.funcs ++ added) := by
    have hitems := reads_items uleb writeUleb id (seg.funcs ++ added)
      fun v _ => reads_writeUleb v
    rwa [List.map_id] at hitems
  rw [List.length_append] at hfuncs
  have hread : Reads readElem (elemBody seg added) ⟨seg.offsetExpr, seg.funcs ++ added⟩ := by
    unfold readElem elemBody
    refine reads_bind (reads_writeUleb 1) (reads_nil_bind (reads_require rfl) ?_)
    refine reads_bind (reads_writeUleb 0) (reads_nil_bind (reads_require rfl) ?_)
    refine reads_bind (reads_consumed h) ?_
    exact reads_bind (reads_writeUleb _) (reads_last hfuncs)
  have hend := hread []
  rwa [List.append_nil] at hend

theorem elemBody_again (seg : ElemSegment) (added : List ℕ) :
    elemBody ⟨seg.offsetExpr, seg.funcs ++ added⟩ [] = elemBody seg added := by
  simp [elemBody]

theorem sectionsFrom_encode {fuel : ℕ} (sections : List Section) (h : sections.length ≤ fuel) :
    sectionsFrom fuel (sections.flatMap Section.encode) = some sections := by
  induction sections generalizing fuel with
  | nil => cases fuel <;> rfl
  | cons s sections ih =>
    obtain ⟨fuel, rfl⟩ : ∃ f, fuel = f + 1 := ⟨fuel - 1, by simp at h; omega⟩
    have htail : sectionsFrom fuel (sections.flatMap Section.encode) = some sections :=
      ih (by simp at h; omega)
    simp only [List.flatMap_cons, Section.encode, List.cons_append, List.append_assoc, sectionsFrom,
      reads_writeUleb _ _, Option.bind_eq_bind, Option.bind_some, List.drop_left, List.take_left,
      htail]
    rfl

/-- Every list of sections is read back from its bytes. -/
theorem parseSections_outputBytes (sections : List Section) :
    parseSections (outputBytes sections) = some sections := by
  have hlen := length_le_flatMap sections Section.encode (by simp [Section.encode])
  have hdrop : (outputBytes sections).drop 8 = sections.flatMap Section.encode := rfl
  have htake : (outputBytes sections).take 4 = magic := rfl
  unfold parseSections
  rw [if_neg (not_not.mpr htake), hdrop]
  apply sectionsFrom_encode
  simp only [outputBytes, List.length_append]
  omega

end NixWasm.DynsymInject
