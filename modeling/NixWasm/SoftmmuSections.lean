import NixWasm.Leb
import Mathlib.Data.List.Induction

/-!
The sections of a module that the soft-MMU pass of softmmu-pass.ts writes. The pass
replaces the type, function, global, export and code sections, strips the start section,
and inserts those of the five that the module lacks before the first section whose id is
greater. The canonical order is that of the ids, except for two late additions. The bodies
that the pass computes, and its reasons to refuse a module, are parameters here.
-/
namespace NixWasm.Softmmu

open Cursor

structure Section where
  id : ℕ
  body : List UInt8
deriving DecidableEq

/-- The loop of splitSections at offset `i`. -/
def sectionsFrom (bytes : List UInt8) : ℕ → ℕ → List Section
  | 0, _ => []
  | fuel + 1, i =>
    match bytes[i]? with
    | none => []
    | some id =>
      let (size, n) := ulebAt (bytes.drop (i + 1))
      ⟨id.toNat, (bytes.drop (i + 1 + n)).take size⟩ :: sectionsFrom bytes fuel (i + 1 + n + size)

/-- Every section takes a byte, so the length is fuel enough. -/
def splitSections (bytes : List UInt8) : Option (List Section) :=
  if bytes[0]? = some 0 ∧ bytes[1]? = some 0x61 then some (sectionsFrom bytes bytes.length 8)
  else none

/-- The sections that the pass writes anew. -/
def replaced : List ℕ := [1, 3, 6, 7, 10]

structure Reassembly where
  outSecs : List Section
  present : List ℕ

section Reassemble
variable (body : ℕ → List UInt8)

def emitMissing (id : ℕ) (st : Reassembly) (nid : ℕ) : Reassembly :=
  if nid < id ∧ nid ∉ st.present then ⟨st.outSecs ++ [⟨nid, body nid⟩], nid :: st.present⟩ else st

def emitMissingBefore (st : Reassembly) (id : ℕ) : Reassembly :=
  replaced.foldl (emitMissing body id) st

/-- One round of the loop over the sections; the start section is left out. -/
def emitSection (st : Reassembly) (sec : Section) : Reassembly :=
  if sec.id = 8 then st
  else
    let st := if sec.id ≠ 0 then emitMissingBefore body st sec.id else st
    { st with
      outSecs := st.outSecs ++ [if sec.id ∈ replaced then ⟨sec.id, body sec.id⟩ else sec] }

def reassemble (secs : List Section) : List Section :=
  (emitMissingBefore body (secs.foldl (emitSection body) ⟨[], secs.map Section.id⟩) 11).outSecs

end Reassemble

/-- What the rest of the pass decides: which modules it refuses, and the new bodies. -/
structure Pass where
  accepts : List Section → Bool
  body : List Section → ℕ → List UInt8

/-- The sections of the instrumented module; a throw answers nothing. -/
def Pass.outSecs (pass : Pass) (secs : List Section) : Option (List Section) :=
  if secs.any (·.id = 10) ∧ pass.accepts secs then some (reassemble (pass.body secs) secs) else none

/-- `patch5`: a number of 32 bits in five bytes. -/
def patch5 (v : ℕ) : Leb :=
  let digit (k : ℕ) : Fin 128 := Fin.ofNat 128 (v % 2 ^ 32 / 128 ^ k)
  ⟨[digit 0, digit 1, digit 2, digit 3], digit 4⟩

def writeSection (sec : Section) : List UInt8 :=
  UInt8.ofNat sec.id :: (patch5 sec.body.length).bytes ++ sec.body

def writeModule (secs : List Section) : List UInt8 :=
  [0x00, 0x61, 0x73, 0x6d, 0x01, 0x00, 0x00, 0x00] ++ secs.flatMap writeSection

def Pass.instrument (pass : Pass) (bytes : List UInt8) : Option (List UInt8) := do
  let secs ← splitSections bytes
  let out ← pass.outSecs secs
  return writeModule out

/-- The section ids in canonical order: tags come before globals, the data count before code. -/
def canonicalOrder : List ℕ := [1, 2, 3, 4, 5, 13, 6, 7, 8, 9, 12, 10, 11]

def rank (id : ℕ) : ℕ := canonicalOrder.idxOf id

/-- The ids of the sections that are not custom. -/
def ids (secs : List Section) : List ℕ := (secs.map Section.id).filter (· ≠ 0)

/-- The sections that are not custom come in canonical order, each at most once. -/
def Canonical (secs : List Section) : Prop :=
  (∀ id ∈ ids secs, id ∈ canonicalOrder) ∧ (ids secs).Pairwise fun a b => rank a < rank b

instance (secs : List Section) : Decidable (Canonical secs) :=
  inferInstanceAs (Decidable ((∀ id ∈ ids secs, id ∈ canonicalOrder) ∧
    (ids secs).Pairwise fun a b => rank a < rank b))

theorem ids_append (a b : List Section) : ids (a ++ b) = ids a ++ ids b := by
  simp [ids]

section Emission
variable {body : ℕ → List UInt8}

theorem emitSection_start (st : Reassembly) {sec : Section} (h : sec.id = 8) :
    emitSection body st sec = st := if_pos h

theorem emitSection_custom (st : Reassembly) {sec : Section} (h : sec.id = 0) :
    emitSection body st sec = { st with outSecs := st.outSecs ++ [sec] } := by
  have hnot : (0 : ℕ) ∉ replaced := by decide
  simp [emitSection, h, hnot]

/-- The section that takes the place of `sec`. -/
def rewritten (body : ℕ → List UInt8) (sec : Section) : Section :=
  if sec.id ∈ replaced then ⟨sec.id, body sec.id⟩ else sec

theorem emitSection_known (body : ℕ → List UInt8) (st : Reassembly) {sec : Section}
    (hstart : sec.id ≠ 8) (hzero : sec.id ≠ 0) :
    emitSection body st sec =
      ⟨(emitMissingBefore body st sec.id).outSecs ++ [rewritten body sec],
        (emitMissingBefore body st sec.id).present⟩ := by
  rw [emitSection, if_neg hstart, if_pos hzero]
  rfl

theorem ids_rewritten (body : ℕ → List UInt8) {sec : Section} (hzero : sec.id ≠ 0) :
    ids [rewritten body sec] = [sec.id] := by
  unfold rewritten
  split_ifs <;> simp [ids, hzero]

/-- The sections missing before `id` are put behind what is there, in the order of `nids`. -/
theorem foldl_emitMissing (id : ℕ) (nids : List ℕ) (hnodup : nids.Nodup) (st : Reassembly) :
    (nids.foldl (emitMissing body id) st).outSecs = st.outSecs ++
      (nids.filter fun n => n < id ∧ n ∉ st.present).map (fun n => ⟨n, body n⟩) ∧
    ∀ n, n ∈ (nids.foldl (emitMissing body id) st).present ↔
      n ∈ st.present ∨ n ∈ nids ∧ n < id := by
  induction nids generalizing st with
  | nil => simp
  | cons nid nids ih =>
    obtain ⟨hnid, hnodup⟩ := List.nodup_cons.mp hnodup
    obtain ⟨hout, hpresent⟩ := ih hnodup (emitMissing body id st nid)
    rw [List.foldl_cons]
    by_cases hemit : nid < id ∧ nid ∉ st.present
    · have hstep : emitMissing body id st nid =
          ⟨st.outSecs ++ [⟨nid, body nid⟩], nid :: st.present⟩ := if_pos hemit
      rw [hstep] at hout hpresent ⊢
      refine ⟨?_, fun n => ?_⟩
      · have hrest : nids.filter (fun n => n < id ∧ n ∉ nid :: st.present) =
            nids.filter fun n => n < id ∧ n ∉ st.present := by
          refine List.filter_congr fun n hn => ?_
          have hne : n ≠ nid := fun h => hnid (h ▸ hn)
          simp [hne]
        rw [hout, hrest, List.filter_cons_of_pos (by simpa using hemit)]
        simp
      · rw [hpresent, List.mem_cons, List.mem_cons]
        constructor
        · rintro ((rfl | h) | h)
          · exact Or.inr ⟨Or.inl rfl, hemit.1⟩
          · exact Or.inl h
          · exact Or.inr ⟨Or.inr h.1, h.2⟩
        · rintro (h | ⟨rfl | h, hlt⟩)
          · exact Or.inl (Or.inr h)
          · exact Or.inl (Or.inl rfl)
          · exact Or.inr ⟨h, hlt⟩
    · have hstep : emitMissing body id st nid = st := if_neg hemit
      rw [hstep] at hout hpresent ⊢
      refine ⟨?_, fun n => ?_⟩
      · rw [hout, List.filter_cons_of_neg (by simpa using hemit)]
      · rw [hpresent, List.mem_cons]
        constructor
        · rintro (h | h)
          · exact Or.inl h
          · exact Or.inr ⟨Or.inr h.1, h.2⟩
        · rintro (h | ⟨rfl | h, hlt⟩)
          · exact Or.inl h
          · exact Or.inl (by_contra fun hn => hemit ⟨hlt, hn⟩)
          · exact Or.inr ⟨h, hlt⟩

theorem outSecs_emitMissingBefore (st : Reassembly) (id : ℕ) :
    (emitMissingBefore body st id).outSecs = st.outSecs ++
      (replaced.filter fun n => n < id ∧ n ∉ st.present).map (fun n => ⟨n, body n⟩) :=
  (foldl_emitMissing id replaced (by decide) st).1

theorem mem_present_emitMissingBefore (st : Reassembly) (id n : ℕ) :
    n ∈ (emitMissingBefore body st id).present ↔ n ∈ st.present ∨ n ∈ replaced ∧ n < id :=
  (foldl_emitMissing id replaced (by decide) st).2 n

theorem ids_missing (st : Reassembly) (id : ℕ) :
    ids ((replaced.filter fun n => n < id ∧ n ∉ st.present).map (fun n => ⟨n, body n⟩)) =
      replaced.filter fun n => n < id ∧ n ∉ st.present := by
  have hid : (Section.id ∘ fun n => (⟨n, body n⟩ : Section)) = fun n => n := rfl
  rw [ids, List.map_map, hid, List.map_id', List.filter_eq_self]
  intro n hn
  have hmem := List.mem_of_mem_filter hn
  have hpos : ∀ n ∈ replaced, n ≠ 0 := by decide
  simpa using hpos n hmem

end Emission

section Order
variable {body : ℕ → List UInt8} {given : List ℕ}

/-- A missing section belongs before one of greater id, but for a tag section. -/
theorem rank_lt_of_inserted {n id : ℕ} (hn : n ∈ replaced) (hid : id ∈ canonicalOrder)
    (hlt : n < id) (h10 : n ≠ 10) (htag : id = 13 → n ≠ 6 ∧ n ≠ 7) : rank n < rank id := by
  have hall : ∀ n ∈ replaced, ∀ id ∈ canonicalOrder, n < id → n ≠ 10 →
      (id = 13 → n ≠ 6 ∧ n ≠ 7) → rank n < rank id := by decide
  exact hall n hn id hid hlt h10 htag

/-- What comes before a missing section in number comes before it in order. -/
theorem rank_lt_of_lt {n id : ℕ} (hn : n ∈ replaced) (hid : id ∈ canonicalOrder) (hlt : id < n)
    (h10 : n ≠ 10) : rank id < rank n := by
  have hall : ∀ n ∈ replaced, ∀ id ∈ canonicalOrder, id < n → n ≠ 10 → rank id < rank n := by
    decide
  exact hall n hn id hid hlt h10

theorem replaced_subset {n : ℕ} (h : n ∈ replaced) : n ∈ canonicalOrder := by
  have hall : ∀ n ∈ replaced, n ∈ canonicalOrder := by decide
  exact hall n h

/-- The state of the loop after the sections with the ids `seen`, the start section apart. -/
structure Ordered (given seen : List ℕ) (st : Reassembly) : Prop where
  present : ∀ n, n ∈ st.present ↔ n ∈ given ∨ n ∈ replaced ∧ ∃ id ∈ seen, n < id
  sorted : (ids st.outSecs).Pairwise fun a b => rank a < rank b
  source : ∀ k ∈ ids st.outSecs, k ∈ seen ∨ k ∈ replaced ∧ k ∉ given ∧ ∃ id ∈ seen, k < id

/-- The missing sections go behind all that is there. -/
theorem Ordered.emit {seen : List ℕ} {st : Reassembly} (h : Ordered given seen st)
    (h10 : 10 ∈ given) (hseen : ∀ id ∈ seen, id ∈ given ∧ id ∈ canonicalOrder) (id : ℕ) :
    (ids (emitMissingBefore body st id).outSecs).Pairwise fun a b => rank a < rank b := by
  rw [outSecs_emitMissingBefore, ids_append, ids_missing, List.pairwise_append]
  refine ⟨h.sorted, ?_, fun k hk n hn => ?_⟩
  · have hreplaced : replaced.Pairwise fun a b => rank a < rank b := by decide
    exact hreplaced.filter _
  · obtain ⟨hn, hcond⟩ := List.mem_filter.mp hn
    have hnew : n ∉ st.present := (of_decide_eq_true hcond).2
    have hfresh : n ∉ given ∧ ∀ id ∈ seen, id ≤ n := by
      rw [h.present, not_or] at hnew
      exact ⟨hnew.1, fun id hid => Nat.le_of_not_lt fun hlt => hnew.2 ⟨hn, id, hid, hlt⟩⟩
    have hne10 : n ≠ 10 := fun he => hfresh.1 (he ▸ h10)
    rcases h.source k hk with hk | ⟨hk, -, id', hid', hlt⟩
    · have hle := hfresh.2 k hk
      have hne : k ≠ n := fun he => hfresh.1 (he ▸ (hseen k hk).1)
      exact rank_lt_of_lt hn (hseen k hk).2 (by omega) hne10
    · have hle := hfresh.2 id' hid'
      exact rank_lt_of_lt hn (replaced_subset hk) (by omega) hne10

/-- No tag section, or nothing that would have to be inserted behind it. -/
def TagFits (given : List ℕ) : Prop := 13 ∉ given ∨ 6 ∈ given ∧ 7 ∈ given

/-- One section more, whose place is behind all those seen. -/
theorem Ordered.section {seen : List ℕ} {st : Reassembly} (h : Ordered given seen st)
    (h10 : 10 ∈ given) (htag : TagFits given)
    (hseen : ∀ id ∈ seen, id ∈ given ∧ id ∈ canonicalOrder) (sec : Section)
    (hzero : sec.id ≠ 0) (height : sec.id ≠ 8) (hgiven : sec.id ∈ given)
    (hknown : sec.id ∈ canonicalOrder) (hlater : ∀ id ∈ seen, rank id < rank sec.id) :
    Ordered given (seen ++ [sec.id]) (emitSection body st sec) := by
  have hlast := ids_rewritten body hzero
  have hbefore : ∀ n ∈ replaced, n ∉ given → ∀ id ∈ given, id ∈ canonicalOrder → n < id →
      rank n < rank id := by
    intro n hn hng id hid hidk hlt
    refine rank_lt_of_inserted hn hidk hlt (fun he => hng (he ▸ h10)) fun htagged => ?_
    rcases htag with htag | ⟨h6, h7⟩
    · exact absurd (htagged ▸ hid) htag
    · exact ⟨fun he => hng (he ▸ h6), fun he => hng (he ▸ h7)⟩
  have hfrom : ∀ k ∈ ids (emitMissingBefore body st sec.id).outSecs,
      k ∈ seen ∨ k ∈ replaced ∧ k ∉ given ∧ ∃ id ∈ seen ++ [sec.id], k < id := by
    intro k hk
    rw [outSecs_emitMissingBefore, ids_append, ids_missing] at hk
    rcases List.mem_append.mp hk with hk | hk
    · rcases h.source k hk with hk | ⟨hk, hkg, id, hid, hlt⟩
      · exact Or.inl hk
      · exact Or.inr ⟨hk, hkg, id, List.mem_append_left _ hid, hlt⟩
    · obtain ⟨hk, hcond⟩ := List.mem_filter.mp hk
      obtain ⟨hlt, hnew⟩ := of_decide_eq_true hcond
      rw [h.present, not_or] at hnew
      exact Or.inr ⟨hk, hnew.1, sec.id, List.mem_append_right _ List.mem_cons_self, hlt⟩
  rw [emitSection_known body st height hzero]
  refine ⟨fun n => ?_, ?_, fun k hk => ?_⟩
  · rw [mem_present_emitMissingBefore, h.present]
    simp only [List.mem_append, List.mem_singleton]
    constructor
    · rintro ((hn | ⟨hn, id, hid, hlt⟩) | ⟨hn, hlt⟩)
      · exact Or.inl hn
      · exact Or.inr ⟨hn, id, Or.inl hid, hlt⟩
      · exact Or.inr ⟨hn, sec.id, Or.inr rfl, hlt⟩
    · rintro (hn | ⟨hn, id, hid | rfl, hlt⟩)
      · exact Or.inl (Or.inl hn)
      · exact Or.inl (Or.inr ⟨hn, id, hid, hlt⟩)
      · exact Or.inr ⟨hn, hlt⟩
  · rw [ids_append, hlast, List.pairwise_append]
    refine ⟨h.emit h10 hseen sec.id, List.pairwise_singleton _ _, fun k hk id hid => ?_⟩
    obtain rfl := List.mem_singleton.mp hid
    rcases hfrom k hk with hk | ⟨hk, hkg, id', hid', hlt⟩
    · exact hlater k hk
    · rcases List.mem_append.mp hid' with hid' | hid'
      · have hrank := hbefore k hk hkg id' (hseen id' hid').1 (hseen id' hid').2 hlt
        exact hrank.trans (hlater id' hid')
      · obtain rfl := List.mem_singleton.mp hid'
        exact hbefore k hk hkg sec.id hgiven hknown hlt
  · rw [ids_append, hlast] at hk
    rcases List.mem_append.mp hk with hk | hk
    · rcases hfrom k hk with hk | hk
      · exact Or.inl (List.mem_append_left _ hk)
      · exact Or.inr hk
    · exact Or.inl (List.mem_append_right _ hk)

/-- The ids that the loop has seen, the start section apart. -/
def seenIds (secs : List Section) : List ℕ := (ids secs).filter (· ≠ 8)

theorem ordered_foldl (body : ℕ → List UInt8) (h10 : 10 ∈ given) (htag : TagFits given)
    (secs : List Section) (hcanon : Canonical secs) (hgiven : ∀ sec ∈ secs, sec.id ∈ given) :
    Ordered given (seenIds secs) (secs.foldl (emitSection body) ⟨[], given⟩) := by
  induction secs using List.reverseRecOn with
  | nil => exact ⟨by simp [seenIds, ids], List.Pairwise.nil, by simp [ids]⟩
  | append_singleton secs sec ih =>
    obtain ⟨hknown, hsorted⟩ := hcanon
    rw [ids_append] at hknown hsorted
    rw [List.pairwise_append] at hsorted
    have hprev := ih ⟨fun id hid => hknown id (List.mem_append_left _ hid), hsorted.1⟩
      fun s hs => hgiven s (List.mem_append_left _ hs)
    rw [List.foldl_append, List.foldl_cons, List.foldl_nil]
    by_cases height : sec.id = 8
    · have hseen : seenIds (secs ++ [sec]) = seenIds secs := by
        simp [seenIds, ids, height]
      rw [hseen, emitSection_start _ height]
      exact hprev
    by_cases hzero : sec.id = 0
    · have hseen : seenIds (secs ++ [sec]) = seenIds secs := by
        simp [seenIds, ids, hzero]
      rw [hseen, emitSection_custom _ hzero]
      refine ⟨hprev.present, ?_, fun k hk => hprev.source k ?_⟩
      · simpa [ids_append, ids, hzero] using hprev.sorted
      · simpa [ids_append, ids, hzero] using hk
    · have hids : ids [sec] = [sec.id] := by simp [ids, hzero]
      have hseen : seenIds (secs ++ [sec]) = seenIds secs ++ [sec.id] := by
        rw [seenIds, ids_append, List.filter_append, hids]
        simp [height, seenIds]
      rw [hids] at hknown hsorted
      have hmem : ∀ id ∈ seenIds secs, id ∈ ids secs := fun id hid => List.mem_of_mem_filter hid
      rw [hseen]
      refine hprev.section h10 htag (fun id hid => ⟨?_, ?_⟩) sec hzero height
        (hgiven sec (List.mem_append_right _ List.mem_cons_self))
        (hknown _ (List.mem_append_right _ List.mem_cons_self)) fun id hid => ?_
      · obtain ⟨s, hs, rfl⟩ := List.mem_map.mp (List.mem_of_mem_filter (hmem id hid))
        exact hgiven s (List.mem_append_left _ hs)
      · exact hknown id (List.mem_append_left _ (hmem id hid))
      · exact hsorted.2.2 id (hmem id hid) sec.id List.mem_cons_self

theorem canonical_reassemble {secs : List Section} (hcanon : Canonical secs)
    (h10 : 10 ∈ ids secs) (htag : TagFits (ids secs)) : Canonical (reassemble body secs) := by
  have hmem : ∀ id ∈ ids secs, id ∈ secs.map Section.id := fun id hid => List.mem_of_mem_filter hid
  have htag' : TagFits (secs.map Section.id) := by
    rcases htag with htag | ⟨h6, h7⟩
    · exact Or.inl fun h => htag (List.mem_filter.mpr ⟨h, by decide⟩)
    · exact Or.inr ⟨hmem 6 h6, hmem 7 h7⟩
  have hordered := ordered_foldl body (hmem 10 h10) htag' secs hcanon
    fun sec hs => List.mem_map_of_mem hs
  have hseen : ∀ id ∈ seenIds secs, id ∈ secs.map Section.id ∧ id ∈ canonicalOrder :=
    fun id hid => ⟨hmem id (List.mem_of_mem_filter hid), hcanon.1 id (List.mem_of_mem_filter hid)⟩
  refine ⟨fun k hk => ?_, hordered.emit (hmem 10 h10) hseen 11⟩
  rw [reassemble, outSecs_emitMissingBefore, ids_append, ids_missing] at hk
  rcases List.mem_append.mp hk with hk | hk
  · rcases hordered.source k hk with hk | ⟨hk, -⟩
    · exact (hseen k hk).2
    · exact replaced_subset hk
  · exact replaced_subset (List.mem_of_mem_filter hk)

end Order

section Inserted
variable {body : ℕ → List UInt8}

theorem outSecs_emitSection (body : ℕ → List UInt8) (st : Reassembly) (sec : Section) :
    ∃ more, (emitSection body st sec).outSecs = st.outSecs ++ more := by
  by_cases height : sec.id = 8
  · exact ⟨[], by rw [emitSection_start st height, List.append_nil]⟩
  by_cases hzero : sec.id = 0
  · exact ⟨[sec], by rw [emitSection_custom st hzero]⟩
  · exact ⟨_, by rw [emitSection_known body st height hzero, outSecs_emitMissingBefore,
      List.append_assoc]⟩

/-- The loop only adds to what it has. -/
theorem outSecs_foldl (body : ℕ → List UInt8) (secs : List Section) (st : Reassembly) :
    ∃ more, (secs.foldl (emitSection body) st).outSecs = st.outSecs ++ more := by
  induction secs generalizing st with
  | nil => exact ⟨[], (List.append_nil _).symm⟩
  | cons sec secs ih =>
    obtain ⟨first, hfirst⟩ := outSecs_emitSection body st sec
    obtain ⟨more, hmore⟩ := ih (emitSection body st sec)
    exact ⟨first ++ more, by rw [List.foldl_cons, hmore, hfirst, List.append_assoc]⟩

/-- What is present but was not given has been put out. -/
def Tracked (given : List ℕ) (st : Reassembly) : Prop :=
  ∀ n ∈ st.present, n ∈ given ∨ n ∈ ids st.outSecs

theorem tracked_emitMissingBefore {given : List ℕ} {st : Reassembly} (h : Tracked given st)
    (id : ℕ) : Tracked given (emitMissingBefore body st id) := by
  intro n hn
  rw [outSecs_emitMissingBefore, ids_append, ids_missing]
  by_cases hold : n ∈ st.present
  · exact (h n hold).imp_right (List.mem_append_left _)
  · have hnew := ((mem_present_emitMissingBefore st id n).mp hn).resolve_left hold
    refine Or.inr (List.mem_append_right _ (List.mem_filter.mpr ⟨hnew.1, ?_⟩))
    exact decide_eq_true ⟨hnew.2, hold⟩

theorem tracked_emitSection {given : List ℕ} {st : Reassembly} (h : Tracked given st)
    (sec : Section) : Tracked given (emitSection body st sec) := by
  have hadd : ∀ {st : Reassembly}, Tracked given st → ∀ more,
      Tracked given { st with outSecs := st.outSecs ++ more } := by
    intro st h more n hn
    rw [ids_append]
    exact (h n hn).imp_right (List.mem_append_left _)
  by_cases height : sec.id = 8
  · rwa [emitSection_start st height]
  by_cases hzero : sec.id = 0
  · rw [emitSection_custom st hzero]
    exact hadd h _
  · rw [emitSection_known body st height hzero]
    exact hadd (tracked_emitMissingBefore h sec.id) _

theorem tracked_foldl {given : List ℕ} (secs : List Section) {st : Reassembly}
    (h : Tracked given st) : Tracked given (secs.foldl (emitSection body) st) := by
  induction secs generalizing st with
  | nil => exact h
  | cons sec secs ih => exact ih (tracked_emitSection h sec)

/-- A missing global or export section is put before the tag section. -/
theorem inserted_before_tag (body : ℕ → List UInt8) {secs : List Section} {n : ℕ}
    (hn : n = 6 ∨ n = 7) (hmissing : n ∉ ids secs) (htag : 13 ∈ ids secs) :
    ∃ before after, ids (reassemble body secs) = before ++ 13 :: after ∧ n ∈ before := by
  obtain ⟨sec, hsec, hid⟩ := List.mem_map.mp (List.mem_of_mem_filter htag)
  obtain ⟨pre, post, rfl⟩ := List.append_of_mem hsec
  have hgiven : n ∉ (pre ++ sec :: post).map Section.id := fun h =>
    hmissing (List.mem_filter.mpr ⟨h, by simp; omega⟩)
  let st := pre.foldl (emitSection body) ⟨[], (pre ++ sec :: post).map Section.id⟩
  have htracked : Tracked ((pre ++ sec :: post).map Section.id) st :=
    tracked_foldl pre fun n hn => Or.inl hn
  have hstep := emitSection_known body st (show sec.id ≠ 8 by omega) (by omega)
  rw [hid] at hstep
  obtain ⟨more, hmore⟩ := outSecs_foldl body post (emitSection body st sec)
  have hin : n ∈ (emitMissingBefore body st 13).present := by
    rw [mem_present_emitMissingBefore]
    rcases hn with rfl | rfl
    · exact Or.inr (by decide)
    · exact Or.inr (by decide)
  have hout : n ∈ ids (emitMissingBefore body st 13).outSecs :=
    (tracked_emitMissingBefore htracked 13 n hin).resolve_left hgiven
  have hsecId : ids [rewritten body sec] = [13] := by rw [ids_rewritten body (by omega), hid]
  obtain ⟨tail, htail⟩ : ∃ tail, reassemble body (pre ++ sec :: post) =
      ((emitMissingBefore body st 13).outSecs ++ [rewritten body sec] ++ more) ++ tail :=
    ⟨_, by rw [reassemble, outSecs_emitMissingBefore, List.foldl_append, List.foldl_cons, hmore,
      hstep]⟩
  refine ⟨ids (emitMissingBefore body st 13).outSecs, ids more ++ ids tail, ?_, hout⟩
  rw [htail, ids_append, ids_append, ids_append, hsecId, List.append_assoc, List.append_assoc,
    List.singleton_append]

end Inserted

section ReadBack

theorem patch5_length (v : ℕ) : (patch5 v).bytes.length = 5 := by
  simp only [Leb.bytes, patch5, List.length_append, List.length_map, List.length_cons,
    List.length_nil]

/-- A digit and the digits above it. -/
theorem digit_add_rest (v k : ℕ) : v / 128 ^ k % 128 + 128 * (v / 128 ^ (k + 1)) = v / 128 ^ k := by
  rw [pow_succ, ← Nat.div_div_eq_div_mul]
  exact Nat.mod_add_div _ 128

/-- The five bytes hold every number of 32 bits. -/
theorem patch5_value {v : ℕ} (h : v < 2 ^ 32) : (patch5 v).value = v := by
  have htop : v / 128 ^ 4 < 128 := Nat.div_lt_of_lt_mul (h.trans (by decide))
  simp only [Leb.value, patch5, List.foldr_cons, List.foldr_nil, Fin.val_ofNat,
    Nat.mod_eq_of_lt h]
  rw [Nat.mod_eq_of_lt htop, digit_add_rest v 3, digit_add_rest v 2, digit_add_rest v 1,
    digit_add_rest v 0, pow_zero, Nat.div_one]

/-- Sections that can be written: an id is a byte, a size has 32 bits. -/
def Fits (secs : List Section) : Prop :=
  ∀ sec ∈ secs, sec.id < 256 ∧ sec.body.length < 2 ^ 32

instance (secs : List Section) : Decidable (Fits secs) :=
  inferInstanceAs (Decidable (∀ sec ∈ secs, sec.id < 256 ∧ sec.body.length < 2 ^ 32))

theorem sectionsFrom_write (secs : List Section) (hfits : Fits secs) (pre : List UInt8)
    (fuel : ℕ) (hfuel : secs.length ≤ fuel) :
    sectionsFrom (pre ++ secs.flatMap writeSection) fuel pre.length = secs := by
  induction secs generalizing pre fuel with
  | nil =>
    cases fuel with
    | zero => rfl
    | succ fuel => simp [sectionsFrom]
  | cons sec secs ih =>
    obtain ⟨fuel, rfl⟩ : ∃ k, fuel = k + 1 := ⟨fuel - 1, by simp at hfuel; omega⟩
    obtain ⟨hid, hlen⟩ := hfits sec List.mem_cons_self
    have hbytes : pre ++ (sec :: secs).flatMap writeSection =
        pre ++ UInt8.ofNat sec.id :: ((patch5 sec.body.length).bytes ++
          (sec.body ++ secs.flatMap writeSection)) := by
      simp [writeSection]
    have hhead : (pre ++ (sec :: secs).flatMap writeSection)[pre.length]? =
        some (UInt8.ofNat sec.id) := by
      rw [hbytes]
      simp
    have hsize : (pre ++ (sec :: secs).flatMap writeSection).drop (pre.length + 1) =
        (patch5 sec.body.length).bytes ++ (sec.body ++ secs.flatMap writeSection) := by
      rw [hbytes, List.drop_append]
      simp
    have hrest : (pre ++ (sec :: secs).flatMap writeSection).drop (pre.length + 1 + 5) =
        sec.body ++ secs.flatMap writeSection := by
      rw [← List.drop_drop, hsize, List.drop_left' (patch5_length _)]
    have hnext := ih (fun s hs => hfits s (List.mem_cons_of_mem _ hs))
      (pre ++ writeSection sec) fuel
      (by simpa using hfuel)
    rw [sectionsFrom, hhead]
    simp only [hsize, ulebAt_bytes, patch5_value hlen, patch5_length]
    rw [hrest, List.take_left' rfl, UInt8.toNat_ofNat', Nat.mod_eq_of_lt hid]
    congr 1
    have hpos : (pre ++ writeSection sec).length = pre.length + 1 + 5 + sec.body.length := by
      simp [writeSection, patch5_length]
      omega
    rw [← hpos, List.flatMap_cons, ← List.append_assoc]
    exact hnext

theorem length_le_flatMap_write (secs : List Section) :
    secs.length ≤ (secs.flatMap writeSection).length := by
  induction secs with
  | nil => exact Nat.zero_le _
  | cons sec secs ih =>
    rw [List.flatMap_cons, List.length_append, List.length_cons]
    have hpos : 0 < (writeSection sec).length := Nat.succ_pos _
    omega

/-- The sections of a written module are those that were written. -/
theorem splitSections_writeModule (secs : List Section) (hfits : Fits secs) :
    splitSections (writeModule secs) = some secs := by
  have hlength : secs.length ≤ (writeModule secs).length := by
    have hflat := length_le_flatMap_write secs
    rw [writeModule, List.length_append]
    omega
  have hmagic : (writeModule secs)[0]? = some 0 ∧ (writeModule secs)[1]? = some 0x61 :=
    ⟨rfl, rfl⟩
  rw [splitSections, if_pos hmagic]
  exact congrArg some (sectionsFrom_write secs hfits [0x00, 0x61, 0x73, 0x6d, 0x01, 0x00,
    0x00, 0x00]
    _ hlength)

theorem id_lt_sectionsFrom (bytes : List UInt8) (fuel i : ℕ) {sec : Section}
    (h : sec ∈ sectionsFrom bytes fuel i) : sec.id < 256 := by
  induction fuel generalizing i with
  | zero => simp [sectionsFrom] at h
  | succ fuel ih =>
    rw [sectionsFrom] at h
    split at h
    · simp at h
    · rename_i id _
      rcases List.mem_cons.mp h with rfl | h
      · exact id.toNat_lt
      · exact ih _ h

variable {body : ℕ → List UInt8}

theorem mem_emitMissingBefore {st : Reassembly} {id : ℕ} {sec : Section}
    (h : sec ∈ (emitMissingBefore body st id).outSecs) :
    sec ∈ st.outSecs ∨ sec.id ∈ replaced := by
  rw [outSecs_emitMissingBefore] at h
  refine (List.mem_append.mp h).imp_right fun h => ?_
  obtain ⟨n, hn, rfl⟩ := List.mem_map.mp h
  exact List.mem_of_mem_filter hn

theorem mem_emitSection {st : Reassembly} {new sec : Section}
    (h : sec ∈ (emitSection body st new).outSecs) :
    sec ∈ st.outSecs ∨ sec = new ∨ sec.id ∈ replaced := by
  by_cases height : new.id = 8
  · rw [emitSection_start st height] at h
    exact Or.inl h
  by_cases hzero : new.id = 0
  · rw [emitSection_custom st hzero] at h
    exact (List.mem_append.mp h).imp_right fun h => Or.inl (List.mem_singleton.mp h)
  · rw [emitSection_known body st height hzero] at h
    rcases List.mem_append.mp h with h | h
    · exact (mem_emitMissingBefore h).imp_right Or.inr
    · obtain rfl := List.mem_singleton.mp h
      unfold rewritten
      split_ifs with hid
      · exact Or.inr (Or.inr hid)
      · exact Or.inr (Or.inl rfl)

/-- A section put out was given, or is one of those the pass writes. -/
theorem mem_reassemble {secs : List Section} {sec : Section} (h : sec ∈ reassemble body secs) :
    sec ∈ secs ∨ sec.id ∈ replaced := by
  have hfold : ∀ (secs : List Section) (st : Reassembly),
      sec ∈ (secs.foldl (emitSection body) st).outSecs →
        sec ∈ st.outSecs ∨ sec ∈ secs ∨ sec.id ∈ replaced := by
    intro secs
    induction secs with
    | nil => exact fun _ h => Or.inl h
    | cons new secs ih =>
      intro st h
      rcases ih _ h with h | h | h
      · rcases mem_emitSection h with h | rfl | h
        · exact Or.inl h
        · exact Or.inr (Or.inl List.mem_cons_self)
        · exact Or.inr (Or.inr h)
      · exact Or.inr (Or.inl (List.mem_cons_of_mem _ h))
      · exact Or.inr (Or.inr h)
  rcases mem_emitMissingBefore h with h | h
  · exact (hfold secs _ h).resolve_left List.not_mem_nil
  · exact Or.inr h

end ReadBack

theorem canonical_outSecs_iff {pass : Pass} {secs outSecs : List Section}
    (hcanon : Canonical secs) (hout : pass.outSecs secs = some outSecs) :
    Canonical outSecs ↔ 13 ∉ ids secs ∨ 6 ∈ ids secs ∧ 7 ∈ ids secs := by
  unfold Pass.outSecs at hout
  split_ifs at hout with hcode
  rw [← Option.some.inj hout]
  constructor
  · intro hordered
    by_contra htag
    rw [not_or, not_not, not_and_or] at htag
    obtain ⟨n, hn, hmissing⟩ : ∃ n, (n = 6 ∨ n = 7) ∧ n ∉ ids secs := by
      rcases htag.2 with h | h
      · exact ⟨6, Or.inl rfl, h⟩
      · exact ⟨7, Or.inr rfl, h⟩
    obtain ⟨before, after, hids, hbefore⟩ := inserted_before_tag (pass.body secs) hn
      hmissing htag.1
    have hsorted := hordered.2
    rw [hids, List.pairwise_append] at hsorted
    have hrank := hsorted.2.2 n hbefore 13 List.mem_cons_self
    rcases hn with rfl | rfl
    · exact absurd hrank (by decide)
    · exact absurd hrank (by decide)
  · intro htag
    obtain ⟨sec, hsec, hid⟩ := List.any_eq_true.mp hcode.1
    refine canonical_reassemble hcanon (List.mem_filter.mpr ⟨?_, by decide⟩) htag
    exact List.mem_map.mpr ⟨sec, hsec, by simpa using hid⟩

/-- The instrumented module is in canonical order if and only if the given one has no tag
section, or a global and an export section besides. Its sections are read back as they
were written, as long as their sizes can be. -/
theorem canonical_instrumented_iff (pass : Pass) (bytes out : List UInt8) (secs : List Section)
    (hsplit : splitSections bytes = some secs) (hcanon : Canonical secs)
    (hout : pass.instrument bytes = some out) :
    ∃ outSecs, out = writeModule outSecs ∧
      ((∀ sec ∈ outSecs, sec.body.length < 2 ^ 32) → splitSections out = some outSecs) ∧
      (Canonical outSecs ↔ 13 ∉ ids secs ∨ 6 ∈ ids secs ∧ 7 ∈ ids secs) := by
  unfold Pass.instrument at hout
  rw [hsplit] at hout
  obtain ⟨outSecs, hsecs, hwrite⟩ := Option.bind_eq_some_iff.mp
    (show (pass.outSecs secs).bind (fun out => some (writeModule out)) = some out from hout)
  obtain rfl := Option.some.inj hwrite
  refine ⟨outSecs, rfl, fun hsizes => ?_, canonical_outSecs_iff hcanon hsecs⟩
  refine splitSections_writeModule outSecs fun sec hsec => ⟨?_, hsizes sec hsec⟩
  unfold Pass.outSecs at hsecs
  unfold splitSections at hsplit
  split_ifs at hsecs hsplit
  obtain rfl := Option.some.inj hsecs
  rcases mem_reassemble hsec with hgiven | hnew
  · rw [← Option.some.inj hsplit] at hgiven
    exact id_lt_sectionsFrom bytes _ _ hgiven
  · have hsmall : ∀ id ∈ replaced, id < 256 := by decide
    exact hsmall _ hnew

/-- A pass that refuses nothing and writes only the page table's global. -/
def pageTablePass : Pass where
  accepts := fun _ => true
  body := fun secs id =>
    if id = 6 then [1, 0x7f, 0x01, 0x41, 0x00, 0x0b]
    else ((secs.find? (·.id = id)).map Section.body).getD [0]

def plainSections : List Section := [⟨1, [1, 0x60, 0, 0]⟩, ⟨3, [1, 0]⟩, ⟨10, [1, 2, 0, 0x0b]⟩]

theorem canonical_without_tags :
    ∃ out outSecs, pageTablePass.instrument (writeModule plainSections) = some out ∧
      out = writeModule outSecs ∧ Canonical outSecs := by
  have hout : pageTablePass.instrument (writeModule plainSections) =
      some (writeModule (reassemble (pageTablePass.body plainSections) plainSections)) := by
    decide +kernel
  obtain ⟨outSecs, hwrite, -, hiff⟩ := canonical_instrumented_iff pageTablePass
    (writeModule plainSections) _ plainSections (by decide +kernel) (by decide) hout
  exact ⟨_, outSecs, hout, hwrite, hiff.mpr (Or.inl (by decide))⟩

/-- A module with a function that throws: its sections are type, function, tag and code. -/
def throwingSections : List Section :=
  [⟨1, [1, 0x60, 0, 0]⟩, ⟨3, [1, 0]⟩, ⟨13, [1, 0, 0]⟩, ⟨10, [1, 4, 0, 0x08, 0, 0x0b]⟩]

/-- The global and the export section that the pass adds end up before the tag section. -/
theorem tags_put_behind_globals :
    splitSections (writeModule throwingSections) = some throwingSections ∧
      Canonical throwingSections ∧
      ∃ outSecs, (pageTablePass.instrument (writeModule throwingSections)).bind splitSections =
          some outSecs ∧
        ids outSecs = [1, 3, 6, 7, 13, 10] ∧ ¬ Canonical outSecs := by
  refine ⟨by decide +kernel, by decide, reassemble (pageTablePass.body throwingSections)
    throwingSections, by decide +kernel, by decide, by decide⟩

end NixWasm.Softmmu
