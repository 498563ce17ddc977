import NixWasm.DynsymAssign
import NixWasm.DynsymReread

/-!
Injecting twice. The output of a run is a settled list of sections: its element segment
already holds every slot, its imports and `dylink.0` are written in their final form, and
its map of names is the only one. On a settled list a run rewrites nothing but the map,
and the map is the same unless a filter let a function in after it had passed over
another of its names.
-/
namespace NixWasm.DynsymInject

open Bytes Bytes.Reader SideModule

section Sections

variable {p q : Section → Bool} {f : List UInt8 → Option (List UInt8)} {L L' : List Section}

theorem lastSection_eq (p : Section → Bool) (L : List Section) :
    lastSection p L = (L.filter p).getLast? := by
  rw [lastSection, ← List.head?_filter, List.filter_reverse, List.head?_reverse]

theorem lastSection_cons (p : Section → Bool) (s : Section) (L : List Section) :
    lastSection p (s :: L) = (lastSection p L).or (if p s then some s else none) := by
  rw [lastSection, List.reverse_cons, List.find?_append, List.find?_singleton]
  rfl

theorem lastSection_congr (h : L.filter p = L'.filter p) : lastSection p L = lastSection p L' := by
  rw [lastSection_eq, lastSection_eq, h]

/-- Nothing is rewritten, or the last section of the kind. -/
theorem updateLast_cases (h : updateLast p f L = some L') :
    (lastSection p L = none ∧ L' = L) ∨
      ∃ pre s post body, L = pre ++ s :: post ∧ L' = pre ++ { s with body := body } :: post ∧
        p s = true ∧ lastSection p post = none ∧ f s.body = some body := by
  induction L generalizing L' with
  | nil =>
    cases h
    exact .inl ⟨rfl, rfl⟩
  | cons s L ih =>
    rw [updateLast] at h
    split at h
    · rename_i hlast
      obtain ⟨body, hbody, h⟩ := Option.bind_eq_some_iff.mp h
      cases h
      have hnone : lastSection p L = none := by
        simpa [lastSection] using hlast.2
      exact .inr ⟨[], s, L, body, rfl, rfl, hlast.1, hnone, hbody⟩
    · rename_i hlast
      obtain ⟨rest, hrest, h⟩ := Option.bind_eq_some_iff.mp h
      cases h
      rcases ih hrest with ⟨hnone, rfl⟩ | ⟨pre, t, post, body, rfl, rfl, ht, hpost, hbody⟩
      · have hs : ¬ p s = true := by
          intro hs
          exact hlast ⟨hs, by simpa [lastSection] using hnone⟩
        refine .inl ⟨?_, rfl⟩
        rw [lastSection_cons, hnone, if_neg hs]
        rfl
      · exact .inr ⟨s :: pre, t, post, body, rfl, rfl, ht, hpost, hbody⟩

/-- Sections of another kind stay. -/
theorem updateLast_filter (h : updateLast p f L = some L')
    (hother : ∀ s body, p s = true → f s.body = some body →
      q s = false ∧ q { s with body := body } = false) : L'.filter q = L.filter q := by
  rcases updateLast_cases h with ⟨-, rfl⟩ | ⟨pre, s, post, body, rfl, rfl, hs, -, hbody⟩
  · rfl
  · obtain ⟨hold, hnew⟩ := hother s body hs hbody
    simp [List.filter_append, hold, hnew]

/-- The last section of the kind is the rewritten one. -/
theorem updateLast_last (h : updateLast p f L = some L')
    (hkind : ∀ s body, p s = true → f s.body = some body → p { s with body := body } = true) :
    (lastSection p L = none ∧ lastSection p L' = none) ∨
      ∃ s body, lastSection p L = some s ∧ f s.body = some body ∧
        lastSection p L' = some { s with body := body } := by
  rcases updateLast_cases h with ⟨hnone, rfl⟩ | ⟨pre, s, post, body, rfl, rfl, hs, hpost, hbody⟩
  · exact .inl ⟨hnone, hnone⟩
  · have hpost' : post.filter p = [] := by
      rw [lastSection_eq] at hpost
      simpa using hpost
    refine .inr ⟨s, body, ?_, hbody, ?_⟩
    · rw [lastSection_eq]
      simp [List.filter_append, hs, hpost']
    · rw [lastSection_eq]
      simp [List.filter_append, hkind s body hs hbody, hpost']

/-- What every section has keeps, when the rewritten one has it. -/
theorem updateLast_all (h : updateLast p f L = some L') (hall : ∀ s ∈ L, q s = true)
    (hnew : ∀ s body, p s = true → f s.body = some body → q s = true →
      q { s with body := body } = true) : ∀ s ∈ L', q s = true := by
  rcases updateLast_cases h with ⟨-, rfl⟩ | ⟨pre, s, post, body, rfl, rfl, hs, -, hbody⟩
  · exact hall
  · intro t ht
    rcases List.mem_append.mp ht with hpre | htail
    · exact hall t (List.mem_append_left _ hpre)
    · rcases List.mem_cons.mp htail with rfl | hpost
      · exact hnew s body hs hbody (hall s (by simp))
      · exact hall t (by simp [hpost])

/-- A last section that is rewritten to itself leaves the list as it is. -/
theorem updateLast_self (h : ∀ s, lastSection p L = some s → f s.body = some s.body) :
    updateLast p f L = some L := by
  induction L with
  | nil => rfl
  | cons s L ih =>
    rw [lastSection_cons] at h
    rw [updateLast]
    split
    · rename_i hlast
      have hnone : lastSection p L = none := by simpa [lastSection] using hlast.2
      have hbody := h s (by rw [hnone, if_pos hlast.1]; rfl)
      rw [hbody]
      rfl
    · rename_i hlast
      have hrest : updateLast p f L = some L := by
        apply ih
        intro t ht
        exact h t (by rw [ht]; rfl)
      rw [hrest]
      rfl

/-- The new element section stands somewhere in the list. -/
theorem insertElem_split (elem : Section) (L : List Section) :
    ∃ pre post, L = pre ++ post ∧ insertElem elem L = pre ++ elem :: post := by
  induction L with
  | nil => exact ⟨[], [], rfl, rfl⟩
  | cons s L ih =>
    rw [insertElem]
    split
    · exact ⟨[], s :: L, rfl, rfl⟩
    · obtain ⟨pre, post, hL, hinsert⟩ := ih
      exact ⟨s :: pre, post, by rw [hL, List.cons_append], by rw [hinsert, List.cons_append]⟩

theorem exportedFuncs_filter (L : List Section) :
    exportedFuncs L = exportedFuncs (L.filter fun s => s.id = secExport) := by
  induction L with
  | nil => rfl
  | cons s L ih =>
    by_cases hid : s.id = secExport
    · rw [List.filter_cons_of_pos (by simpa using hid), exportedFuncs, exportedFuncs, if_pos hid,
        if_pos hid, ih]
    · rw [List.filter_cons_of_neg (by simpa using hid), exportedFuncs, if_neg hid, ih]

end Sections

section Entries

variable {only : Option (Str → Bool)} {funcs : List ℕ} {exported : List (Str × ℕ)}

/-- An entry for every export of a function that has a slot. -/
def slotEntries (all : List ℕ) (exported : List (Str × ℕ)) : List (Str × ℕ) :=
  exported.filterMap fun e => (all.findIdx? (· = e.2)).map fun slot => (e.1, slot)

/-- The function has a slot by the time the name is met: from the segment, or from the
name itself or an earlier one that passes the filter. -/
def InTime (only : Option (Str → Bool)) (funcs : List ℕ) (before : List (Str × ℕ))
    (e : Str × ℕ) : Prop :=
  e.2 ∈ funcs ∨ ∃ e' ∈ before ++ [e], e'.2 = e.2 ∧ Passes only e'.1

/-- The filter passes over no name of a function that a later name brings in. -/
def NoLateSlot (only : Option (Str → Bool)) (funcs : List ℕ) (exported : List (Str × ℕ)) : Prop :=
  ∀ before e after, exported = before ++ e :: after →
    (∃ e' ∈ exported, e'.2 = e.2 ∧ Passes only e'.1) → InTime only funcs before e

theorem noLateSlot_none (funcs : List ℕ) (exported : List (Str × ℕ)) :
    NoLateSlot none funcs exported := by
  intro before e after _ _
  exact .inr ⟨e, by simp, rfl, rfl⟩

theorem slotEntries_append (all : List ℕ) (xs ys : List (Str × ℕ)) :
    slotEntries all (xs ++ ys) = slotEntries all xs ++ slotEntries all ys :=
  List.filterMap_append

theorem slotEntries_singleton {all : List ℕ} {e : Str × ℕ} {slot : ℕ}
    (h : all.findIdx? (· = e.2) = some slot) : slotEntries all [e] = [(e.1, slot)] := by
  simp [slotEntries, h]

theorem slotEntries_of_not_mem {all : List ℕ} {e : Str × ℕ} (h : e.2 ∉ all) :
    slotEntries all [e] = [] := by
  have hnone : all.findIdx? (· = e.2) = none := by
    rw [List.findIdx?_eq_none_iff]
    intro x hx
    simp only [decide_eq_false_iff_not]
    exact fun heq => h (heq ▸ hx)
  simp [slotEntries, hnone]

theorem mem_of_findIdx? {l : List ℕ} {j slot : ℕ} (h : l.findIdx? (· = j) = some slot) :
    j ∈ l := by
  obtain ⟨hlt, hval, -⟩ := List.findIdx?_eq_some_iff_getElem.mp h
  exact (by simpa using hval : l[slot] = j) ▸ List.getElem_mem hlt

theorem not_mem_of_findIdx? {l : List ℕ} {j : ℕ} (h : l.findIdx? (· = j) = none) : j ∉ l := by
  intro hmem
  have hno := List.findIdx?_eq_none_iff.mp h j hmem
  simp at hno

theorem assign_snoc (only : Option (Str → Bool)) (funcs : List ℕ) (seen : List (Str × ℕ))
    (x : Str × ℕ) : assign only funcs (seen ++ [x]) =
      assignOne only funcs.length (assign only funcs seen) x := by
  simp [assign, List.foldl_append]

/-- What one more export does. -/
inductive Met (only : Option (Str → Bool)) (funcs : List ℕ) (x : Str × ℕ) (a : Assignment) :
    Assignment → Prop where
  | known (slot : ℕ) (found : (funcs ++ a.added).findIdx? (· = x.2) = some slot) :
      Met only funcs x a { a with dynsym := a.dynsym ++ [(x.1, slot)] }
  | appended (fresh : x.2 ∉ funcs ++ a.added) (pass : Passes only x.1) :
      Met only funcs x a
        { slotOf := a.slotOf.set x.2 (funcs.length + a.added.length)
          added := a.added ++ [x.2]
          dynsym := a.dynsym ++ [(x.1, funcs.length + a.added.length)] }
  | skipped (fresh : x.2 ∉ funcs ++ a.added) (pass : ¬ Passes only x.1) : Met only funcs x a a

theorem met_snoc (only : Option (Str → Bool)) (funcs : List ℕ) (seen : List (Str × ℕ))
    (x : Str × ℕ) :
    Met only funcs x (assign only funcs seen) (assign only funcs (seen ++ [x])) := by
  rw [assign_snoc]
  unfold assignOne
  rw [(assigned_assign only funcs seen).slots x.2]
  cases hfind : (funcs ++ (assign only funcs seen).added).findIdx? (· = x.2) with
  | some slot => exact .known slot hfind
  | none =>
    have hfresh := not_mem_of_findIdx? hfind
    dsimp only
    split
    · rename_i hpass
      exact .appended hfresh hpass
    · rename_i hpass
      exact .skipped hfresh hpass

/-- With every slot in the segment, a run adds none. -/
theorem assign_covered (h : ∀ e ∈ exported, Passes only e.1 → e.2 ∈ funcs) :
    assign only funcs exported = ⟨initialSlots funcs, [], slotEntries funcs exported⟩ := by
  induction exported using List.reverseRecOn with
  | nil => rfl
  | append_singleton exported x ih =>
    rw [assign_snoc, ih fun e he => h e (List.mem_append_left _ he), slotEntries_append]
    unfold assignOne
    dsimp only
    rw [initialSlots_get]
    cases hfind : funcs.findIdx? (· = x.2) with
    | some slot => rw [slotEntries_singleton hfind]
    | none =>
      have hnot := not_mem_of_findIdx? hfind
      have hpass : ¬ Passes only x.1 := fun hpass => hnot (h x (by simp) hpass)
      rw [slotEntries_of_not_mem hnot, List.append_nil]
      exact if_neg hpass

/-- Slots are only added behind the ones there are. -/
theorem added_append (only : Option (Str → Bool)) (funcs : List ℕ) (seen rest : List (Str × ℕ)) :
    (assign only funcs seen).added <+: (assign only funcs (seen ++ rest)).added := by
  induction rest using List.reverseRecOn with
  | nil => simp
  | append_singleton rest x ih =>
    refine ih.trans ?_
    have hmet := met_snoc only funcs (seen ++ rest) x
    rw [← List.append_assoc]
    generalize assign only funcs (seen ++ rest ++ [x]) = b at hmet ⊢
    cases hmet with
    | known slot found => exact List.prefix_rfl
    | appended fresh pass => exact List.prefix_append _ _
    | skipped fresh pass => exact List.prefix_rfl

/-- The position of an entry stays when the list grows behind it. -/
theorem findIdx?_of_append_left {l all : List ℕ} (h : l <+: all) {j slot : ℕ}
    (hfind : l.findIdx? (· = j) = some slot) : all.findIdx? (· = j) = some slot := by
  obtain ⟨more, rfl⟩ := h
  rw [List.findIdx?_append, hfind]
  rfl

/-- The places in a list with one more element are the old ones and the new one. -/
theorem forall_places_snoc {α : Type} {P : List α → α → Prop} {l : List α} {x : α} :
    (∀ before e after, l ++ [x] = before ++ e :: after → P before e) ↔
      (∀ before e after, l = before ++ e :: after → P before e) ∧ P l x := by
  constructor
  · intro h
    refine ⟨fun before e after hl => h before e (after ++ [x]) (by simp [hl]), h l x [] rfl⟩
  · rintro ⟨hold, hnew⟩ before e after hsplit
    rcases snoc_eq_append_cons hsplit with ⟨rfl, rfl⟩ | ⟨after', hl⟩
    · exact hnew
    · exact hold before e after' hl

/-- An export that gets its entry in both runs. -/
theorem entry_both {d entries : List (Str × ℕ)} {all : List ℕ} {x : Str × ℕ} {slot : ℕ} {P : Prop}
    (hslot : all.findIdx? (· = x.2) = some slot) (hP : P) (hsub : d.Sublist entries) :
    (d ++ [(x.1, slot)]).Sublist (entries ++ slotEntries all [x]) ∧
      (d ++ [(x.1, slot)] = entries ++ slotEntries all [x] ↔ d = entries ∧ P) := by
  rw [slotEntries_singleton hslot, List.append_left_inj, and_iff_left hP]
  exact ⟨hsub.append (List.Sublist.refl _), Iff.rfl⟩

/-- The exports met so far, against the slots of the whole run. -/
theorem dynsym_seen (only : Option (Str → Bool)) (funcs : List ℕ) (seen rest : List (Str × ℕ))
    {all : List ℕ}
    (hall : all = funcs ++ (assign only funcs (seen ++ rest)).added) :
    (assign only funcs seen).dynsym.Sublist (slotEntries all seen) ∧
      ((assign only funcs seen).dynsym = slotEntries all seen ↔
        ∀ before e after, seen = before ++ e :: after → e.2 ∈ all →
          InTime only funcs before e) := by
  induction seen using List.reverseRecOn generalizing rest with
  | nil => simp [assign, slotEntries]
  | append_singleton seen x ih =>
    obtain ⟨hsub, hiff⟩ := ih (x :: rest) (by rw [hall, List.append_assoc]; rfl)
    have hseen := assigned_assign only funcs seen
    have hnext := assigned_assign only funcs (seen ++ [x])
    have hgrown : funcs ++ (assign only funcs (seen ++ [x])).added <+: all := by
      rw [hall]
      exact (List.prefix_append_right_inj funcs).mpr (added_append only funcs (seen ++ [x]) rest)
    rw [forall_places_snoc, ← hiff, slotEntries_append]
    have hmet := met_snoc only funcs seen x
    generalize assign only funcs (seen ++ [x]) = b at hmet hnext hgrown ⊢
    cases hmet with
    | known slot found =>
      refine entry_both (findIdx?_of_append_left hgrown found) (fun _ => ?_) hsub
      rcases List.mem_append.mp (mem_of_findIdx? found) with hin | hin
      · exact .inl hin
      · obtain ⟨e, he, heq, hpass⟩ := (hseen.fresh x.2 hin).2
        exact .inr ⟨e, List.mem_append_left _ he, heq, hpass⟩
    | appended fresh pass =>
      refine entry_both (findIdx?_of_append_left hgrown ?_)
        (fun _ => .inr ⟨x, by simp, rfl, pass⟩) hsub
      rw [← List.append_assoc, findIdx?_append_self fresh, if_pos rfl, List.length_append]
    | skipped fresh pass =>
      have hnever : ¬ InTime only funcs seen x := by
        rintro (hin | ⟨e', he', heq, hpass'⟩)
        · exact fresh (List.mem_append_left _ hin)
        · exact fresh (heq ▸ hnext.covered e' he' hpass')
      by_cases hin : x.2 ∈ all
      · obtain ⟨slot, hslot⟩ : ∃ slot, all.findIdx? (· = x.2) = some slot := by
          cases hfind : all.findIdx? (· = x.2) with
          | some slot => exact ⟨slot, rfl⟩
          | none => exact absurd hin (not_mem_of_findIdx? hfind)
        rw [slotEntries_singleton hslot]
        refine ⟨hsub.trans (List.sublist_append_left _ _), iff_of_false ?_ ?_⟩
        · -- the second run has an entry more
          intro heq
          have hlen := hsub.length_le
          rw [heq, List.length_append, List.length_singleton] at hlen
          omega
        · exact fun h => hnever (h.2 hin)
      · rw [slotEntries_of_not_mem hin, List.append_nil]
        exact ⟨hsub, (and_iff_left fun h => absurd h hin).symm⟩

theorem dynsym_sublist : (assign only funcs exported).dynsym.Sublist
    (slotEntries (funcs ++ (assign only funcs exported).added) exported) := by
  have h := (dynsym_seen only funcs exported [] rfl).1
  rwa [List.append_nil] at h

/-- The same entries come out of a second run in one case only. -/
theorem dynsym_eq_iff : (assign only funcs exported).dynsym =
    slotEntries (funcs ++ (assign only funcs exported).added) exported ↔
      NoLateSlot only funcs exported := by
  have ha := assigned_assign only funcs exported
  have h := (dynsym_seen only funcs exported [] rfl).2
  rw [List.append_nil] at h
  rw [h]
  have hmem : ∀ j, (∃ e' ∈ exported, e'.2 = j ∧ Passes only e'.1) →
      j ∈ funcs ++ (assign only funcs exported).added := by
    rintro j ⟨e', he', rfl, hpass⟩
    exact ha.covered e' he' hpass
  constructor
  · intro hall before e after hsplit hslot
    exact hall before e after hsplit (hmem e.2 hslot)
  · intro hlate before e after hsplit hin
    rcases List.mem_append.mp hin with hold | hnew
    · exact .inl hold
    · exact hlate before e after hsplit (ha.fresh e.2 hnew).2

end Entries

section Settling

variable {only : Option (Str → Bool)} {exported : List (Str × ℕ)} {seg : ElemSegment}
  {S L out : List Section}

theorem lastSection_some {p : Section → Bool} {s : Section} (h : lastSection p L = some s) :
    s ∈ L ∧ p s = true :=
  ⟨List.mem_reverse.mp (List.mem_of_find?_eq_some h), List.find?_some h⟩

theorem lastSection_ne_none {p : Section → Bool} :
    lastSection p L ≠ none ↔ L.any p = true := by
  simp [lastSection]

/-- Placing the element section leaves the sections of other kinds. -/
theorem placeElem_filter {present : Bool} {body : List UInt8} {q : Section → Bool}
    (h : placeElem present body S = some L) (hother : ∀ s, s.id = secElem → q s = false) :
    L.filter q = S.filter q := by
  unfold placeElem at h
  split at h
  · refine updateLast_filter h fun s _ hs _ => ?_
    have hid : s.id = secElem := by simpa using hs
    exact ⟨hother s hid, hother _ hid⟩
  · cases h
    obtain ⟨pre, post, rfl, hinsert⟩ := insertElem_split ⟨secElem, body⟩ S
    rw [hinsert]
    simp [List.filter_append, hother]

theorem placeElem_last {body : List UInt8}
    (h : placeElem (S.any fun s => s.id = secElem) body S = some L) :
    lastSection (fun s => s.id = secElem) L = some ⟨secElem, body⟩ := by
  unfold placeElem at h
  split at h
  · rename_i hpresent
    rcases updateLast_last h (fun s body hs _ => hs) with ⟨hnone, -⟩ | ⟨s, body', hs, hbody, hlast⟩
    · exact absurd hnone (lastSection_ne_none.mpr hpresent)
    · cases hbody
      have hid : s.id = secElem := by simpa using (lastSection_some hs).2
      rw [hlast, hid]
  · rename_i habsent
    cases h
    obtain ⟨pre, post, rfl, hinsert⟩ := insertElem_split ⟨secElem, body⟩ S
    have hnone : (pre ++ post).filter (fun s => s.id = secElem) = [] := by
      simpa [List.filter_eq_nil_iff] using habsent
    rw [List.filter_append, List.append_eq_nil_iff] at hnone
    rw [hinsert, lastSection_eq, List.filter_append, hnone.1,
      List.filter_cons_of_pos (by simp), hnone.2]
    rfl

theorem placeElem_all {present : Bool} {body : List UInt8} {q : Section → Bool}
    (h : placeElem present body S = some L) (hall : ∀ s ∈ S, q s = true)
    (helem : ∀ s, s.id = secElem → q s = true) : ∀ s ∈ L, q s = true := by
  unfold placeElem at h
  split at h
  · refine updateLast_all h hall fun s _ hs _ _ => helem _ ?_
    simpa using hs
  · cases h
    obtain ⟨pre, post, rfl, hinsert⟩ := insertElem_split ⟨secElem, body⟩ S
    rw [hinsert]
    intro s hs
    rcases List.mem_append.mp hs with hpre | htail
    · exact hall s (List.mem_append_left _ hpre)
    · rcases List.mem_cons.mp htail with rfl | hpost
      · exact helem _ rfl
      · exact hall s (List.mem_append_right _ hpost)

/-- A section that is not custom, or one with a name. -/
def named (s : Section) : Bool := s.id ≠ secCustom ∨ (customName s).isSome

/-- Sections on which a run has nothing left to rewrite but the map of names: the element
segment is `seg`, in its final form. -/
structure Settled (exported : List (Str × ℕ)) (seg : ElemSegment) (L : List Section) : Prop where
  names : ∀ s ∈ L, named s = true
  dylink : L.any (isCustom (literal "dylink.0")) = true
  exports : exportedFuncs L = some exported
  readable : seg.Readable
  segment : lastSection (fun s => s.id = secElem) L = some ⟨secElem, elemBody seg []⟩
  imports : ∀ s, lastSection (fun s => s.id = secImport) L = some s →
    bumpImports 0 s.body = some s.body
  memInfo : ∀ s, lastSection (isCustom (literal "dylink.0")) L = some s →
    bumpDylink 0 s.body = some s.body

theorem Settled.readSegment_eq (h : Settled exported seg L) : readSegment L = some seg := by
  have helem := readElem_elemBody h.readable []
  rw [List.append_nil] at helem
  unfold readSegment
  rw [h.segment]
  simp only [helem]
  rfl

/-- A run on settled sections. -/
theorem Settled.rebuild_eq (h : Settled exported seg L)
    (hcovered : ∀ e ∈ exported, Passes only e.1 → e.2 ∈ seg.funcs) :
    rebuild only L = some (L.filter (fun s => ¬ isCustom (literal "cb.dynsym") s) ++
      [dynsymSection (slotEntries seg.funcs exported)]) := by
  have hpresent : (L.any fun s => s.id = secElem) = true := by
    rw [← lastSection_ne_none, h.segment]
    exact Option.some_ne_none _
  have hplace : placeElem true (elemBody seg []) L = some L := by
    refine updateLast_self fun s hs => ?_
    rw [h.segment] at hs
    cases hs
    rfl
  have hnames : (L.all fun s => s.id ≠ secCustom ∨ (customName s).isSome) = true :=
    List.all_eq_true.mpr h.names
  unfold rebuild
  rw [if_neg (not_not.mpr hnames), if_neg (not_not.mpr h.dylink), h.exports, h.readSegment_eq]
  simp only [Option.bind_eq_bind, Option.bind_some, assign_covered hcovered, hpresent, hplace,
    List.length_nil, updateLast_self h.imports, updateLast_self h.memInfo]
  rfl

theorem customName_dynsym (dynsym : List (Str × ℕ)) :
    customName (dynsymSection dynsym) = some (literal "cb.dynsym") := by
  have hname := customName_append dynsymName secCustom
    (writeUleb dynsym.length ++ dynsym.flatMap dynsymEntry)
  rw [Name.bytes, List.append_assoc] at hname
  exact hname

theorem isCustom_dynsym_not_dylink {s : Section} (h : isCustom (literal "dylink.0") s = true) :
    isCustom (literal "cb.dynsym") s = false := by
  simp only [isCustom, decide_eq_true_eq, decide_eq_false_iff_not] at h ⊢
  rw [h.2]
  exact fun hboth => absurd hboth.2 (by decide)

/-- The kinds that are kept when the map is replaced. -/
theorem filter_output (dynsym : List (Str × ℕ)) {q : Section → Bool}
    (hdynsym : ∀ s, isCustom (literal "cb.dynsym") s = true → q s = false) :
    (L.filter (fun s => ¬ isCustom (literal "cb.dynsym") s) ++ [dynsymSection dynsym]).filter q =
      L.filter q := by
  have hmap : q (dynsymSection dynsym) = false := by
    apply hdynsym
    exact decide_eq_true ⟨rfl, customName_dynsym dynsym⟩
  rw [List.filter_append, List.filter_cons_of_neg (by simp [hmap]), List.filter_nil,
    List.append_nil, List.filter_filter]
  apply List.filter_congr
  intro s _
  cases hs : isCustom (literal "cb.dynsym") s with
  | false => simp
  | true => simp [hdynsym s hs]

/-- Settled sections stay settled under a new map. -/
theorem Settled.output (h : Settled exported seg L) (dynsym : List (Str × ℕ)) :
    Settled exported seg (L.filter (fun s => ¬ isCustom (literal "cb.dynsym") s) ++
      [dynsymSection dynsym]) := by
  have hnumbered : ∀ id : UInt8, id ≠ secCustom → ∀ s : Section,
      isCustom (literal "cb.dynsym") s = true → decide (s.id = id) = false := by
    intro id hid s hs
    simp only [isCustom, decide_eq_true_eq] at hs
    rw [hs.1]
    exact decide_eq_false (Ne.symm hid)
  have hdylink : ∀ s : Section, isCustom (literal "cb.dynsym") s = true →
      isCustom (literal "dylink.0") s = false := by
    intro s hs
    by_contra hboth
    have hno := isCustom_dynsym_not_dylink (by simpa using hboth)
    rw [hs] at hno
    cases hno
  refine ⟨?_, ?_, ?_, h.readable, ?_, ?_, ?_⟩
  · intro s hs
    rcases List.mem_append.mp hs with hkept | hnew
    · exact h.names s (List.mem_of_mem_filter hkept)
    · rw [List.mem_singleton.mp hnew]
      simp [named, customName_dynsym]
  · rw [← lastSection_ne_none, lastSection_congr (filter_output dynsym hdylink),
      lastSection_ne_none]
    exact h.dylink
  · rw [exportedFuncs_filter, filter_output dynsym (hnumbered secExport (by decide)),
      ← exportedFuncs_filter]
    exact h.exports
  · rw [lastSection_congr (filter_output dynsym (hnumbered secElem (by decide)))]
    exact h.segment
  · rw [lastSection_congr (filter_output dynsym (hnumbered secImport (by decide)))]
    exact h.imports
  · rw [lastSection_congr (filter_output dynsym hdylink)]
    exact h.memInfo

/-- Every run ends in settled sections. -/
theorem rebuild_settles (h : rebuild only S = some out) :
    ∃ exported seg L, exportedFuncs S = some exported ∧ readSegment S = some seg ∧
      Settled exported ⟨seg.offsetExpr, seg.funcs ++ (assign only seg.funcs exported).added⟩ L ∧
      out = L.filter (fun s => ¬ isCustom (literal "cb.dynsym") s) ++
        [dynsymSection (assign only seg.funcs exported).dynsym] := by
  unfold rebuild at h
  split at h
  · cases h
  rename_i hnames
  split at h
  · cases h
  rename_i hdylink
  obtain ⟨exported, hexported, h⟩ := Option.bind_eq_some_iff.mp h
  obtain ⟨seg, hseg, h⟩ := Option.bind_eq_some_iff.mp h
  dsimp only at h
  obtain ⟨L₁, hplace, h⟩ := Option.bind_eq_some_iff.mp h
  obtain ⟨L₂, himports, h⟩ := Option.bind_eq_some_iff.mp h
  obtain ⟨L₃, hmem, h⟩ := Option.bind_eq_some_iff.mp h
  refine ⟨exported, seg, L₃, hexported, hseg, ?_, by simpa using h.symm⟩
  have hcustom : ∀ s : Section, isCustom (literal "dylink.0") s = true → s.id = secCustom := by
    intro s hs
    exact (of_decide_eq_true hs).1
  have hdylinkKind : ∀ s body, isCustom (literal "dylink.0") s = true →
      bumpDylink (assign only seg.funcs exported).added.length s.body = some body →
        customName { s with body := body } = customName s := by
    intro s body _ hbody
    exact (bumpDylink_again hbody).2
  have hdylinkKept : ∀ s body, isCustom (literal "dylink.0") s = true →
      bumpDylink (assign only seg.funcs exported).added.length s.body = some body →
        isCustom (literal "dylink.0") { s with body := body } = true := by
    intro s body hs hbody
    exact decide_eq_true ⟨hcustom s hs, (hdylinkKind s body hs hbody).trans
      (of_decide_eq_true hs).2⟩
  -- what each of the three rewrites leaves of the kinds it is not about
  have hplaced : ∀ q : Section → Bool, (∀ s, s.id = secElem → q s = false) →
      L₁.filter q = S.filter q := fun q => placeElem_filter hplace
  have himported : ∀ q : Section → Bool, (∀ s, s.id = secImport → q s = false) →
      L₂.filter q = L₁.filter q := by
    intro q hq
    refine updateLast_filter himports fun s body hs _ => ?_
    have hid : s.id = secImport := of_decide_eq_true hs
    exact ⟨hq s hid, hq _ hid⟩
  have hlinked : ∀ q : Section → Bool, (∀ s, s.id = secCustom → q s = false) →
      L₃.filter q = L₂.filter q := by
    intro q hq
    refine updateLast_filter hmem fun s body hs _ => ?_
    exact ⟨hq s (hcustom s hs), hq _ (hcustom s hs)⟩
  have hids : ∀ id id' : UInt8, id' ≠ id → ∀ s : Section, s.id = id' →
      decide (s.id = id) = false := by
    intro id id' hne s hs
    exact decide_eq_false (hs ▸ hne)
  have hnotDylink : ∀ id : UInt8, id ≠ secCustom → ∀ s : Section, s.id = id →
      isCustom (literal "dylink.0") s = false := by
    intro id hne s hs
    exact decide_eq_false fun hboth => hne (hs ▸ hboth.1)
  have hreadable : seg.Readable := readSegment_readable hseg
  refine ⟨?_, ?_, ?_, hreadable, ?_, ?_, ?_⟩
  · have hall₁ : ∀ s ∈ L₁, named s = true := by
      refine placeElem_all hplace (List.all_eq_true.mp (not_not.mp hnames)) fun s hs => ?_
      exact decide_eq_true (.inl (by rw [hs]; decide))
    have hall₂ : ∀ s ∈ L₂, named s = true := by
      refine updateLast_all himports hall₁ fun s body hs _ _ => decide_eq_true (.inl ?_)
      rw [show s.id = secImport from of_decide_eq_true hs]
      decide
    refine updateLast_all hmem hall₂ fun s body hs hbody hold => decide_eq_true (.inr ?_)
    rw [hdylinkKind s body hs hbody, (of_decide_eq_true hs).2]
    rfl
  · rw [← lastSection_ne_none]
    have hpresent : lastSection (isCustom (literal "dylink.0")) L₂ ≠ none := by
      rw [lastSection_congr (himported _ (hnotDylink secImport (by decide))),
        lastSection_congr (hplaced _ (hnotDylink secElem (by decide))), lastSection_ne_none]
      exact not_not.mp hdylink
    rcases updateLast_last hmem hdylinkKept with ⟨hnone, -⟩ | ⟨s, body, -, -, hlast⟩
    · exact absurd hnone hpresent
    · rw [hlast]
      exact Option.some_ne_none _
  · rw [exportedFuncs_filter, hlinked _ (hids secExport secCustom (by decide)),
      himported _ (hids secExport secImport (by decide)),
      hplaced _ (hids secExport secElem (by decide)), ← exportedFuncs_filter]
    exact hexported
  · rw [elemBody_again, lastSection_congr (hlinked _ (hids secElem secCustom (by decide))),
      lastSection_congr (himported _ (hids secElem secImport (by decide)))]
    exact placeElem_last hplace
  · rw [lastSection_congr (hlinked _ (hids secImport secCustom (by decide)))]
    intro s hs
    rcases updateLast_last himports (fun s body hs _ => hs) with
      ⟨-, hnone⟩ | ⟨t, body, -, hbody, hlast⟩
    · rw [hnone] at hs
      cases hs
    · rw [hlast] at hs
      cases hs
      exact bumpImports_again hbody
  · intro s hs
    rcases updateLast_last hmem hdylinkKept with ⟨-, hnone⟩ | ⟨t, body, -, hbody, hlast⟩
    · rw [hnone] at hs
      cases hs
    · rw [hlast] at hs
      cases hs
      exact (bumpDylink_again hbody).1

/-- A map with fewer entries is another section. -/
theorem dynsymSection_inj {d d' : List (Str × ℕ)} (hsub : d.Sublist d')
    (h : dynsymSection d = dynsymSection d') : d = d' := by
  apply hsub.eq_of_length
  have hbody := congrArg Section.body h
  simp only [dynsymSection, List.append_cancel_left_eq] at hbody
  have hleft := reads_writeUleb d.length (d.flatMap dynsymEntry)
  rw [hbody, reads_writeUleb] at hleft
  exact (congrArg Prod.fst (Option.some.inj hleft)).symm

/-- A second run changes the map only. -/
theorem rebuild_again (h : rebuild only S = some out) :
    ∃ exported seg, exportedFuncs S = some exported ∧ readSegment S = some seg ∧
      (rebuild only out = some out ↔ NoLateSlot only seg.funcs exported) ∧
      Settled exported ⟨seg.offsetExpr, seg.funcs ++ (assign only seg.funcs exported).added⟩ out ∧
      (out.filter (isCustom (literal "cb.dynsym"))).length = 1 := by
  obtain ⟨exported, seg, L, hexported, hseg, hsettled, rfl⟩ := rebuild_settles h
  have ha := assigned_assign only seg.funcs exported
  have hout := hsettled.output (assign only seg.funcs exported).dynsym
  have hagain := hout.rebuild_eq ha.covered
  have hmap : isCustom (literal "cb.dynsym")
      (dynsymSection (assign only seg.funcs exported).dynsym) = true :=
    decide_eq_true ⟨rfl, customName_dynsym _⟩
  have hkept : ∀ s ∈ L.filter (fun s => ¬ isCustom (literal "cb.dynsym") s),
      isCustom (literal "cb.dynsym") s = false := by
    intro s hs
    simpa using (List.mem_filter.mp hs).2
  refine ⟨exported, seg, hexported, hseg, ?_, hout, ?_⟩
  · have hsame : (L.filter (fun s => ¬ isCustom (literal "cb.dynsym") s) ++
        [dynsymSection (assign only seg.funcs exported).dynsym]).filter
          (fun s => ¬ isCustom (literal "cb.dynsym") s) =
        L.filter (fun s => ¬ isCustom (literal "cb.dynsym") s) := by
      rw [List.filter_append, List.filter_cons_of_neg (by simp [hmap]), List.filter_nil,
        List.append_nil]
      exact List.filter_eq_self.mpr fun s hs => by simpa using hkept s hs
    rw [hagain, hsame, ← dynsym_eq_iff, Option.some_inj, List.append_cancel_left_eq]
    constructor
    · intro heq
      exact dynsymSection_inj dynsym_sublist (List.singleton_inj.mp heq.symm)
    · intro heq
      rw [heq]
  · rw [List.filter_append, List.filter_cons_of_pos hmap,
      List.filter_eq_nil_iff.mpr fun s hs => by simp [hkept s hs]]
    rfl

theorem outputBytes_inj {sections sections' : List Section}
    (h : outputBytes sections = outputBytes sections') : sections = sections' := by
  have hread := parseSections_outputBytes sections
  rw [h, parseSections_outputBytes] at hread
  exact (Option.some.inj hread).symm

/-- What a run finds in the output of another: a slot for every exported function, none to
add, and one map of names. -/
def Saturated (out : List UInt8) : Prop :=
  ∃ sections seg exported, parseSections out = some sections ∧
    readSegment sections = some seg ∧ exportedFuncs sections = some exported ∧
    (∀ e ∈ exported, e.2 ∈ seg.funcs) ∧ (assign none seg.funcs exported).added = [] ∧
    (sections.filter (isCustom (literal "cb.dynsym"))).length = 1

/-- Read from the input: the filter passes over no name of a function that a later name
brings in. -/
def NamesInTime (only : Option (Str → Bool)) (data : List UInt8) : Prop :=
  ∃ sections seg exported, parseSections data = some sections ∧
    readSegment sections = some seg ∧ exportedFuncs sections = some exported ∧
    NoLateSlot only seg.funcs exported

theorem inject_again {data result : List UInt8} (h : inject only data = some result) :
    inject only result = some result ↔ NamesInTime only data := by
  obtain ⟨S, hparse, h⟩ := Option.bind_eq_some_iff.mp h
  obtain ⟨sections, hrebuild, h⟩ := Option.bind_eq_some_iff.mp h
  obtain rfl : outputBytes sections = result := by simpa using h
  obtain ⟨exported, seg, hexported, hseg, hiff, -, -⟩ := rebuild_again hrebuild
  have hagain : inject only (outputBytes sections) = some (outputBytes sections) ↔
      rebuild only sections = some sections := by
    unfold inject
    rw [parseSections_outputBytes]
    constructor
    · intro heq
      have hbind : (rebuild only sections).bind (fun s => some (outputBytes s)) =
          some (outputBytes sections) := heq
      obtain ⟨sections', hrebuild', heq⟩ := Option.bind_eq_some_iff.mp hbind
      rw [hrebuild', outputBytes_inj (Option.some.inj heq)]
    · intro heq
      simp [heq]
  rw [hagain, hiff]
  constructor
  · intro hlate
    exact ⟨S, seg, exported, hparse, hseg, hexported, hlate⟩
  · rintro ⟨S', seg', exported', hparse', hseg', hexported', hlate⟩
    obtain rfl : S = S' := Option.some.inj (hparse.symm.trans hparse')
    obtain rfl : seg = seg' := Option.some.inj (hseg.symm.trans hseg')
    obtain rfl : exported = exported' := Option.some.inj (hexported.symm.trans hexported')
    exact hlate

theorem saturated_inject {data result : List UInt8} (h : inject none data = some result) :
    Saturated result := by
  obtain ⟨S, hparse, h⟩ := Option.bind_eq_some_iff.mp h
  obtain ⟨sections, hrebuild, h⟩ := Option.bind_eq_some_iff.mp h
  obtain rfl : outputBytes sections = result := by simpa using h
  obtain ⟨exported, seg, hexported, hseg, -, hsettled, hone⟩ := rebuild_again hrebuild
  have hcovered : ∀ e ∈ exported, e.2 ∈ seg.funcs ++ (assign none seg.funcs exported).added :=
    fun e he => (assigned_assign none seg.funcs exported).covered e he rfl
  refine ⟨sections, _, exported, parseSections_outputBytes sections, hsettled.readSegment_eq,
    hsettled.exports, hcovered, ?_, hone⟩
  rw [assign_covered fun e he _ => hcovered e he]

/-- Injecting is idempotent for every module that is accepted: a second run finds a slot
for every exported function and gives the same bytes. Under a filter it gives the same
bytes exactly when the filter passes over no name of a function that a later name of it
brings in. -/
theorem inject_idempotent :
    (∀ data out : List UInt8, inject none data = some out →
      inject none out = some out ∧ Saturated out) ∧
    ∀ (only : Option (Str → Bool)) (data out : List UInt8), inject only data = some out →
      (inject only out = some out ↔ NamesInTime only data) := by
  refine ⟨fun data out h => ⟨?_, saturated_inject h⟩, fun only data out h => inject_again h⟩
  rw [inject_again h]
  obtain ⟨S, hparse, h⟩ := Option.bind_eq_some_iff.mp h
  obtain ⟨sections, hrebuild, -⟩ := Option.bind_eq_some_iff.mp h
  obtain ⟨exported, seg, hexported, hseg, -⟩ := rebuild_again hrebuild
  exact ⟨S, seg, exported, hparse, hseg, hexported, noLateSlot_none seg.funcs exported⟩

/-- A module with one function under the names `a` and `b`. -/
def aliasedModule : List UInt8 :=
  [0, 0x61, 0x73, 0x6d, 1, 0, 0, 0,
    0, 15, 8, 100, 121, 108, 105, 110, 107, 46, 48, 1, 4, 0, 0, 2, 0,
    2, 9, 1, 1, 0x65, 1, 0x74, 1, 0x70, 0, 2,
    7, 9, 2, 1, 97, 0, 5, 1, 98, 0, 5,
    10, 1, 0]

def aliasedOutput : List UInt8 :=
  [0, 0x61, 0x73, 0x6d, 1, 0, 0, 0,
    0, 15, 8, 100, 121, 108, 105, 110, 107, 46, 48, 1, 4, 0, 0, 3, 0,
    2, 9, 1, 1, 0x65, 1, 0x74, 1, 0x70, 0, 3,
    7, 9, 2, 1, 97, 0, 5, 1, 98, 0, 5,
    9, 7, 1, 0, 0x41, 0, 0x0b, 1, 5,
    10, 1, 0,
    0, 17, 9, 99, 98, 46, 100, 121, 110, 115, 121, 109, 2, 1, 97, 0, 1, 98, 0]

theorem inject_aliasedModule : inject none aliasedModule = some aliasedOutput := by
  decide +kernel

theorem inject_idempotent_aliased :
    (inject none aliasedOutput = some aliasedOutput ∧ Saturated aliasedOutput) ∧
      (inject none aliasedOutput = some aliasedOutput ↔ NamesInTime none aliasedModule) :=
  ⟨inject_idempotent.1 aliasedModule aliasedOutput inject_aliasedModule,
    inject_idempotent.2 none aliasedModule aliasedOutput inject_aliasedModule⟩

end Settling

end NixWasm.DynsymInject
