import NixWasm.DynsymInject
import Mathlib.Data.List.Induction

/-!
What the loop over the exported functions leaves: a slot for every function it met, in
the segment as it will be written, and an entry for every name that has one.
-/
namespace NixWasm.DynsymInject

variable {only : Option (Str → Bool)} {funcs : List ℕ} {exported : List (Str × ℕ)}

/-- The filter lets a name through; there may be no filter. -/
def Passes (only : Option (Str → Bool)) (name : Str) : Prop :=
  only.all (fun search => search name) = true

/-- An exported function that gets a slot: it has one in the segment, or it or an earlier
export of the same function passes the filter. -/
def Recorded (only : Option (Str → Bool)) (funcs : List ℕ) (exported : List (Str × ℕ))
    (e : Str × ℕ) : Prop :=
  ∃ before after, exported = before ++ e :: after ∧
    (e.2 ∈ funcs ∨ ∃ e' ∈ before ++ [e], e'.2 = e.2 ∧ Passes only e'.1)

/-- An exported function that needs a new slot. -/
def Wanted (only : Option (Str → Bool)) (funcs : List ℕ) (exported : List (Str × ℕ)) : Prop :=
  ∃ e ∈ exported, Passes only e.1 ∧ e.2 ∉ funcs

theorem Recorded.snoc {e x : Str × ℕ} (h : Recorded only funcs exported e) :
    Recorded only funcs (exported ++ [x]) e := by
  obtain ⟨before, after, rfl, hcases⟩ := h
  exact ⟨before, after ++ [x], by simp, hcases⟩

theorem Recorded.mem {e : Str × ℕ} (h : Recorded only funcs exported e) : e ∈ exported := by
  obtain ⟨before, after, rfl, -⟩ := h
  simp

/-- An occurrence in a longer list is an old one or the new one. -/
theorem snoc_eq_append_cons {α : Type} {l before after : List α} {x e : α}
    (h : l ++ [x] = before ++ e :: after) :
    (before = l ∧ e = x) ∨ ∃ after', l = before ++ e :: after' := by
  rcases List.eq_nil_or_concat after with rfl | ⟨after', y, rfl⟩
  · have hsame := List.append_inj' h rfl
    refine .inl ⟨hsame.1.symm, ?_⟩
    simpa using hsame.2.symm
  · refine .inr ⟨after', ?_⟩
    have hshape : l ++ [x] = (before ++ e :: after') ++ [y] := by simpa using h
    exact (List.append_inj' hshape rfl).1

theorem initialSlots_from (k : ℕ) (m : JsMap ℕ ℕ) (j : ℕ) :
    ((funcs.zipIdx k).reverse.foldl (fun m e => m.set e.1 e.2) m).get j =
      ((funcs.findIdx? (· = j)).map (· + k)).or (m.get j) := by
  induction funcs generalizing k with
  | nil => rfl
  | cons f funcs ih =>
    rw [List.zipIdx_cons, List.reverse_cons, List.foldl_append, List.foldl_cons, List.foldl_nil,
      List.findIdx?_cons]
    by_cases hf : f = j
    · subst hf
      simp [JsMap.get_set_self]
    · rw [JsMap.get_set_of_ne _ _ (Ne.symm hf), ih]
      simp only [hf, decide_false, Bool.false_eq_true, if_false, Option.map_map]
      congr 2
      funext i
      simp only [Function.comp]
      omega

theorem initialSlots_get (j : ℕ) :
    (initialSlots funcs).get j = funcs.findIdx? (· = j) := by
  have h := @initialSlots_from funcs 0 JsMap.empty j
  simpa [initialSlots] using h

/-- The loop's invariant after the exports `seen`. -/
structure Assigned (only : Option (Str → Bool)) (funcs : List ℕ) (seen : List (Str × ℕ))
    (a : Assignment) : Prop where
  slots : ∀ j, a.slotOf.get j = (funcs ++ a.added).findIdx? (· = j)
  fresh : ∀ j ∈ a.added, j ∉ funcs ∧ ∃ e ∈ seen, e.2 = j ∧ Passes only e.1
  covered : ∀ e ∈ seen, Passes only e.1 → e.2 ∈ funcs ++ a.added
  entry : ∀ name slot, (name, slot) ∈ a.dynsym → ∃ j, Recorded only funcs seen (name, j) ∧
    (funcs ++ a.added)[slot]? = some j
  recorded : ∀ e, Recorded only funcs seen e → ∃ slot, (e.1, slot) ∈ a.dynsym ∧
    (funcs ++ a.added)[slot]? = some e.2
  names : (a.dynsym.map Prod.fst).Sublist (seen.map Prod.fst)
  bounded : a.added.length ≤ seen.length

theorem findIdx?_append_self {l : List ℕ} {j : ℕ} (h : j ∉ l) (i : ℕ) :
    (l ++ [j]).findIdx? (· = i) = if i = j then some l.length else l.findIdx? (· = i) := by
  rw [List.findIdx?_append]
  by_cases hij : i = j
  · subst hij
    have hnone : l.findIdx? (· = i) = none := by
      rw [List.findIdx?_eq_none_iff]
      intro x hx
      simp only [decide_eq_false_iff_not]
      rintro rfl
      exact h hx
    simp [hnone]
  · simp [hij, Ne.symm hij]

namespace Assigned

variable {seen : List (Str × ℕ)} {a : Assignment}

/-- What stays when an export is passed over. -/
theorem fresh_snoc (h : Assigned only funcs seen a) (x : Str × ℕ) :
    ∀ j ∈ a.added, j ∉ funcs ∧ ∃ e ∈ seen ++ [x], e.2 = j ∧ Passes only e.1 := by
  intro j hj
  obtain ⟨hnot, e, he, hrest⟩ := h.fresh j hj
  exact ⟨hnot, e, List.mem_append_left _ he, hrest⟩

theorem entry_snoc (h : Assigned only funcs seen a) (x : Str × ℕ) :
    ∀ name slot, (name, slot) ∈ a.dynsym → ∃ j, Recorded only funcs (seen ++ [x]) (name, j) ∧
      (funcs ++ a.added)[slot]? = some j := by
  intro name slot hmem
  obtain ⟨j, hj, hget⟩ := h.entry name slot hmem
  exact ⟨j, hj.snoc, hget⟩

theorem names_snoc (h : Assigned only funcs seen a) (x : Str × ℕ) (slot : ℕ) :
    ((a.dynsym ++ [(x.1, slot)]).map Prod.fst).Sublist ((seen ++ [x]).map Prod.fst) := by
  simpa using h.names.append (List.Sublist.refl [x.1])

/-- An export of a function that has a slot. -/
theorem known (h : Assigned only funcs seen a) (x : Str × ℕ) {slot : ℕ}
    (hslot : (funcs ++ a.added)[slot]? = some x.2) :
    Assigned only funcs (seen ++ [x]) { a with dynsym := a.dynsym ++ [(x.1, slot)] } := by
  have hmem : x.2 ∈ funcs ++ a.added := List.mem_of_getElem? hslot
  have hx : Recorded only funcs (seen ++ [x]) x := by
    refine ⟨seen, [], rfl, ?_⟩
    rcases List.mem_append.mp hmem with hin | hin
    · exact .inl hin
    · obtain ⟨e, he, heq, hpass⟩ := (h.fresh x.2 hin).2
      exact .inr ⟨e, List.mem_append_left _ he, heq, hpass⟩
  refine ⟨h.slots, h.fresh_snoc x, ?_, ?_, ?_, h.names_snoc x slot, ?_⟩
  · intro e he hpass
    rcases List.mem_append.mp he with hold | hnew
    · exact h.covered e hold hpass
    · rw [List.mem_singleton.mp hnew]
      exact hmem
  · intro name slot' hmem'
    rcases List.mem_append.mp hmem' with hold | hnew
    · exact h.entry_snoc x name slot' hold
    · obtain ⟨rfl, rfl⟩ : name = x.1 ∧ slot' = slot := by simpa using hnew
      exact ⟨x.2, hx, hslot⟩
  · rintro e ⟨before, after, hsplit, hcases⟩
    rcases snoc_eq_append_cons hsplit with ⟨-, rfl⟩ | ⟨after', hseen⟩
    · exact ⟨slot, by simp, hslot⟩
    · obtain ⟨slot', hentry, hget⟩ := h.recorded e ⟨before, after', hseen, hcases⟩
      exact ⟨slot', List.mem_append_left _ hentry, hget⟩
  · have hb := h.bounded
    simp only [List.length_append]
    omega

/-- An export of a function that gets the next slot. -/
theorem appended (h : Assigned only funcs seen a) (x : Str × ℕ)
    (hfresh : x.2 ∉ funcs ++ a.added) (hpass : Passes only x.1) :
    Assigned only funcs (seen ++ [x])
      { slotOf := a.slotOf.set x.2 (funcs.length + a.added.length)
        added := a.added ++ [x.2]
        dynsym := a.dynsym ++ [(x.1, funcs.length + a.added.length)] } := by
  have hslot : (funcs ++ (a.added ++ [x.2]))[funcs.length + a.added.length]? = some x.2 := by
    rw [← List.append_assoc, ← List.length_append]
    simp
  have hkeep : ∀ (slot : ℕ) (j : ℕ), (funcs ++ a.added)[slot]? = some j →
      (funcs ++ (a.added ++ [x.2]))[slot]? = some j := by
    intro slot j hget
    rw [← List.append_assoc]
    exact (List.getElem?_append_left (List.getElem?_eq_some_iff.mp hget).1).trans hget
  have hx : Recorded only funcs (seen ++ [x]) x :=
    ⟨seen, [], rfl, .inr ⟨x, by simp, rfl, hpass⟩⟩
  refine ⟨?_, ?_, ?_, ?_, ?_, h.names_snoc x _, ?_⟩
  · intro j
    rw [← List.append_assoc, findIdx?_append_self hfresh]
    by_cases hj : j = x.2
    · rw [hj, JsMap.get_set_self, if_pos rfl, List.length_append]
    · rw [JsMap.get_set_of_ne _ _ hj, if_neg hj, h.slots]
  · intro j hj
    rcases List.mem_append.mp hj with hold | hnew
    · exact h.fresh_snoc x j hold
    · obtain rfl := List.mem_singleton.mp hnew
      exact ⟨fun hin => hfresh (List.mem_append_left _ hin), x, by simp, rfl, hpass⟩
  · intro e he hpass'
    rcases List.mem_append.mp he with hold | hnew
    · rw [← List.append_assoc]
      exact List.mem_append_left _ (h.covered e hold hpass')
    · rw [List.mem_singleton.mp hnew]
      simp
  · intro name slot hmem
    rcases List.mem_append.mp hmem with hold | hnew
    · obtain ⟨j, hj, hget⟩ := h.entry_snoc x name slot hold
      exact ⟨j, hj, hkeep slot j hget⟩
    · obtain ⟨rfl, rfl⟩ : name = x.1 ∧ slot = funcs.length + a.added.length := by
        simpa using hnew
      exact ⟨x.2, hx, hslot⟩
  · rintro e ⟨before, after, hsplit, hcases⟩
    rcases snoc_eq_append_cons hsplit with ⟨-, rfl⟩ | ⟨after', hseen⟩
    · exact ⟨funcs.length + a.added.length, by simp, hslot⟩
    · obtain ⟨slot, hentry, hget⟩ := h.recorded e ⟨before, after', hseen, hcases⟩
      exact ⟨slot, List.mem_append_left _ hentry, hkeep slot e.2 hget⟩
  · have hb := h.bounded
    simp only [List.length_append, List.length_singleton]
    omega

/-- An export that the filter leaves out. -/
theorem skipped (h : Assigned only funcs seen a) (x : Str × ℕ)
    (hfresh : x.2 ∉ funcs ++ a.added) (hpass : ¬ Passes only x.1) :
    Assigned only funcs (seen ++ [x]) a := by
  refine ⟨h.slots, h.fresh_snoc x, ?_, h.entry_snoc x, ?_, ?_, ?_⟩
  · intro e he hpass'
    rcases List.mem_append.mp he with hold | hnew
    · exact h.covered e hold hpass'
    · rw [List.mem_singleton.mp hnew] at hpass'
      exact absurd hpass' hpass
  · rintro e ⟨before, after, hsplit, hcases⟩
    rcases snoc_eq_append_cons hsplit with ⟨rfl, rfl⟩ | ⟨after', hseen⟩
    · -- neither the segment nor an earlier export has the function
      exfalso
      rcases hcases with hin | ⟨e', he', heq, hpass'⟩
      · exact hfresh (List.mem_append_left _ hin)
      · rcases List.mem_append.mp he' with hold | hnew
        · exact hfresh (heq ▸ h.covered e' hold hpass')
        · rw [List.mem_singleton.mp hnew] at hpass'
          exact hpass hpass'
    · exact h.recorded e ⟨before, after', hseen, hcases⟩
  · refine h.names.trans ?_
    rw [List.map_append]
    exact List.sublist_append_left _ _
  · have hb := h.bounded
    simp only [List.length_append]
    omega

theorem step (h : Assigned only funcs seen a) (x : Str × ℕ) :
    Assigned only funcs (seen ++ [x]) (assignOne only funcs.length a x) := by
  unfold assignOne
  rw [h.slots x.2]
  cases hfind : (funcs ++ a.added).findIdx? (· = x.2) with
  | some slot =>
    obtain ⟨hlt, hval, -⟩ := List.findIdx?_eq_some_iff_getElem.mp hfind
    refine h.known x ?_
    rw [List.getElem?_eq_getElem hlt]
    simpa using hval
  | none =>
    have hfresh : x.2 ∉ funcs ++ a.added := by
      intro hmem
      have hno := List.findIdx?_eq_none_iff.mp hfind x.2 hmem
      simp at hno
    dsimp only
    split
    · rename_i hpass
      exact h.appended x hfresh hpass
    · rename_i hpass
      exact h.skipped x hfresh hpass

end Assigned

/-- The loop over all exports. -/
theorem assigned_assign (only : Option (Str → Bool)) (funcs : List ℕ)
    (exported : List (Str × ℕ)) : Assigned only funcs exported (assign only funcs exported) := by
  induction exported using List.reverseRecOn with
  | nil =>
    refine ⟨fun j => ?_, by simp [assign], by simp, by simp [assign], ?_, by simp [assign],
      by simp [assign]⟩
    · simp [assign, initialSlots_get]
    · rintro e ⟨before, after, hsplit, -⟩
      simp at hsplit
  | append_singleton exported x ih =>
    have hsnoc : assign only funcs (exported ++ [x]) =
        assignOne only funcs.length (assign only funcs exported) x := by
      simp [assign, List.foldl_append]
    rw [hsnoc]
    exact ih.step x

theorem added_ne_nil_iff :
    (assign only funcs exported).added ≠ [] ↔ Wanted only funcs exported := by
  have h := assigned_assign only funcs exported
  constructor
  · intro hne
    obtain ⟨j, hj⟩ := List.exists_mem_of_ne_nil _ hne
    obtain ⟨hnot, e, he, rfl, hpass⟩ := h.fresh j hj
    exact ⟨e, he, hpass, hnot⟩
  · rintro ⟨e, he, hpass, hnot⟩ hnil
    have hmem := h.covered e he hpass
    rw [hnil, List.append_nil] at hmem
    exact hnot hmem

end NixWasm.DynsymInject
