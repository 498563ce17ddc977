import Mathlib.Data.List.Basic

/-!
Insertion-ordered maps, as a list of entries. Setting a present key keeps its place,
a new key goes to the end, and `values` lists the entries in order.
-/
namespace NixWasm

structure JsMap (κ α : Type) where
  entries : List (κ × α)
deriving DecidableEq

namespace JsMap

variable {κ α : Type} [DecidableEq κ]

def empty : JsMap κ α := ⟨[]⟩

def get (m : JsMap κ α) (k : κ) : Option α := (m.entries.find? fun e => e.1 = k).map Prod.snd

def set (m : JsMap κ α) (k : κ) (a : α) : JsMap κ α :=
  if m.entries.any fun e => e.1 = k then
    ⟨m.entries.map fun e => if e.1 = k then (k, a) else e⟩
  else ⟨m.entries ++ [(k, a)]⟩

def delete (m : JsMap κ α) (k : κ) : JsMap κ α := ⟨m.entries.filter fun e => e.1 ≠ k⟩

omit [DecidableEq κ] in
def values (m : JsMap κ α) : List α := m.entries.map Prod.snd

@[simp] theorem get_empty (k : κ) : (empty : JsMap κ α).get k = none := rfl

theorem get_set_self (m : JsMap κ α) (k : κ) (a : α) : (m.set k a).get k = some a := by
  obtain ⟨entries⟩ := m
  simp only [set, get]
  split
  · rename_i hany
    induction entries with
    | nil => simp at hany
    | cons e entries ih =>
      by_cases he : e.1 = k
      · simp [he]
      · simp only [List.any_cons, he, decide_false, Bool.false_or] at hany
        simpa [he] using ih hany
  · rename_i hany
    have hnone : entries.find? (fun e => e.1 = k) = none := by
      rw [List.find?_eq_none]
      intro e hmem he
      exact hany (List.any_eq_true.mpr ⟨e, hmem, he⟩)
    rw [List.find?_append, hnone]
    simp

theorem get_set_of_ne (m : JsMap κ α) {k j : κ} (a : α) (h : j ≠ k) :
    (m.set k a).get j = m.get j := by
  obtain ⟨entries⟩ := m
  simp only [set, get]
  split
  · rename_i hany
    clear hany
    induction entries with
    | nil => rfl
    | cons e entries ih =>
      by_cases he : e.1 = k
      · have hej : ¬ e.1 = j := fun hej => h (hej.symm.trans he)
        simpa [he, hej, h.symm] using ih
      · by_cases hej : e.1 = j
        · subst hej
          simp [h]
        · simpa [he, hej] using ih
  · rw [List.find?_append]
    simp [h.symm]

theorem get_set (m : JsMap κ α) (k j : κ) (a : α) :
    (m.set k a).get j = if j = k then some a else m.get j := by
  split_ifs with h
  · rw [h, get_set_self]
  · exact get_set_of_ne m a h

theorem get_delete_self (m : JsMap κ α) (k : κ) : (m.delete k).get k = none := by
  have hnone : (m.entries.filter fun e => e.1 ≠ k).find? (fun e => e.1 = k) = none := by
    rw [List.find?_eq_none]
    intro e hmem he
    have hne := List.of_mem_filter hmem
    simp_all
  simp only [delete, get, hnone, Option.map_none]

theorem get_delete_of_ne (m : JsMap κ α) {k j : κ} (h : j ≠ k) :
    (m.delete k).get j = m.get j := by
  simp only [delete, get, List.find?_filter]
  congr 2
  funext e
  by_cases hej : e.1 = j
  · simp [hej, h]
  · simp [hej]

theorem get_delete (m : JsMap κ α) (k j : κ) :
    (m.delete k).get j = if j = k then none else m.get j := by
  split_ifs with h
  · rw [h, get_delete_self]
  · exact get_delete_of_ne m h

theorem delete_of_get_none {m : JsMap κ α} {k : κ} (h : m.get k = none) : m.delete k = m := by
  have hkeep : m.entries.filter (fun e => e.1 ≠ k) = m.entries := by
    rw [List.filter_eq_self]
    intro e he
    have hne := List.find?_eq_none.mp (Option.map_eq_none_iff.mp h) e he
    simpa using hne
  rw [delete, hkeep]

theorem mem_values_set {m : JsMap κ α} {k : κ} {a b : α} (h : b ∈ (m.set k a).values) :
    b = a ∨ b ∈ m.values := by
  unfold set at h
  split at h
  · simp only [values, List.map_map, List.mem_map, Function.comp_apply] at h ⊢
    obtain ⟨e, he, rfl⟩ := h
    by_cases hk : e.1 = k
    · simp [hk]
    · exact .inr ⟨e, he, by simp [hk]⟩
  · simpa [values, or_comm] using h

theorem mem_values_of_get {m : JsMap κ α} {k : κ} {a : α} (h : m.get k = some a) :
    a ∈ m.values := by
  obtain ⟨e, hfind, rfl⟩ := Option.map_eq_some_iff.mp h
  exact List.mem_map_of_mem (List.mem_of_find?_eq_some hfind)

section Keys

omit [DecidableEq κ] in
/-- The keys in order; in a map that was made from the empty one they are distinct. -/
def keys (m : JsMap κ α) : List κ := m.entries.map Prod.fst

theorem entries_eq_nil {m : JsMap κ α} (h : ∀ k, m.get k = none) : m.entries = [] := by
  cases hentries : m.entries with
  | nil => rfl
  | cons e rest =>
    have hget := h e.1
    rw [get, hentries, List.find?_cons_of_pos (by simp)] at hget
    cases hget

theorem nodup_keys_set {m : JsMap κ α} (h : m.keys.Nodup) (k : κ) (a : α) :
    (m.set k a).keys.Nodup := by
  unfold set keys
  split
  · have hsame : (m.entries.map fun e => if e.1 = k then (k, a) else e).map Prod.fst = m.keys := by
      rw [List.map_map]
      refine List.map_congr_left fun e _ => ?_
      by_cases he : e.1 = k
      · simp [he]
      · simp [he]
    rw [hsame]
    exact h
  · rename_i hnone
    rw [List.map_append, List.map_singleton, List.nodup_append]
    refine ⟨h, by simp, fun j hj i hi hji => hnone ?_⟩
    obtain ⟨e, he, rfl⟩ := List.mem_map.mp hj
    exact List.any_eq_true.mpr ⟨e, he, by simpa [hji] using hi⟩

theorem nodup_keys_delete {m : JsMap κ α} (h : m.keys.Nodup) (k : κ) : (m.delete k).keys.Nodup :=
  h.sublist (List.filter_sublist.map Prod.fst)

theorem get_of_mem {m : JsMap κ α} (h : m.keys.Nodup) {e : κ × α} (he : e ∈ m.entries) :
    m.get e.1 = some e.2 := by
  obtain ⟨entries⟩ := m
  induction entries with
  | nil => cases he
  | cons d entries ih =>
    obtain ⟨hnew, hrest⟩ := List.nodup_cons.mp h
    rcases List.mem_cons.mp he with rfl | he
    · simp [get]
    · have hne : d.1 ≠ e.1 := fun heq => hnew (heq ▸ List.mem_map_of_mem he)
      have hget := ih hrest he
      simp only [get, List.find?_cons, hne, decide_false] at hget ⊢
      exact hget

end Keys

section Fold

variable {β : Type} (key : β → κ) (val : β → α)

theorem get_foldl_set_of_ne (l : List β) (m : JsMap κ α) {k : κ} (h : ∀ b ∈ l, key b ≠ k) :
    (l.foldl (fun m b => m.set (key b) (val b)) m).get k = m.get k := by
  induction l generalizing m with
  | nil => rfl
  | cons b l ih =>
    rw [List.foldl_cons, ih _ fun c hc => h c (List.mem_cons_of_mem b hc),
      get_set_of_ne _ _ (Ne.symm (h b (List.mem_cons_self ..)))]

/-- Among distinct keys each finds its own value. -/
theorem get_foldl_set {l : List β} (hnodup : (l.map key).Nodup) (m : JsMap κ α) {b : β}
    (hb : b ∈ l) : (l.foldl (fun m b => m.set (key b) (val b)) m).get (key b) = some (val b) := by
  induction l generalizing m with
  | nil => cases hb
  | cons c l ih =>
    rw [List.map_cons, List.nodup_cons] at hnodup
    rw [List.foldl_cons]
    rcases List.mem_cons.mp hb with rfl | hb
    · rw [get_foldl_set_of_ne, get_set_self]
      intro d hd heq
      exact hnodup.1 (heq ▸ List.mem_map_of_mem hd)
    · exact ih hnodup.2 _ hb

theorem get_foldl_set_isSome {l : List β} {m : JsMap κ α} {k : κ}
    (h : (m.get k).isSome = true ∨ ∃ b ∈ l, key b = k) :
    ((l.foldl (fun m b => m.set (key b) (val b)) m).get k).isSome = true := by
  induction l generalizing m with
  | nil => simpa using h
  | cons c l ih =>
    refine ih ?_
    by_cases hk : k = key c
    · rw [hk, get_set_self]
      exact .inl rfl
    · rw [get_set_of_ne _ _ hk]
      rcases h with hold | ⟨b, hb, hkey⟩
      · exact .inl hold
      · rcases List.mem_cons.mp hb with rfl | hb
        · exact absurd hkey.symm hk
        · exact .inr ⟨b, hb, hkey⟩

/-- What is found was there or was put there. -/
theorem get_foldl_set_cases {l : List β} {m : JsMap κ α} {k : κ} {a : α}
    (h : (l.foldl (fun m b => m.set (key b) (val b)) m).get k = some a) :
    m.get k = some a ∨ ∃ b ∈ l, key b = k ∧ val b = a := by
  induction l generalizing m with
  | nil => exact .inl h
  | cons b l ih =>
    rcases ih h with hset | ⟨c, hc, hrest⟩
    · by_cases hk : k = key b
      · rw [hk, get_set_self] at hset
        exact .inr ⟨b, List.mem_cons_self .., hk.symm, Option.some.inj hset⟩
      · rw [get_set_of_ne _ _ hk] at hset
        exact .inl hset
    · exact .inr ⟨c, List.mem_cons_of_mem b hc, hrest⟩

end Fold

end JsMap

end NixWasm
