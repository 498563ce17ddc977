import NixWasm.DylinkGot
import NixWasm.DylinkSlots

/-!
The invariant of the shared table. Every module owns one range, the ranges lie one
after the other, dynamic slots lie outside all of them and are never shared, and what a
slot holds serves the export it was handed out for. Each change of the table keeps it:
longer tables, a new range, an install, an element segment in its own range.
-/
namespace NixWasm.DynamicLoader

open Dylink Unicode

/-- The invariant, for an engine and a build-time thunk relation. -/
structure Sound (wraps : List UInt8 → ℕ → Option ℕ) (E : Engine) (s : Loader) : Prop where
  ranges : ∀ (k : ℕ) (m : DlModule), s.modules[k]? = some m →
  m.tableBase + m.tableCount ≤ s.table.length
  disjoint : ∀ (k k' : ℕ) (m m' : DlModule), s.modules[k]? = some m → s.modules[k']? = some m' →
    k < k' → m.tableBase + m.tableCount ≤ m'.tableBase
  backed : ∀ (k : ℕ) (m : DlModule) i, s.modules[k]? = some m → m.inst = some i →
    ∃ bytes info imports owner, Backed wraps E s.table m i bytes info imports owner
  outside : ∀ (k : ℕ) (m : DlModule) index, s.modules[k]? = some m →
    index ∈ m.dynSlots.values →
    index < s.table.length ∧ ∀ (k' : ℕ) (m' : DlModule), s.modules[k']? = some m' →
      ¬ (m'.tableBase ≤ index ∧ index < m'.tableBase + m'.tableCount)
  dynamic : ∀ (k : ℕ) (m : DlModule) name index, s.modules[k]? = some m →
    m.dynSlots.get name = some index →
    m.elemSlots.get name = none ∧ ∃ i fn f, m.inst = some i ∧ i.get name = some (.func fn) ∧
      s.table[index]? = some (some f) ∧ Serves wraps f fn ∧
      (f.Canonical ↔ index ∈ s.thunkedSlots)
  distinct : ∀ (k k' : ℕ) (m m' : DlModule) name name' index, s.modules[k]? = some m →
    s.modules[k']? = some m' → m.dynSlots.get name = some index →
    m'.dynSlots.get name' = some index → k = k' ∧ name = name'
  thunked : ∀ index ∈ s.thunkedSlots, index < s.table.length

namespace Sound

variable {wraps : List UInt8 → ℕ → Option ℕ} {E : Engine} {s : Loader}

theorem withLog (h : Sound wraps E s) (log : List DlOp) :
    Sound wraps E { s with opLog := log } :=
  ⟨h.ranges, h.disjoint, h.backed, h.outside, h.dynamic, h.distinct, h.thunked⟩

theorem dyn_lt (h : Sound wraps E s) {k : ℕ} {m : DlModule} {name : Utf16} {index : ℕ}
    (hm : s.modules[k]? = some m) (hget : m.dynSlots.get name = some index) :
    index < s.table.length := (h.outside k m index hm (JsMap.mem_values_of_get hget)).1

/-- New slots at the end of the table. -/
theorem extend (h : Sound wraps E s) (extra : List (Option Fn)) :
    Sound wraps E { s with table := s.table ++ extra } where
  ranges k m hm := by
    have hrange := h.ranges k m hm
    simp only [List.length_append]
    omega
  disjoint := h.disjoint
  backed k m i hm hi := by
    obtain ⟨bytes, info, imports, owner, hback⟩ := h.backed k m i hm hi
    refine ⟨bytes, info, imports, owner, hback.congr rfl ?_⟩
    intro index _ hlt
    have hrange := h.ranges k m hm
    exact List.getElem?_append_left (by omega)
  outside k m index hm hmem := by
    obtain ⟨hlt, hout⟩ := h.outside k m index hm hmem
    refine ⟨?_, hout⟩
    simp only [List.length_append]
    omega
  dynamic k m name index hm hget := by
    obtain ⟨hslot, i, fn, f, hi, hfn, hf, hrest⟩ := h.dynamic k m name index hm hget
    refine ⟨hslot, i, fn, f, hi, hfn, ?_, hrest⟩
    exact (List.getElem?_append_left (h.dyn_lt hm hget)).trans hf
  distinct := h.distinct
  thunked index hmem := by
    have hlt := h.thunked index hmem
    simp only [List.length_append]
    omega

theorem getElem?_snoc {ms : List DlModule} {r m : DlModule} {k : ℕ}
    (h : (ms ++ [r])[k]? = some m) : ms[k]? = some m ∨ k = ms.length ∧ m = r := by
  by_cases hk : k < ms.length
  · rw [List.getElem?_append_left hk] at h
    exact .inl h
  · rw [List.getElem?_append_right (by omega)] at h
    have hzero : k - ms.length = 0 := by
      by_contra hne
      obtain ⟨n, hn⟩ := Nat.exists_eq_succ_of_ne_zero hne
      simp [hn] at h
    rw [hzero] at h
    exact .inr ⟨by omega, (Option.some.inj h).symm⟩

/-- A new record with its range at the end of the table. -/
theorem publish (h : Sound wraps E s) (c : LoadCall) (plan : Plan) :
    Sound wraps E (publish c plan s) := by
  have hext := h.extend (List.replicate plan.tableCount none)
  have hlen : (s.table ++ List.replicate plan.tableCount none).length =
      s.table.length + plan.tableCount := by simp
  refine ⟨?_, ?_, ?_, ?_, ?_, ?_, ?_⟩
  · intro k m hm
    rcases getElem?_snoc hm with hm | ⟨-, rfl⟩
    · exact hext.ranges k m hm
    · exact Nat.le_of_eq hlen.symm
  · intro k k' m m' hm hm' hlt
    rcases getElem?_snoc hm' with hm' | ⟨hk', rfl⟩
    · rcases getElem?_snoc hm with hm | ⟨hk, rfl⟩
      · exact h.disjoint k k' m m' hm hm' hlt
      · have hbound := (List.getElem?_eq_some_iff.mp hm').1
        omega
    · rcases getElem?_snoc hm with hm | ⟨hk, rfl⟩
      · exact h.ranges k m hm
      · omega
  · intro k m i hm hi
    rcases getElem?_snoc hm with hm | ⟨-, rfl⟩
    · exact hext.backed k m i hm hi
    · cases hi
  · intro k m index hm hmem
    rcases getElem?_snoc hm with hm | ⟨-, rfl⟩
    · obtain ⟨hlt, hout⟩ := hext.outside k m index hm hmem
      refine ⟨hlt, ?_⟩
      intro k' m' hm'
      rcases getElem?_snoc hm' with hm' | ⟨-, rfl⟩
      · exact hout k' m' hm'
      · have hold := (h.outside k m index hm hmem).1
        simp only [newRecord]
        omega
    · simp [newRecord, JsMap.empty, JsMap.values] at hmem
  · intro k m name index hm hget
    rcases getElem?_snoc hm with hm | ⟨-, rfl⟩
    · exact hext.dynamic k m name index hm hget
    · simp [newRecord] at hget
  · intro k k' m m' name name' index hm hm' hget hget'
    rcases getElem?_snoc hm with hm | ⟨-, rfl⟩
    · rcases getElem?_snoc hm' with hm' | ⟨-, rfl⟩
      · exact h.distinct k k' m m' name name' index hm hm' hget hget'
      · simp [newRecord] at hget'
    · simp [newRecord] at hget
  · exact hext.thunked

/-- The record at a place after an install, and its cache. -/
theorem install_place {k : ℕ} {name : Utf16} {entry : Fn × Bool} {logged : Bool} {j : ℕ}
    {m : DlModule} (hm : (install s k name entry logged).modules[j]? = some m) :
    ∃ old, s.modules[j]? = some old ∧ m.core = old.core ∧
      (m.dynSlots = old.dynSlots ∨
        j = k ∧ m.dynSlots = old.dynSlots.set name s.table.length) := by
  rw [getElem?_install] at hm
  obtain ⟨old, hold, rfl⟩ := Option.map_eq_some_iff.mp hm
  refine ⟨old, hold, ?_⟩
  by_cases hk : k = j
  · rw [if_pos hk]
    exact ⟨rfl, .inr ⟨hk.symm, rfl⟩⟩
  · rw [if_neg hk]
    exact ⟨rfl, .inl rfl⟩

/-- Where a cached slot of the new state comes from. -/
theorem install_get {k : ℕ} {name : Utf16} {entry : Fn × Bool} {logged : Bool} {j : ℕ}
    {m : DlModule} {name' : Utf16} {index : ℕ}
    (hm : (install s k name entry logged).modules[j]? = some m)
    (hget : m.dynSlots.get name' = some index) :
    ∃ old, s.modules[j]? = some old ∧ m.core = old.core ∧
      (old.dynSlots.get name' = some index ∨
        j = k ∧ name' = name ∧ index = s.table.length) := by
  obtain ⟨old, hold, hcore, hdyn⟩ := install_place hm
  refine ⟨old, hold, hcore, ?_⟩
  rcases hdyn with hdyn | ⟨hj, hdyn⟩
  · exact .inl (hdyn ▸ hget)
  · rw [hdyn] at hget
    by_cases hname : name' = name
    · rw [hname, JsMap.get_set_self] at hget
      exact .inr ⟨hj, hname, (Option.some.inj hget).symm⟩
    · rw [JsMap.get_set_of_ne _ _ hname] at hget
      exact .inl hget

/-- A dynamic install of an export that had no slot. -/
theorem install (h : Sound wraps E s) {k : ℕ} {m : DlModule} {i : Instance} {name : Utf16}
    {fn : Fn} {entry : Fn × Bool} (logged : Bool) (hm : s.modules[k]? = some m)
    (hi : m.inst = some i) (hfn : i.get name = some (.func fn))
    (hslot : m.elemSlots.get name = none) (hserves : Serves wraps entry.1 fn)
    (hcanon : entry.1.Canonical ↔ entry.2 = true) :
    Sound wraps E (install s k name entry logged) := by
  have hext := h.extend [some entry.1]
  have hlen : (s.table ++ [some entry.1]).length = s.table.length + 1 := by simp
  have hthunked : ∀ index, index ≠ s.table.length →
      (index ∈ (DynamicLoader.install s k name entry logged).thunkedSlots ↔
        index ∈ s.thunkedSlots) := by
    intro index hne
    simp only [DynamicLoader.install]
    split
    · simp [hne]
    · rfl
  refine ⟨?_, ?_, ?_, ?_, ?_, ?_, ?_⟩
  · intro j m' hm'
    obtain ⟨old, hold, hcore, -⟩ := install_place hm'
    rw [tableBase_of_core hcore, tableCount_of_core hcore]
    exact hext.ranges j old hold
  · intro j j' m₁ m₂ hm₁ hm₂ hlt
    obtain ⟨old₁, hold₁, hcore₁, -⟩ := install_place hm₁
    obtain ⟨old₂, hold₂, hcore₂, -⟩ := install_place hm₂
    rw [tableBase_of_core hcore₁, tableCount_of_core hcore₁, tableBase_of_core hcore₂]
    exact h.disjoint j j' old₁ old₂ hold₁ hold₂ hlt
  · intro j m' i' hm' hi'
    obtain ⟨old, hold, hcore, -⟩ := install_place hm'
    have hinst : m'.inst = old.inst := inst_of_core hcore
    obtain ⟨bytes, info, imports, owner, hback⟩ := hext.backed j old i' hold (hinst ▸ hi')
    exact ⟨bytes, info, imports, owner, hback.congr hcore fun _ _ _ => rfl⟩
  · intro j m' index hm' hmem
    obtain ⟨old, hold, -, hdyn⟩ := install_place hm'
    have hcases : index ∈ old.dynSlots.values ∨ index = s.table.length := by
      rcases hdyn with hdyn | ⟨-, hdyn⟩
      · exact .inl (hdyn ▸ hmem)
      · rw [hdyn] at hmem
        exact (JsMap.mem_values_set hmem).symm
    have hrange : ∀ (k' : ℕ) (m₂ : DlModule),
      (DynamicLoader.install s k name entry logged).modules[k']? = some m₂ →
        ∃ old₂, s.modules[k']? = some old₂ ∧ m₂.tableBase = old₂.tableBase ∧
          m₂.tableCount = old₂.tableCount := by
      intro k' m₂ hm₂
      obtain ⟨old₂, hold₂, hcore₂, -⟩ := install_place hm₂
      exact ⟨old₂, hold₂, tableBase_of_core hcore₂, tableCount_of_core hcore₂⟩
    rcases hcases with hmem | rfl
    · obtain ⟨hlt, hout⟩ := hext.outside j old index hold hmem
      refine ⟨hlt, ?_⟩
      intro k' m₂ hm₂
      obtain ⟨old₂, hold₂, hbase, hcount⟩ := hrange k' m₂ hm₂
      rw [hbase, hcount]
      exact hout k' old₂ hold₂
    · refine ⟨by simp [DynamicLoader.install], ?_⟩
      intro k' m₂ hm₂
      obtain ⟨old₂, hold₂, hbase, hcount⟩ := hrange k' m₂ hm₂
      have hbound := h.ranges k' old₂ hold₂
      omega
  · intro j m' name' index hm' hget
    obtain ⟨old, hold, hcore, hcases⟩ := install_get hm' hget
    have helem : m'.elemSlots = old.elemSlots := elemSlots_of_core hcore
    have hinst : m'.inst = old.inst := inst_of_core hcore
    rcases hcases with hold' | ⟨rfl, rfl, rfl⟩
    · obtain ⟨hnone, i', fn', f', hi', hfn', hf', hserves', hcanon'⟩ :=
        hext.dynamic j old name' index hold hold'
      refine ⟨helem ▸ hnone, i', fn', f', hinst ▸ hi', hfn', hf', hserves', ?_⟩
      rw [hthunked index (Nat.ne_of_lt (h.dyn_lt hold hold'))]
      exact hcanon'
    · obtain rfl : m = old := Option.some.inj (hm.symm.trans hold)
      refine ⟨helem ▸ hslot, i, fn, entry.1, hinst ▸ hi, hfn, ?_, hserves, ?_⟩
      · simp [DynamicLoader.install]
      · rw [hcanon]
        simp only [DynamicLoader.install]
        split
        · rename_i hthunk
          simp [hthunk]
        · rename_i hthunk
          refine ⟨fun h' => absurd h' hthunk, ?_⟩
          intro hmem
          exact absurd (h.thunked _ hmem) (Nat.lt_irrefl _)
  · intro j j' m₁ m₂ name₁ name₂ index hm₁ hm₂ hget₁ hget₂
    obtain ⟨old₁, hold₁, -, hcases₁⟩ := install_get hm₁ hget₁
    obtain ⟨old₂, hold₂, -, hcases₂⟩ := install_get hm₂ hget₂
    rcases hcases₁ with h₁ | ⟨hj₁, hname₁, hindex₁⟩
    · rcases hcases₂ with h₂ | ⟨-, -, hindex₂⟩
      · exact h.distinct j j' old₁ old₂ name₁ name₂ index hold₁ hold₂ h₁ h₂
      · have hlt := h.dyn_lt hold₁ h₁
        omega
    · rcases hcases₂ with h₂ | ⟨hj₂, hname₂, -⟩
      · have hlt := h.dyn_lt hold₂ h₂
        omega
      · exact ⟨hj₁.trans hj₂.symm, hname₁.trans hname₂.symm⟩
  · intro index hmem
    have hcases : index ∈ s.thunkedSlots ∨ index = s.table.length := by
      by_cases hne : index = s.table.length
      · exact .inr hne
      · exact .inl ((hthunked index hne).mp hmem)
    simp only [DynamicLoader.install, List.length_append, List.length_singleton]
    rcases hcases with hold | rfl
    · have hlt := h.thunked index hold
      omega
    · omega

/-- New contents in the range of a record that has no instance. -/
theorem write (h : Sound wraps E s) {n : ℕ} {r : DlModule} (hr : s.modules[n]? = some r)
    (hnone : r.inst = none) {table : List (Option Fn)} (hlen : table.length = s.table.length)
    (hsame : ∀ index, ¬ (r.tableBase ≤ index ∧ index < r.tableBase + r.tableCount) →
      table[index]? = s.table[index]?) : Sound wraps E { s with table := table } where
  ranges k m hm := hlen.symm ▸ h.ranges k m hm
  disjoint := h.disjoint
  backed k m i hm hi := by
    obtain ⟨bytes, info, imports, owner, hback⟩ := h.backed k m i hm hi
    refine ⟨bytes, info, imports, owner, hback.congr rfl ?_⟩
    intro index hle hlt
    refine hsame index ?_
    have hne : k ≠ n := by
      rintro rfl
      rw [hr] at hm
      cases hm
      rw [hnone] at hi
      cases hi
    rcases Nat.lt_or_gt_of_ne hne with hkn | hkn
    · have hbefore := h.disjoint k n m r hm hr hkn
      omega
    · have hafter := h.disjoint n k r m hr hm hkn
      omega
  outside k m index hm hmem := hlen.symm ▸ h.outside k m index hm hmem
  dynamic k m name index hm hget := by
    obtain ⟨hslot, i, fn, f, hi, hfn, hf, hrest⟩ := h.dynamic k m name index hm hget
    refine ⟨hslot, i, fn, f, hi, hfn, ?_, hrest⟩
    have hout := (h.outside k m index hm (JsMap.mem_values_of_get hget)).2 n r hr
    exact (hsame index hout).trans hf
  distinct := h.distinct
  thunked index hmem := hlen.symm ▸ h.thunked index hmem

/-- Fewer records. -/
theorem restrict (h : Sound wraps E s) {modules : List DlModule}
    (hsub : ∀ (k : ℕ) (m : DlModule), modules[k]? = some m → s.modules[k]? = some m) :
    Sound wraps E { s with modules := modules } where
  ranges k m hm := h.ranges k m (hsub k m hm)
  disjoint k k' m m' hm hm' := h.disjoint k k' m m' (hsub k m hm) (hsub k' m' hm')
  backed k m i hm := h.backed k m i (hsub k m hm)
  outside k m index hm hmem := by
    obtain ⟨hlt, hout⟩ := h.outside k m index (hsub k m hm) hmem
    exact ⟨hlt, fun k' m' hm' => hout k' m' (hsub k' m' hm')⟩
  dynamic k m name index hm := h.dynamic k m name index (hsub k m hm)
  distinct k k' m m' name name' index hm hm' :=
    h.distinct k k' m m' name name' index (hsub k m hm) (hsub k' m' hm')
  thunked := h.thunked

theorem setInst_place {n j : ℕ} {i : Instance} {m : DlModule}
    (hm : (s.modules.modify n fun m => { m with inst := some i })[j]? = some m) :
    ∃ old, s.modules[j]? = some old ∧ m.tableBase = old.tableBase ∧
      m.tableCount = old.tableCount ∧ m.dynSlots = old.dynSlots ∧
      m.elemSlots = old.elemSlots ∧ (j ≠ n → m = old) ∧
      (j = n → m = { old with inst := some i }) := by
  rw [List.getElem?_modify] at hm
  obtain ⟨old, hold, rfl⟩ := Option.map_eq_some_iff.mp hm
  by_cases hj : n = j
  · refine ⟨old, hold, ?_⟩
    simp [hj]
  · refine ⟨old, hold, ?_⟩
    simp [hj, Ne.symm hj]

/-- The instance of a record that had none. -/
theorem setInst (h : Sound wraps E s) {n : ℕ} {r : DlModule} (hr : s.modules[n]? = some r)
    (hnone : r.inst = none) {i : Instance}
    (hback : ∃ bytes info imports owner,
      Backed wraps E s.table { r with inst := some i } i bytes info imports owner) :
    Sound wraps E { s with
      modules := s.modules.modify n fun m => { m with inst := some i } } where
  ranges k m hm := by
    obtain ⟨old, hold, hbase, hcount, -⟩ := setInst_place hm
    rw [hbase, hcount]
    exact h.ranges k old hold
  disjoint k k' m m' hm hm' hlt := by
    obtain ⟨old, hold, hbase, hcount, -⟩ := setInst_place hm
    obtain ⟨old', hold', hbase', -⟩ := setInst_place hm'
    rw [hbase, hcount, hbase']
    exact h.disjoint k k' old old' hold hold' hlt
  backed k m i' hm hi' := by
    obtain ⟨old, hold, -, -, -, -, hne, heq⟩ := setInst_place hm
    by_cases hk : k = n
    · subst hk
      obtain rfl : r = old := Option.some.inj (hr.symm.trans hold)
      rw [heq rfl] at hi' ⊢
      cases hi'
      exact hback
    · rw [hne hk] at hi' ⊢
      exact h.backed k old i' hold hi'
  outside k m index hm hmem := by
    obtain ⟨old, hold, -, -, hdyn, -⟩ := setInst_place hm
    obtain ⟨hlt, hout⟩ := h.outside k old index hold (hdyn ▸ hmem)
    refine ⟨hlt, ?_⟩
    intro k' m' hm'
    obtain ⟨old', hold', hbase', hcount', -⟩ := setInst_place hm'
    rw [hbase', hcount']
    exact hout k' old' hold'
  dynamic k m name index hm hget := by
    obtain ⟨old, hold, -, -, hdyn, -, hne, heq⟩ := setInst_place hm
    have hold' := h.dynamic k old name index hold (hdyn ▸ hget)
    by_cases hk : k = n
    · subst hk
      obtain rfl : r = old := Option.some.inj (hr.symm.trans hold)
      -- a record without an instance has no dynamic slots
      obtain ⟨-, i', fn, f, hi', -⟩ := hold'
      rw [hnone] at hi'
      cases hi'
    · rw [hne hk]
      exact hold'
  distinct k k' m m' name name' index hm hm' hget hget' := by
    obtain ⟨old, hold, -, -, hdyn, -⟩ := setInst_place hm
    obtain ⟨old', hold', -, -, hdyn', -⟩ := setInst_place hm'
    exact h.distinct k k' old old' name name' index hold hold' (hdyn ▸ hget) (hdyn' ▸ hget')
  thunked := h.thunked

end Sound

section Instantiate

variable {E : Engine} {bytes : List UInt8} {imports : Imports} {owner : Owner}

theorem getElem?_overwrite {table fns : List (Option Fn)} {start : ℕ}
    (h : start + fns.length ≤ table.length) (index : ℕ) :
    (overwrite table start fns)[index]? =
      if start ≤ index ∧ index < start + fns.length then fns[index - start]?
      else table[index]? := by
  unfold overwrite
  have htake : (table.take start).length = start := by
    rw [List.length_take]
    omega
  by_cases hlow : index < start
  · rw [if_neg (by omega), List.append_assoc, List.getElem?_append_left (by omega),
      List.getElem?_take_of_lt hlow]
  · by_cases hhigh : index < start + fns.length
    · rw [if_pos (by omega), List.getElem?_append_left (by rw [List.length_append]; omega),
        List.getElem?_append_right (by omega), htake]
    · rw [if_neg (by omega), List.getElem?_append_right (by rw [List.length_append]; omega),
        List.getElem?_drop]
      congr 1
      rw [List.length_append]
      omega

theorem length_overwrite {table fns : List (Option Fn)} {start : ℕ}
    (h : start + fns.length ≤ table.length) :
    (overwrite table start fns).length = table.length := by
  simp only [overwrite, List.length_append, List.length_take, List.length_drop]
  omega

theorem elemStart_anchored (base : ℕ) (hbase : imports.tableBase = base) (hlt : base < 2 ^ 32)
    {offset : Offset} (h : anchored bytes base offset) :
    elemStart E bytes imports offset = some base := by
  cases offset with
  | const value =>
    simp only [elemStart, Option.some.injEq]
    exact h
  | global index =>
    simp only [anchored] at h
    split at h
    · rename_i i hi
      have hglobal : globalAt E bytes imports index = some (base : ℤ) := by
        simp only [globalAt, hi, h.1, h.2, hbase]
        simp
      simp only [elemStart, hglobal, Option.map_some, Option.some.injEq]
      omega
    · exact h.elim

/-- The element segment is in the module's own range. -/
def Placed (bytes : List UInt8) (base : ℕ) (info : Info) : Prop :=
  ∀ elem, info.elem = some elem → elem.funcIndices ≠ [] →
    sharesTable bytes = true ∧ anchored bytes base elem.offset

theorem initElements_placed {base : ℕ} (hbase : imports.tableBase = base)
    (hlt : (image bytes).elemCount ≠ 0 → base < 2 ^ 32)
    (hplaced : Placed bytes base (image bytes)) {table table' : List (Option Fn)}
    (h : initElements E bytes imports owner table = some table') :
    table'.length = table.length ∧
      (∀ index, ¬ (base ≤ index ∧ index < base + (image bytes).elemCount) →
        table'[index]? = table[index]?) ∧
      ∀ elem slot j, (image bytes).elem = some elem → elem.funcIndices[slot]? = some j →
        table'[base + slot]? = some (funcAt bytes imports owner j) := by
  unfold initElements at h
  cases helem : (image bytes).elem with
  | none =>
    simp only [helem, Option.some.injEq] at h
    subst h
    exact ⟨rfl, fun _ _ => rfl, by simp⟩
  | some elem =>
    simp only [helem] at h
    have hcount : (image bytes).elemCount = elem.funcIndices.length := by
      simp [Info.elemCount, helem]
    by_cases hempty : elem.funcIndices = []
    · have hsame : table' = table := by
        split at h
        · split at h
          · cases h
          · split at h
            · simp only [hempty, List.map_nil, overwrite, List.length_nil, Nat.add_zero,
                List.append_nil, List.take_append_drop, Option.some.injEq] at h
              exact h.symm
            · cases h
        · exact (Option.some.inj h).symm
      subst hsame
      refine ⟨rfl, fun _ _ => rfl, ?_⟩
      intro elem' slot j helem' hj
      obtain rfl : elem = elem' := Option.some.inj helem'
      simp [hempty] at hj
    · obtain ⟨hshares, hanchor⟩ := hplaced elem helem hempty
      have hpos : (image bytes).elemCount ≠ 0 := by
        rw [hcount]
        simpa using hempty
      rw [elemStart_anchored base hbase (hlt hpos) hanchor] at h
      simp only [hshares, if_true] at h
      split at h
      · rename_i hfits
        have hfits' : base + (elem.funcIndices.map (funcAt bytes imports owner)).length ≤
            table.length := by simpa using hfits
        cases h
        refine ⟨length_overwrite hfits', ?_, ?_⟩
        · intro index hout
          rw [getElem?_overwrite hfits', if_neg]
          simpa [hcount] using hout
        · intro elem' slot j helem' hj
          obtain rfl : elem = elem' := Option.some.inj helem'
          have hslot := (List.getElem?_eq_some_iff.mp hj).1
          rw [getElem?_overwrite hfits', if_pos (by simp; omega)]
          simp [hj]
      · cases h

/-- What an instantiation does to the table, and what it needs to succeed. -/
theorem instantiate_placed {base : ℕ} (hbase : imports.tableBase = base)
    (hlt : (image bytes).elemCount ≠ 0 → base < 2 ^ 32)
    (hplaced : Placed bytes base (image bytes)) {table table' : List (Option Fn)}
    {r : Option Instance} (h : instantiate E bytes imports owner table = (r, table')) :
    table'.length = table.length ∧
      (∀ index, ¬ (base ≤ index ∧ index < base + (image bytes).elemCount) →
        table'[index]? = table[index]?) ∧
      ∀ i, r = some i → i = newInstance E bytes imports owner ∧
        functionsLink bytes imports owner = true ∧ E.links bytes imports = true ∧
        ∀ elem slot j, (image bytes).elem = some elem → elem.funcIndices[slot]? = some j →
          table'[base + slot]? = some (funcAt bytes imports owner j) := by
  unfold instantiate at h
  split at h
  · rename_i hlink
    rw [Bool.and_eq_true] at hlink
    split at h
    · cases h
      exact ⟨rfl, fun _ _ => rfl, by simp⟩
    · rename_i written hwritten
      obtain ⟨hlen, hout, hentries⟩ := initElements_placed hbase hlt hplaced hwritten
      split at h
      · cases h
        refine ⟨hlen, hout, ?_⟩
        intro i hi
        exact ⟨(Option.some.inj hi).symm, hlink.1, hlink.2, hentries⟩
      · cases h
        exact ⟨hlen, hout, by simp⟩
  · cases h
    exact ⟨rfl, fun _ _ => rfl, by simp⟩

/-- After linking every function of the module is there. -/
theorem funcAt_linked (h : functionsLink bytes imports owner = true) (j : ℕ) :
    ∃ f, funcAt bytes imports owner j = some f := by
  unfold funcAt
  split
  · rename_i hj
    have hall := List.all_eq_true.mp h j (List.mem_range.mpr hj)
    exact Option.isSome_iff_exists.mp hall
  · exact ⟨_, rfl⟩

theorem funcAt_type (hE : E.Lawful) (h : E.links bytes imports = true) {j : ℕ} {f : Fn}
    (hf : funcAt bytes imports owner j = some f) : f.type = (image bytes).typeOf j := by
  unfold funcAt at hf
  split at hf
  · exact hE.importTypes bytes imports owner j f h hf
  · cases hf
    rfl

end Instantiate

end NixWasm.DynamicLoader
