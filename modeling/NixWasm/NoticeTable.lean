import NixWasm.NoticeServer
import Mathlib.Data.List.Nodup
import Mathlib.Data.List.Perm.Subperm

/-!
The table of the notification server with its timers. A valid table is one whose ids are
distinct and nonzero and whose pending sources are the timers of its notices; it stays valid
when a notice is taken out with its timer and when one is put in with a new timer.
-/
namespace NixWasm.NoticeServer

structure Valid (notices : List Notice) (sources : List (ℕ × BitVec 32)) : Prop where
  ids : (notices.map Notice.id).Nodup
  nonzero : ∀ notice ∈ notices, notice.id ≠ 0
  bounded : notices.length ≤ 128
  sourceIds : (sources.map Prod.fst).Nodup
  owned : ∀ source ∈ sources, source.1 ≠ 0 ∧
    ∃ notice ∈ notices, notice.id = source.2 ∧ notice.timer = source.1
  pending : ∀ notice ∈ notices, notice.timer ≠ 0 → (notice.timer, notice.id) ∈ sources

theorem valid_empty : Valid [] [] := by
  refine ⟨List.nodup_nil, ?_, by decide, List.nodup_nil, ?_, ?_⟩ <;> intro x hx <;> cases hx

section Lookup

theorem findFrom_some {id : BitVec 32} {notices : List Notice} {i index : ℕ} {notice : Notice}
    (h : findFrom id i notices = some (index, notice)) :
    notice.id = id ∧ ∃ before after, notices = before ++ notice :: after ∧
      index = i + before.length := by
  induction notices generalizing i with
  | nil => cases h
  | cons first rest ih =>
    rw [findFrom] at h
    by_cases hid : first.id = id
    · rw [if_pos hid] at h
      cases h
      exact ⟨hid, [], rest, rfl, rfl⟩
    · rw [if_neg hid] at h
      obtain ⟨heq, before, after, rfl, rfl⟩ := ih h
      exact ⟨heq, first :: before, after, rfl, by simp only [List.length_cons]; omega⟩

theorem findFrom_none {id : BitVec 32} {notices : List Notice} {i : ℕ} :
    findFrom id i notices = none ↔ ∀ notice ∈ notices, notice.id ≠ id := by
  induction notices generalizing i with
  | nil => simp [findFrom]
  | cons first rest ih =>
    rw [findFrom]
    by_cases hid : first.id = id
    · simp [hid]
    · rw [if_neg hid, ih]
      simp [hid]

/-- The notice that is found, in its place. -/
theorem findNotice_some {id : BitVec 32} {notices : List Notice} {index : ℕ} {notice : Notice}
    (h : findNotice notices id = some (index, notice)) :
    notice.id = id ∧ ∃ before after, notices = before ++ notice :: after ∧
      index = before.length := by
  obtain ⟨hid, before, after, hsplit, hindex⟩ := findFrom_some h
  exact ⟨hid, before, after, hsplit, by omega⟩

theorem findNotice_isSome {id : BitVec 32} {notices : List Notice} :
    (findNotice notices id).isSome = true ↔ id ∈ notices.map Notice.id := by
  cases hfind : findNotice notices id with
  | none =>
    have hnone := findFrom_none.mp hfind
    simp only [Option.isSome_none, Bool.false_eq_true, List.mem_map, false_iff]
    rintro ⟨notice, hmem, hid⟩
    exact hnone notice hmem hid
  | some found =>
    obtain ⟨hid, before, after, hsplit, -⟩ := findNotice_some (hfind.trans rfl)
    simp only [Option.isSome_some, true_iff, List.mem_map]
    exact ⟨found.2, by rw [hsplit]; simp, hid⟩

end Lookup

section Parts

variable {before after : List Notice} {notice : Notice} {sources : List (ℕ × BitVec 32)}

theorem Valid.perm {notices other : List Notice} (h : Valid notices sources)
    (hperm : notices.Perm other) : Valid other sources where
  ids := (hperm.map Notice.id).nodup_iff.mp h.ids
  nonzero := fun n hn => h.nonzero n (hperm.mem_iff.mpr hn)
  bounded := hperm.length_eq ▸ h.bounded
  sourceIds := h.sourceIds
  owned := fun source hsource => by
    obtain ⟨hne, n, hn, heq⟩ := h.owned source hsource
    exact ⟨hne, n, hperm.mem_iff.mp hn, heq⟩
  pending := fun n hn => h.pending n (hperm.mem_iff.mpr hn)

/-- Two notices of a valid table with one id are the same. -/
theorem Valid.eq_of_id {notices : List Notice} (h : Valid notices sources) {m n : Notice}
    (hm : m ∈ notices) (hn : n ∈ notices) (hid : m.id = n.id) : m = n :=
  List.inj_on_of_nodup_map h.ids hm hn hid

theorem Valid.timer_eq {notices : List Notice} (h : Valid notices sources) {m n : Notice}
    (hm : m ∈ notices) (hn : n ∈ notices) (hne : m.timer ≠ 0) (htimer : m.timer = n.timer) :
    m = n := by
  have hpm := h.pending m hm hne
  have hpn := h.pending n hn (htimer ▸ hne)
  have hpair := List.inj_on_of_nodup_map h.sourceIds hpm hpn htimer
  exact h.eq_of_id hm hn (congrArg Prod.snd hpair)

theorem mem_removeTimer {timer : ℕ} {source : ℕ × BitVec 32} (hne : source.1 ≠ 0) :
    source ∈ removeTimer timer sources ↔ source ∈ sources ∧ source.1 ≠ timer := by
  unfold removeTimer
  by_cases htimer : timer = 0
  · subst htimer
    simp [hne]
  · rw [if_pos htimer]
    simp

/-- Taking a notice out, with its timer. -/
theorem Valid.removed (h : Valid (before ++ notice :: after) sources) :
    Valid (before ++ after) (removeTimer notice.timer sources) ∧
      ∀ n ∈ before ++ after, n.id ≠ notice.id := by
  have hmiddle : (before ++ notice :: after).Perm (notice :: (before ++ after)) :=
    List.perm_middle
  have hfront := h.perm hmiddle
  have hids := List.nodup_cons.mp hfront.ids
  have hother : ∀ n ∈ before ++ after, n.id ≠ notice.id := fun n hn heq =>
    hids.1 (heq ▸ List.mem_map_of_mem hn)
  have hsubset : ∀ source, source ∈ removeTimer notice.timer sources → source ∈ sources := by
    intro source hsource
    unfold removeTimer at hsource
    split at hsource
    · exact List.mem_of_mem_filter hsource
    · exact hsource
  refine ⟨⟨hids.2, fun n hn => hfront.nonzero n (List.mem_cons_of_mem notice hn), ?_, ?_, ?_, ?_⟩,
    hother⟩
  · have hbound := hfront.bounded
    rw [List.length_cons] at hbound
    omega
  · unfold removeTimer
    split
    · exact (List.filter_sublist.map Prod.fst).nodup h.sourceIds
    · exact h.sourceIds
  · intro source hsource
    obtain ⟨hne, n, hn, hid, htimer⟩ := hfront.owned source (hsubset source hsource)
    refine ⟨hne, n, ?_, hid, htimer⟩
    rcases List.mem_cons.mp hn with rfl | hn
    · exact absurd htimer.symm ((mem_removeTimer hne).mp hsource).2
    · exact hn
  · intro n hn hne
    have hn' := List.mem_cons_of_mem notice hn
    refine (mem_removeTimer hne).mpr ⟨hfront.pending n hn' hne, fun htimer => ?_⟩
    have hsame := hfront.timer_eq hn' (List.mem_cons_self ..) hne htimer
    exact hother n hn (congrArg Notice.id hsame)

/-- Putting a notice in, with the timer that it may have. -/
theorem Valid.added {notices : List Notice} (h : Valid notices sources) (g : Glib)
    (server : Server) (hsources : server.sources = sources) (hid : notice.id ≠ 0)
    (hnew : ∀ n ∈ notices, n.id ≠ notice.id) (hroom : notices.length < 128)
    (htimer : notice.timer = 0) :
    Valid ((withTimer g server notice).1 :: notices) (withTimer g server notice).2 := by
  subst hsources
  have hfresh := g.timeoutAdd_fresh server
  have hnew' : notice.id ∉ notices.map Notice.id := by
    rintro hmem
    obtain ⟨n, hn, heq⟩ := List.mem_map.mp hmem
    exact hnew n hn heq
  unfold withTimer
  split
  · refine ⟨List.nodup_cons.mpr ⟨hnew', h.ids⟩, ?_, hroom, ?_, ?_, ?_⟩
    · intro n hn
      rcases List.mem_cons.mp hn with rfl | hn
      · exact hid
      · exact h.nonzero n hn
    · rw [List.map_append, List.map_singleton]
      exact List.nodup_append.mpr ⟨h.sourceIds, List.nodup_singleton _, fun a ha b hb => by
        obtain rfl := List.mem_singleton.mp hb
        rintro rfl
        exact hfresh ha⟩
    · intro source hsource
      rcases List.mem_append.mp hsource with hold | hnew
      · obtain ⟨hne, n, hn, heq⟩ := h.owned source hold
        exact ⟨hne, n, List.mem_cons_of_mem _ hn, heq⟩
      · obtain rfl := List.mem_singleton.mp hnew
        exact ⟨g.timeoutAdd_ne_zero server, _, List.mem_cons_self .., rfl, rfl⟩
    · intro n hn hne
      rcases List.mem_cons.mp hn with rfl | hn
      · exact List.mem_append_right _ (List.mem_singleton.mpr rfl)
      · exact List.mem_append_left _ (h.pending n hn hne)
  · refine ⟨List.nodup_cons.mpr ⟨hnew', h.ids⟩, ?_, hroom, h.sourceIds, ?_, ?_⟩
    · intro n hn
      rcases List.mem_cons.mp hn with rfl | hn
      · exact hid
      · exact h.nonzero n hn
    · intro source hsource
      obtain ⟨hne, n, hn, heq⟩ := h.owned source hsource
      exact ⟨hne, n, List.mem_cons_of_mem _ hn, heq⟩
    · intro n hn hne
      rcases List.mem_cons.mp hn with rfl | hn
      · exact absurd htimer hne
      · exact h.pending n hn hne

end Parts

section Ids

theorem allocateId_some {notices : List Notice} {rounds : ℕ} {next : BitVec 32}
    {found : BitVec 32 × BitVec 32} (h : allocateId notices rounds next = some found) :
    found.1 ≠ 0 ∧ ∀ notice ∈ notices, notice.id ≠ found.1 := by
  induction rounds generalizing next with
  | zero => cases h
  | succ rounds ih =>
    rw [allocateId] at h
    by_cases htaken : next = 0 ∨ (findNotice notices next).isSome = true
    · rw [if_pos htaken] at h
      exact ih h
    · rw [if_neg htaken] at h
      cases h
      obtain ⟨hzero, hlive⟩ := not_or.mp htaken
      refine ⟨hzero, fun notice hmem hid => hlive (findNotice_isSome.mpr ?_)⟩
      have hid' : notice.id = next := hid
      exact hid' ▸ List.mem_map_of_mem hmem

theorem allocateId_none {notices : List Notice} {rounds : ℕ} {next : BitVec 32}
    (h : allocateId notices rounds next = none) :
    ∀ i, i < rounds → next + BitVec.ofNat 32 i ∈ (0#32) :: notices.map Notice.id := by
  induction rounds generalizing next with
  | zero => intro i hi; omega
  | succ rounds ih =>
    rw [allocateId] at h
    by_cases htaken : next = 0 ∨ (findNotice notices next).isSome = true
    · rw [if_pos htaken] at h
      intro i hi
      cases i with
      | zero =>
        rw [BitVec.add_zero]
        rcases htaken with rfl | hlive
        · exact List.mem_cons_self ..
        · exact List.mem_cons_of_mem _ (findNotice_isSome.mp hlive)
      | succ i =>
        have hnext := ih h i (by omega)
        have hshift : next + 1 + BitVec.ofNat 32 i = next + BitVec.ofNat 32 (i + 1) := by
          rw [Nat.add_comm i 1, BitVec.ofNat_add, BitVec.add_assoc]
          rfl
        rwa [hshift] at hnext
    · rw [if_neg htaken] at h
      cases h

/-- Among more ids than there are notices one is free, wherever the counter stands. -/
theorem allocateId_isSome {notices : List Notice} (next : BitVec 32)
    (hbounded : notices.length ≤ 128) :
    ∃ found, allocateId notices (notices.length + 2) next = some found := by
  cases hfound : allocateId notices (notices.length + 2) next with
  | some found => exact ⟨found, rfl⟩
  | none =>
    exfalso
    have htaken := allocateId_none hfound
    have hdistinct : ((List.range (notices.length + 2)).map
        fun i => next + BitVec.ofNat 32 i).Nodup := by
      refine List.Nodup.map_on (fun i hi j hj heq => ?_) List.nodup_range
      rw [List.mem_range] at hi hj
      have hofNat := congrArg BitVec.toNat ((BitVec.add_right_inj next).mp heq)
      rw [BitVec.toNat_ofNat, BitVec.toNat_ofNat, Nat.mod_eq_of_lt (by omega),
        Nat.mod_eq_of_lt (by omega)] at hofNat
      exact hofNat
    have hsubset : ((List.range (notices.length + 2)).map fun i => next + BitVec.ofNat 32 i) ⊆
        (0#32) :: notices.map Notice.id := by
      intro id hid
      obtain ⟨i, hi, rfl⟩ := List.mem_map.mp hid
      exact htaken i (List.mem_range.mp hi)
    have hlength := (hdistinct.subperm hsubset).length_le
    simp only [List.length_map, List.length_range, List.length_cons] at hlength
    omega

end Ids

end NixWasm.NoticeServer
