import NixWasm.Coroutines
import Mathlib.Algebra.BigOperators.Group.Finset.Basic

/-!
Rules for tasks that cannot fail. Under the first, each task of a pool owns a part of the
resources and the state stands in a relation to the sum of all parts: a step may only swap
its own part. Under the second, each task knows facts about the state, and no step makes
false what another task knows. The third checks the steps of one uninterrupted task.
-/
namespace NixWasm.Coroutines

section Ownership

variable {σ ε L α β M : Type} [AddCommMonoid M] (inv : σ → M → Prop) (fits : M → L → Prop)
  (enabled : L → σ → Prop)

/-- The task's part goes from `m` to `m'`, whatever the others own. -/
def Swaps (m : M) (_ : L) (s : σ) (m' : M) (s' : σ) : Prop :=
  ∀ frame, inv s (m + frame) → inv s' (m' + frame)

/-- A task that owns `m` and keeps the account with every step. -/
def Owning (done : M → α → Prop) : M → Task σ ε L α → Prop :=
  Follows fits (fun m label s => enabled label s ∧ ∃ frame, inv s (m + frame)) (Swaps inv) done

variable {inv fits enabled} {done : M → α → Prop} {done' : M → β → Prop}

/-- What the task owns besides is not touched. -/
theorem Swaps.frame {m m' : M} {label : L} {s s' : σ} (h : Swaps inv m label s m' s') (outer : M) :
    Swaps inv (m + outer) label s (m' + outer) s' := by
  intro frame hinv
  rw [add_assoc] at hinv ⊢
  exact h _ hinv

theorem owning_bind {x : Task σ ε L α} {f : α → Task σ ε L β} {m : M}
    (hx : Owning inv fits enabled done m x)
    (hf : ∀ m' a, done m' a → Owning inv fits enabled done' m' (f a)) :
    Owning inv fits enabled done' m (x >>= f) :=
  follows_bind hx hf

theorem owning_act {label : L} {f : σ → α × σ} {m : M} (hfits : fits m label)
    (h : ∀ s frame, enabled label s → inv s (m + frame) →
      ∃ m', Swaps inv m label s m' (f s).2 ∧ done m' (f s).1) :
    Owning inv fits enabled done m (Task.act label f : Task σ ε L α) := by
  refine follows_act hfits fun s hs => ?_
  obtain ⟨henabled, frame, hinv⟩ := hs
  exact h s frame henabled hinv

/-- One step of a pool keeps the account. -/
theorem owning_turn [IsEmpty ε] {ι : Type} [Fintype ι] [DecidableEq ι]
    {system : σ × (ι → Task σ ε L α)} {parts : ι → M} {i : ι}
    (h : ∀ j, Owning inv fits enabled done (parts j) (system.2 j))
    (hinv : inv system.1 (∑ j, parts j))
    (henabled : ∀ label, (system.2 i).label = some label → enabled label system.1) :
    ∃ parts' : ι → M, (∀ j, Owning inv fits enabled done (parts' j) ((turn system i).2 j)) ∧
      inv (turn system i).1 (∑ j, parts' j) := by
  have hsplit : ∀ parts : ι → M, ∑ j, parts j = parts i + ∑ j ∈ Finset.univ.erase i, parts j :=
    fun parts => (Finset.add_sum_erase _ parts (Finset.mem_univ i)).symm
  rcases follows_turn h fun label hlabel => ⟨henabled label hlabel, _, hsplit parts ▸ hinv⟩ with
    ⟨j, e, -⟩ | hsame | ⟨label, m', -, hswap, hnext⟩
  · exact (IsEmpty.false e).elim
  · exact ⟨parts, by rw [hsame]; exact h, by rw [hsame]; exact hinv⟩
  · refine ⟨Function.update parts i m', hnext, ?_⟩
    have hrest : ∑ j ∈ Finset.univ.erase i, Function.update parts i m' j =
        ∑ j ∈ Finset.univ.erase i, parts j :=
      Finset.sum_congr rfl fun j hj => Function.update_of_ne (Finset.ne_of_mem_erase hj) ..
    rw [hsplit, Function.update_self, hrest]
    exact hswap _ (hsplit parts ▸ hinv)

/-- The account holds at every step of an uninterrupted run, and after it. -/
theorem owning_alone [IsEmpty ε] (henabled : ∀ m label s, fits m label → inv s m → enabled label s)
    (task : Task σ ε L α) :
    ∀ {m : M} {s : σ}, Owning inv fits enabled done m task → inv s m →
      (∀ label s' s'', (label, s', s'') ∈ task.steps s → ∃ m', fits m' label ∧ inv s' m') ∧
        ∃ a s' m', task.alone s = .ok a s' ∧ done m' a ∧ inv s' m' := by
  induction task with
  | ret a =>
    intro m s howning hinv
    refine ⟨fun label s' s'' hmem => ?_, a, s, m, rfl, howning, hinv⟩
    cases hmem
  | fail e => exact (IsEmpty.false e).elim
  | step label effect next ih =>
    intro m s howning hinv
    have hall : inv s (m + 0) := by rwa [add_zero]
    rcases howning.2 s ⟨henabled m label s howning.1 hinv, 0, hall⟩ with
      ⟨e, -⟩ | ⟨m', hswap, hnext⟩
    · exact (IsEmpty.false e).elim
    · have hinv' : inv (effect s) m' := by simpa using hswap 0 hall
      obtain ⟨hsteps, hend⟩ := ih s hnext hinv'
      refine ⟨fun label' s' s'' hmem => ?_, hend⟩
      rcases List.mem_cons.mp hmem with heq | hmem
      · cases heq
        exact ⟨m, howning.1, hinv⟩
      · exact hsteps label' s' s'' hmem

end Ownership

section Knowledge

variable {σ ε L α β N : Type} (good : σ → Prop) (grows : σ → σ → Prop) (enabled : L → σ → Prop)
  (shows : N → (σ → Prop) → L → Prop) (note : N → σ → N)

/-- Once true, a fact stays true. -/
def Stable (fact : σ → Prop) : Prop := ∀ s s', fact s → grows s s' → fact s'

/-- A task that knows a stable fact and keeps notes; its steps keep the state good and only
let it grow, and each shows what its label promises. -/
def Knowing (done : (σ → Prop) × N → α → Prop) : (σ → Prop) × N → Task σ ε L α → Prop :=
  Follows (fun m label => Stable grows m.1 ∧ shows m.2 m.1 label)
    (fun m label s => enabled label s ∧ good s ∧ m.1 s)
    (fun m _ s m' s' => good s' ∧ grows s s' ∧ m'.1 s' ∧ m'.2 = note m.2 s) done

variable {good grows enabled shows note} {done : (σ → Prop) × N → α → Prop}

theorem knowing_bind (done : (σ → Prop) × N → α → Prop) {done' : (σ → Prop) × N → β → Prop}
    {x : Task σ ε L α} {f : α → Task σ ε L β}
    {m : (σ → Prop) × N} (hx : Knowing good grows enabled shows note done m x)
    (hf : ∀ m' a, done m' a → Knowing good grows enabled shows note done' m' (f a)) :
    Knowing good grows enabled shows note done' m (x >>= f) :=
  follows_bind hx hf

theorem knowing_act {label : L} {f : σ → α × σ} {fact : σ → Prop} {n : N}
    (hstable : Stable grows fact) (hshows : shows n fact label)
    (h : ∀ s, enabled label s → good s → fact s → good (f s).2 ∧ grows s (f s).2 ∧
      ∃ fact', fact' (f s).2 ∧ done (fact', note n s) (f s).1) :
    Knowing good grows enabled shows note done (fact, n) (Task.act label f : Task σ ε L α) := by
  refine follows_act ⟨hstable, hshows⟩ fun s hs => ?_
  obtain ⟨hgood, hgrows, fact', hfact, hdone⟩ := h s hs.1 hs.2.1 hs.2.2
  exact ⟨(fact', note n s), ⟨hgood, hgrows, hfact, rfl⟩, hdone⟩

/-- What the tasks of a pool know, with their notes. -/
structure Known {ι : Type} (good : σ → Prop) (grows : σ → σ → Prop) (enabled : L → σ → Prop)
    (shows : N → (σ → Prop) → L → Prop) (note : N → σ → N) (system : σ × (ι → Task σ ε L α))
    (known : ι → (σ → Prop) × N) : Prop where
  tasks : ∀ j, Knowing good grows enabled shows note (fun m _ => Stable grows m.1) (known j)
    (system.2 j)
  good : good system.1
  facts : ∀ j, (known j).1 system.1

theorem Known.stable {ι : Type} {system : σ × (ι → Task σ ε L α)} {known : ι → (σ → Prop) × N}
    [IsEmpty ε] (h : Known good grows enabled shows note system known) (j : ι) :
    Stable grows (known j).1 := by
  have htask := h.tasks j
  cases hj : system.2 j with
  | ret a =>
    rw [hj] at htask
    exact htask
  | fail e => exact (IsEmpty.false e).elim
  | step label effect next =>
    rw [hj] at htask
    exact htask.1.1

theorem Known.shown {ι : Type} {system : σ × (ι → Task σ ε L α)} {known : ι → (σ → Prop) × N}
    (h : Known good grows enabled shows note system known) {j : ι} {label : L}
    (hlabel : (system.2 j).label = some label) : shows (known j).2 (known j).1 label := by
  have htask := h.tasks j
  cases hj : system.2 j with
  | ret a =>
    rw [hj] at hlabel
    cases hlabel
  | fail e =>
    rw [hj] at hlabel
    cases hlabel
  | step label' effect next =>
    rw [hj] at hlabel htask
    cases hlabel
    exact htask.1.2

/-- A change from outside under which the state grows. -/
theorem Known.outside {ι : Type} {system : σ × (ι → Task σ ε L α)} {known : ι → (σ → Prop) × N}
    [IsEmpty ε] (h : Known good grows enabled shows note system known) {s' : σ} (hgood : good s')
    (hgrows : grows system.1 s') : Known good grows enabled shows note (s', system.2) known :=
  ⟨h.tasks, hgood, fun j => h.stable j _ _ (h.facts j) hgrows⟩

/-- One step of a pool: the task that takes it makes its note. -/
theorem Known.turn {ι : Type} [DecidableEq ι] [IsEmpty ε] {system : σ × (ι → Task σ ε L α)}
    {known : ι → (σ → Prop) × N} (h : Known good grows enabled shows note system known) {i : ι}
    {label : L} (hlabel : (system.2 i).label = some label) (henabled : enabled label system.1) :
    ∃ fact, Known good grows enabled shows note (turn system i)
      (Function.update known i (fact, note (known i).2 system.1)) := by
  have hrely : ∀ label', (system.2 i).label = some label' →
      enabled label' system.1 ∧ good system.1 ∧ (known i).1 system.1 := by
    intro label' hlabel'
    cases hlabel.symm.trans hlabel'
    exact ⟨henabled, h.good, h.facts i⟩
  have htask := h.tasks i
  cases hi : system.2 i with
  | ret a =>
    rw [hi] at hlabel
    cases hlabel
  | fail e => exact (IsEmpty.false e).elim
  | step label' effect next =>
    rw [hi] at htask
    rw [hi] at hrely
    have hturn : (Coroutines.turn system i).1 = effect system.1 := by
      simp only [Coroutines.turn, hi, Task.advance]
    have hnext : (Coroutines.turn system i).2 i = next system.1 := by
      rw [turn_self, hi]
      rfl
    rcases htask.2 system.1 (hrely label' rfl)
      with ⟨e, -⟩ | ⟨⟨fact, n⟩, ⟨hgood, hgrows, hfact, hn⟩, hrest⟩
    · exact (IsEmpty.false e).elim
    · obtain rfl : n = note (known i).2 system.1 := hn
      refine ⟨fact, fun j => ?_, hturn ▸ hgood, fun j => ?_⟩
      · by_cases hj : j = i
        · subst hj
          rw [Function.update_self, hnext]
          exact hrest
        · rw [Function.update_of_ne hj, turn_of_ne _ hj]
          exact h.tasks j
      · rw [hturn]
        by_cases hj : j = i
        · subst hj
          rw [Function.update_self]
          exact hfact
        · rw [Function.update_of_ne hj]
          exact h.stable j _ _ (h.facts j) hgrows

end Knowledge

section Tracing

variable {σ ε L α β : Type} (given : L → σ → Prop) (check : L → σ → σ → Prop)

/-- Every step of the uninterrupted task passes the check on what it changes, as long as what
is given holds, and the task ends as it should. -/
def Traced (post : α → σ → Prop) : Task σ ε L α → σ → Prop
  | .ret a, s => post a s
  | .fail _, _ => True
  | .step label effect next, s =>
    given label s → check label s (effect s) ∧ Traced post (next s) (effect s)

variable {given check} {post : α → σ → Prop} {post' : β → σ → Prop}

theorem traced_bind (post : α → σ → Prop) {x : Task σ ε L α} {f : α → Task σ ε L β} {s : σ}
    (hx : Traced given check post x s)
    (hf : ∀ a s', post a s' → Traced given check post' (f a) s') :
    Traced given check post' (x >>= f) s := by
  induction x generalizing s with
  | ret a => exact hf a s hx
  | fail e => trivial
  | step label effect next ih =>
    intro hgiven
    exact ⟨(hx hgiven).1, ih s (hx hgiven).2⟩

theorem traced_act {label : L} {f : σ → α × σ} {s : σ}
    (h : given label s → check label s (f s).2 ∧ post (f s).1 (f s).2) :
    Traced given check post (Task.act label f : Task σ ε L α) s := h

theorem traced_alone [IsEmpty ε] {task : Task σ ε L α} {s : σ}
    (h : Traced given check post task s)
    (hgiven : ∀ label s' s'', (label, s', s'') ∈ task.steps s → given label s') :
    (∀ label s' s'', (label, s', s'') ∈ task.steps s → check label s' s'') ∧
      ∃ a s', task.alone s = .ok a s' ∧ post a s' := by
  induction task generalizing s with
  | ret a =>
    refine ⟨fun label s' s'' hmem => ?_, a, s, rfl, h⟩
    cases hmem
  | fail e => exact (IsEmpty.false e).elim
  | step label effect next ih =>
    obtain ⟨hcheck, hnext⟩ := h (hgiven label s _ List.mem_cons_self)
    obtain ⟨hsteps, hend⟩ := ih s hnext fun label' s' s'' hmem =>
      hgiven label' s' s'' (List.mem_cons_of_mem _ hmem)
    refine ⟨fun label' s' s'' hmem => ?_, hend⟩
    rcases List.mem_cons.mp hmem with heq | hmem
    · cases heq
      exact hcheck
    · exact hsteps label' s' s'' hmem

end Tracing

end NixWasm.Coroutines
