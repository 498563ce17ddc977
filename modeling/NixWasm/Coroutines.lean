import NixWasm.Effects
import NixWasm.Runs

/-!
Suspended programs over a shared state. A task runs in atomic steps, between which any
other task may run; each step carries a label that says what it is about to do. A task
that is never interrupted is an ordinary program with exceptions. `Follows` checks the
steps of one task against what it may rely on and what it owes the others, and
`follows_turn` puts the tasks of a pool together.
-/
namespace NixWasm.Coroutines

open Effects Runs

/-- A task: finished, failed, or about to take a step that depends on the state. -/
inductive Task (σ ε L α : Type)
  | ret (a : α)
  | fail (e : ε)
  | step (label : L) (effect : σ → σ) (next : σ → Task σ ε L α)

namespace Task

variable {σ ε L α β : Type}

def bind : Task σ ε L α → (α → Task σ ε L β) → Task σ ε L β
  | ret a, f => f a
  | fail e, _ => fail e
  | step label effect next, f => step label effect fun s => (next s).bind f

instance : Monad (Task σ ε L) where
  pure := ret
  bind := bind

/-- A program run as one step. -/
def atom (label : L) (x : EStateM ε σ α) : Task σ ε L α :=
  step label (fun s => final (x s)) fun s =>
    match x s with
    | .ok a _ => ret a
    | .error e _ => fail e

/-- A step that cannot fail. -/
def act (label : L) (f : σ → α × σ) : Task σ ε L α :=
  step label (fun s => (f s).2) fun s => ret (f s).1

/-- What the next step is about to do, if there is one. -/
def label : Task σ ε L α → Option L
  | step label _ _ => some label
  | _ => none

/-- What a finished task returned. -/
def value : Task σ ε L α → Option α
  | ret a => some a
  | _ => none

/-- One step. -/
def advance : Task σ ε L α → σ → σ × Task σ ε L α
  | step _ effect next, s => (effect s, next s)
  | task, s => (s, task)

/-- All steps without an interruption. -/
def alone : Task σ ε L α → EStateM ε σ α
  | ret a => pure a
  | fail e => throw e
  | step _ effect next => fun s => (next s).alone (effect s)

/-- The steps of an uninterrupted run, each with the state before and the state after it. -/
def steps : Task σ ε L α → σ → List (L × σ × σ)
  | step label effect next, s => (label, s, effect s) :: (next s).steps (effect s)
  | _, _ => []

@[simp] theorem alone_pure (a : α) : (pure a : Task σ ε L α).alone = pure a := rfl

theorem alone_bind (x : Task σ ε L α) (f : α → Task σ ε L β) :
    (x >>= f).alone = x.alone >>= fun a => (f a).alone := by
  induction x with
  | ret a => rfl
  | fail e => rfl
  | step label effect next ih =>
    funext s
    exact congrFun (ih s) (effect s)

/-- A step of two programs in sequence is one of the first, or of the second after it. -/
theorem mem_steps_bind {x : Task σ ε L α} {f : α → Task σ ε L β} {s : σ} {t : L × σ × σ}
    (h : t ∈ (x >>= f).steps s) :
    t ∈ x.steps s ∨ ∃ a s', x.alone s = .ok a s' ∧ t ∈ (f a).steps s' := by
  induction x generalizing s with
  | ret a => exact Or.inr ⟨a, s, rfl, h⟩
  | fail e => cases h
  | step label effect next ih =>
    rcases List.mem_cons.mp h with heq | hmem
    · exact Or.inl (List.mem_cons.mpr (Or.inl heq))
    · rcases ih s hmem with hfirst | hsecond
      · exact Or.inl (List.mem_cons_of_mem _ hfirst)
      · exact Or.inr hsecond

@[simp] theorem alone_atom (label : L) (x : EStateM ε σ α) : (atom label x).alone = x := by
  funext s
  unfold atom
  simp only [alone]
  cases hx : x s <;> rfl

end Task

section Turns

variable {σ ε L α ι : Type} [DecidableEq ι]

/-- One step of one of the tasks. -/
def turn (system : σ × (ι → Task σ ε L α)) (i : ι) : σ × (ι → Task σ ε L α) :=
  (((system.2 i).advance system.1).1,
    Function.update system.2 i ((system.2 i).advance system.1).2)

theorem turn_self (system : σ × (ι → Task σ ε L α)) (i : ι) :
    (turn system i).2 i = ((system.2 i).advance system.1).2 :=
  Function.update_self ..

theorem turn_of_ne (system : σ × (ι → Task σ ε L α)) {i j : ι} (h : j ≠ i) :
    (turn system i).2 j = system.2 j :=
  Function.update_of_ne h ..

/-- A task that failed takes no more steps. -/
theorem turn_fail {system : σ × (ι → Task σ ε L α)} {i j : ι} {e : ε}
    (h : system.2 j = .fail e) : (turn system i).2 j = .fail e := by
  by_cases hj : j = i
  · subst hj
    simp only [turn_self, h, Task.advance]
  · rw [turn_of_ne _ hj, h]

end Turns

section Outlines

variable {σ ε L α β M : Type} (fits : M → L → Prop) (rely : M → L → σ → Prop)
  (owe : M → L → σ → M → σ → Prop)

/-- From mode `m` on, every step of the task fits its mode, and taken where it may rely
on the state it leads to a mode that does what the task owes, or it fails. -/
def Follows (done : M → α → Prop) : M → Task σ ε L α → Prop
  | m, .ret a => done m a
  | _, .fail _ => True
  | m, .step label effect next => fits m label ∧ ∀ s, rely m label s →
    (∃ e, next s = .fail e) ∨ ∃ m', owe m label s m' (effect s) ∧ Follows done m' (next s)

variable {fits rely owe} {done : M → α → Prop} {done' : M → β → Prop}

theorem follows_pure {m : M} {a : α} (h : done m a) :
    Follows fits rely owe done m (pure a : Task σ ε L α) := h

theorem follows_bind {x : Task σ ε L α} {f : α → Task σ ε L β} {m : M}
    (hx : Follows fits rely owe done m x)
    (hf : ∀ m' a, done m' a → Follows fits rely owe done' m' (f a)) :
    Follows fits rely owe done' m (x >>= f) := by
  induction x generalizing m with
  | ret a => exact hf m a hx
  | fail e => trivial
  | step label effect next ih =>
    refine ⟨hx.1, fun s hs => ?_⟩
    rcases hx.2 s hs with ⟨e, he⟩ | ⟨m', howe, hnext⟩
    · exact .inl ⟨e, by simp only [he, Task.bind]⟩
    · exact .inr ⟨m', howe, ih s hnext⟩

theorem follows_mono {x : Task σ ε L α} {m : M} {after : M → α → Prop}
    (h : Follows fits rely owe done m x) (hdone : ∀ m' a, done m' a → after m' a) :
    Follows fits rely owe after m x := by
  induction x generalizing m with
  | ret a => exact hdone m a h
  | fail e => trivial
  | step label effect next ih =>
    refine ⟨h.1, fun s hs => (h.2 s hs).imp_right ?_⟩
    rintro ⟨m', howe, hnext⟩
    exact ⟨m', howe, ih s hnext⟩

theorem follows_atom {label : L} {x : EStateM ε σ α} {m : M} (hfits : fits m label)
    (h : ∀ s, rely m label s →
      Wp x (fun a s' => ∃ m', owe m label s m' s' ∧ done m' a) (fun _ _ => True) s) :
    Follows fits rely owe done m (Task.atom label x) := by
  refine ⟨hfits, fun s hs => ?_⟩
  have hwp := h s hs
  unfold Wp at hwp
  simp only [final]
  cases hx : x s with
  | ok a s' =>
    rw [hx] at hwp
    exact .inr hwp
  | error e s' => exact .inl ⟨e, rfl⟩

theorem follows_act {label : L} {f : σ → α × σ} {m : M} (hfits : fits m label)
    (h : ∀ s, rely m label s → ∃ m', owe m label s m' (f s).2 ∧ done m' (f s).1) :
    Follows fits rely owe done m (Task.act label f : Task σ ε L α) :=
  ⟨hfits, fun s hs => .inr (h s hs)⟩

variable {ι : Type} [DecidableEq ι]

/-- One step of a pool whose tasks all follow their modes. -/
theorem follows_turn {owe : ι → M → L → σ → M → σ → Prop} {system : σ × (ι → Task σ ε L α)}
    {modes : ι → M} {i : ι} (h : ∀ j, Follows fits rely (owe j) done (modes j) (system.2 j))
    (hrely : ∀ label, (system.2 i).label = some label → rely (modes i) label system.1) :
    (∃ j e, (turn system i).2 j = .fail e) ∨ turn system i = system ∨
      ∃ label m', (system.2 i).label = some label ∧
        owe i (modes i) label system.1 m' (turn system i).1 ∧
        ∀ j, Follows fits rely (owe j) done (Function.update modes i m' j)
          ((turn system i).2 j) := by
  obtain ⟨s, tasks⟩ := system
  have hi := h i
  cases htask : tasks i with
  | ret a =>
    refine .inr (.inl ?_)
    simp only [turn, htask, Task.advance]
    rw [← htask, Function.update_eq_self]
  | fail e => exact .inl ⟨i, e, by simp only [turn_self, htask, Task.advance]⟩
  | step label effect next =>
    simp only [htask] at hi hrely
    rcases hi.2 s (hrely label rfl) with ⟨e, he⟩ | ⟨m', howe, hnext⟩
    · exact .inl ⟨i, e, by simp only [turn_self, htask, Task.advance, he]⟩
    · refine .inr (.inr ⟨label, m', by simp only [htask, Task.label], ?_, fun j => ?_⟩)
      · simpa only [turn, htask, Task.advance] using howe
      · by_cases hj : j = i
        · subst hj
          simp only [turn_self, Function.update_self, htask, Task.advance]
          exact hnext
        · rw [turn_of_ne _ hj, Function.update_of_ne hj]
          exact h j

end Outlines

end NixWasm.Coroutines
