import Mathlib.Data.List.Basic
import Mathlib.Logic.Function.Basic

/-!
Deterministic runs of a step function over a list of events. The two rules used
later guard an invariant: it is only kept while a monitor that reads the same events
accepts them, or while each event is admitted in the state it finds. A system of
independent components is run on tagged events, and the run of one component is
the run over the events that carry its tag.
-/
namespace NixWasm.Runs

variable {σ ε γ ι : Type*}

/-- The state after all events, in order. -/
def run (step : σ → ε → σ) (s : σ) (events : List ε) : σ :=
  events.foldl step s

@[simp] theorem run_nil (step : σ → ε → σ) (s : σ) : run step s [] = s := rfl

@[simp] theorem run_cons (step : σ → ε → σ) (s : σ) (e : ε) (events : List ε) :
    run step s (e :: events) = run step (step s e) events := rfl

theorem run_append (step : σ → ε → σ) (s : σ) (before after : List ε) :
    run step s (before ++ after) = run step (run step s before) after := by
  simp only [run, List.foldl_append]

/-- Invariant rule: what every step keeps holds after every run. -/
theorem run_invariant {step : σ → ε → σ} (Inv : σ → Prop)
    (hstep : ∀ s e, Inv s → Inv (step s e)) (events : List ε) :
    ∀ {s : σ}, Inv s → Inv (run step s events) := by
  induction events with
  | nil =>
    intro s hinv
    exact hinv
  | cons e events ih =>
    intro s hinv
    exact ih (hstep s e hinv)

/-- A monitor reads the events and may reject one of them. -/
def monitor (watch : γ → ε → Option γ) : γ → List ε → Option γ
  | g, [] => some g
  | g, e :: events => (watch g e).bind fun g' => monitor watch g' events

theorem monitor_append (watch : γ → ε → Option γ) (g : γ) (before after : List ε) :
    monitor watch g (before ++ after) =
      (monitor watch g before).bind fun g' => monitor watch g' after := by
  induction before generalizing g with
  | nil => rfl
  | cons e before ih =>
    simp only [List.cons_append, monitor]
    cases watch g e with
    | none => rfl
    | some g' => simpa using ih g'

/-- An accepted event list has accepted prefixes and an accepted next event. -/
theorem monitor_split (watch : γ → ε → Option γ) {g g' : γ}
    {before after : List ε} {e : ε}
    (h : monitor watch g (before ++ e :: after) = some g') :
    ∃ g₁ g₂, monitor watch g before = some g₁ ∧ watch g₁ e = some g₂ := by
  rw [monitor_append] at h
  cases hb : monitor watch g before with
  | none => simp [hb] at h
  | some g₁ =>
    simp only [hb, Option.bind_some, monitor] at h
    cases he : watch g₁ e with
    | none => simp [he] at h
    | some g₂ => exact ⟨g₁, g₂, rfl, he⟩

/-- Guarded invariant rule: while the monitor accepts, the joint invariant of the
monitor and the state is kept. -/
theorem run_monitored (step : σ → ε → σ) (watch : γ → ε → Option γ)
    (Inv : γ → σ → Prop)
    (hstep : ∀ g s e g', Inv g s → watch g e = some g' → Inv g' (step s e))
    (events : List ε) :
    ∀ {g g' : γ} {s : σ}, Inv g s → monitor watch g events = some g' →
      Inv g' (run step s events) := by
  induction events with
  | nil =>
    intro g g' s hinv hmon
    cases Option.some.inj hmon
    exact hinv
  | cons e events ih =>
    intro g g' s hinv hmon
    simp only [monitor] at hmon
    cases he : watch g e with
    | none => simp [he] at hmon
    | some g₁ =>
      simp only [he, Option.bind_some] at hmon
      exact ih (hstep g s e g₁ hinv he) hmon

/-- Every event is admitted in the state it finds. -/
def Along (admits : σ → ε → Prop) (step : σ → ε → σ) : σ → List ε → Prop
  | _, [] => True
  | s, e :: events => admits s e ∧ Along admits step (step s e) events

theorem along_append {admits : σ → ε → Prop} {step : σ → ε → σ} {s : σ} {before after : List ε} :
    Along admits step s (before ++ after) ↔
      Along admits step s before ∧ Along admits step (run step s before) after := by
  induction before generalizing s with
  | nil => simp [Along]
  | cons e before ih => simp [Along, ih, and_assoc]

instance decidableAlong {admits : σ → ε → Prop} [∀ s e, Decidable (admits s e)]
    (step : σ → ε → σ) : ∀ (s : σ) (events : List ε), Decidable (Along admits step s events)
  | _, [] => isTrue trivial
  | s, e :: events =>
    have : Decidable (Along admits step (step s e) events) :=
      decidableAlong step (step s e) events
    instDecidableAnd

/-- Invariant rule for runs whose events are all admitted. -/
theorem run_along {admits : σ → ε → Prop} {step : σ → ε → σ} (Inv : σ → Prop)
    (hstep : ∀ s e, Inv s → admits s e → Inv (step s e)) (events : List ε) :
    ∀ {s : σ}, Inv s → Along admits step s events → Inv (run step s events) := by
  induction events with
  | nil =>
    intro s hinv _
    exact hinv
  | cons e events ih =>
    intro s hinv hall
    exact ih (hstep s e hinv hall.1) hall.2

section Tagged
variable [DecidableEq ι]

/-- One tagged event moves only the component it names. -/
def stepAt (step : σ → ε → σ) (system : ι → σ) (event : ι × ε) : ι → σ :=
  Function.update system event.1 (step (system event.1) event.2)

/-- The events of one component, in the order of the interleaving. -/
def eventsOf (i : ι) (events : List (ι × ε)) : List ε :=
  (events.filter fun e => e.1 = i).map Prod.snd

theorem eventsOf_append (i : ι) (before after : List (ι × ε)) :
    eventsOf i (before ++ after) = eventsOf i before ++ eventsOf i after := by
  simp only [eventsOf, List.filter_append, List.map_append]

theorem eventsOf_cons_self (i : ι) (e : ε) (events : List (ι × ε)) :
    eventsOf i ((i, e) :: events) = e :: eventsOf i events := by
  simp [eventsOf]

/-- In every interleaving a component only sees its own events. -/
theorem run_stepAt (step : σ → ε → σ) (system : ι → σ) (i : ι)
    (events : List (ι × ε)) :
    run (stepAt step) system events i = run step (system i) (eventsOf i events) := by
  induction events generalizing system with
  | nil => rfl
  | cons e events ih =>
    rw [run_cons, ih]
    obtain ⟨j, a⟩ := e
    by_cases hji : j = i
    · subst hji
      simp [eventsOf, stepAt]
    · have hij : i ≠ j := Ne.symm hji
      simp [eventsOf, stepAt, hji, hij]

end Tagged

end NixWasm.Runs
