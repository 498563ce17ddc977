import Mathlib.Data.List.Forall2
import Mathlib.Data.Nat.Notation

/-!
Programs with a state and exceptions, where a throw keeps what was already changed.
`Wp` is the weakest precondition with one postcondition for a returned value and one
for a throw; its rules follow the program text. `Keeps` is an invariant of both ends.
`Alike` compares two programs on one state, and `Spares` says what a throw leaves.
-/
namespace NixWasm.Effects

/-- What a JavaScript program throws. -/
inductive Thrown
  | rangeError (message : String)
  | error (message : String)
deriving DecidableEq

/-- A synchronous JavaScript function over a state `σ`. -/
abbrev Js (σ : Type) := EStateM Thrown σ

variable {ε σ α β : Type}

theorem run_pure (a : α) (s : σ) : (pure a : EStateM ε σ α) s = .ok a s := rfl

theorem run_throw (e : ε) (s : σ) : (throw e : EStateM ε σ α) s = .error e s := rfl

theorem run_get (s : σ) : (get : EStateM ε σ σ) s = .ok s s := rfl

theorem run_set (s s' : σ) : (set s' : EStateM ε σ PUnit) s = .ok ⟨⟩ s' := rfl

theorem run_modify (f : σ → σ) (s : σ) : (modify f : EStateM ε σ PUnit) s = .ok ⟨⟩ (f s) := rfl

theorem run_bind (x : EStateM ε σ α) (f : α → EStateM ε σ β) (s : σ) :
    (x >>= f) s = match x s with
      | .ok a s' => f a s'
      | .error e s' => .error e s' := rfl

theorem run_map (f : α → β) (x : EStateM ε σ α) (s : σ) :
    (f <$> x) s = match x s with
      | .ok a s' => .ok (f a) s'
      | .error e s' => .error e s' := rfl

/-- The state a run ends in, with a value or with a throw. -/
def final : EStateM.Result ε σ α → σ
  | .ok _ s => s
  | .error _ s => s

/-- Running `x` from `s` returns in `Q` or throws in `R`. -/
def Wp (x : EStateM ε σ α) (Q : α → σ → Prop) (R : ε → σ → Prop) (s : σ) : Prop :=
  match x s with
  | .ok a s' => Q a s'
  | .error e s' => R e s'

variable {Q : α → σ → Prop} {R : ε → σ → Prop} {s : σ}

theorem Wp.mono {x : EStateM ε σ α} {Q' : α → σ → Prop} {R' : ε → σ → Prop} (h : Wp x Q R s)
    (hok : ∀ a s', Q a s' → Q' a s') (herror : ∀ e s', R e s' → R' e s') : Wp x Q' R' s := by
  unfold Wp at h ⊢
  split at h
  · exact hok _ _ h
  · exact herror _ _ h

theorem Wp.and {x : EStateM ε σ α} {P : α → σ → Prop} {E : ε → σ → Prop} (h : Wp x Q R s)
    (h' : Wp x P E s) : Wp x (fun a s' => Q a s' ∧ P a s') (fun e s' => R e s' ∧ E e s') s := by
  unfold Wp at h h' ⊢
  split at h
  · simp_all
  · simp_all

theorem wp_of_ok {x : EStateM ε σ α} {a : α} {s' : σ} (h : x s = .ok a s') :
    Wp x Q R s ↔ Q a s' := by
  unfold Wp
  rw [h]

@[simp] theorem wp_pure (a : α) : Wp (pure a : EStateM ε σ α) Q R s ↔ Q a s := Iff.rfl

@[simp] theorem wp_throw (e : ε) : Wp (throw e : EStateM ε σ α) Q R s ↔ R e s := Iff.rfl

@[simp] theorem wp_bind (x : EStateM ε σ α) (f : α → EStateM ε σ β) {Q : β → σ → Prop} :
    Wp (x >>= f) Q R s ↔ Wp x (fun a => Wp (f a) Q R) R s := by
  unfold Wp
  change (match EStateM.bind x f s with | .ok a s' => Q a s' | .error e s' => R e s') ↔ _
  unfold EStateM.bind
  cases x s <;> rfl

@[simp] theorem wp_map (f : α → β) (x : EStateM ε σ α) {Q : β → σ → Prop} :
    Wp (f <$> x) Q R s ↔ Wp x (fun a => Q (f a)) R s := by
  unfold Wp
  change (match EStateM.map f x s with | .ok a s' => Q a s' | .error e s' => R e s') ↔ _
  unfold EStateM.map
  cases x s <;> rfl

@[simp] theorem wp_discard (x : EStateM ε σ α) {Q : PUnit → σ → Prop} :
    Wp (discard x) Q R s ↔ Wp x (fun _ => Q ⟨⟩) R s := by
  unfold Wp
  have hmap : discard x s = EStateM.map (fun _ => PUnit.unit) x s := rfl
  rw [hmap]
  unfold EStateM.map
  cases x s <;> rfl

@[simp] theorem wp_get {Q : σ → σ → Prop} : Wp (get : EStateM ε σ σ) Q R s ↔ Q s s := Iff.rfl

@[simp] theorem wp_set (s' : σ) {Q : PUnit → σ → Prop} :
    Wp (set s' : EStateM ε σ PUnit) Q R s ↔ Q ⟨⟩ s' := Iff.rfl

@[simp] theorem wp_modify (f : σ → σ) {Q : PUnit → σ → Prop} :
    Wp (modify f : EStateM ε σ PUnit) Q R s ↔ Q ⟨⟩ (f s) := Iff.rfl

@[simp] theorem wp_ite (p : Prop) [Decidable p] (x y : EStateM ε σ α) :
    Wp (if p then x else y) Q R s ↔ (p → Wp x Q R s) ∧ (¬ p → Wp y Q R s) := by
  by_cases hp : p <;> simp [hp]

/-- A handler starts in the state the throw left. -/
@[simp] theorem wp_tryCatch (x : EStateM ε σ α) (f : ε → EStateM ε σ α) :
    Wp (tryCatch x f) Q R s ↔ Wp x Q (fun e => Wp (f e) Q R) s := by
  unfold Wp
  change (match EStateM.tryCatch x f s with | .ok a s' => Q a s' | .error e s' => R e s') ↔ _
  unfold EStateM.tryCatch
  cases x s <;> rfl

theorem Wp.final {P : σ → Prop} {x : EStateM ε σ α} (h : Wp x (fun _ => P) (fun _ => P) s) :
    P (final (x s)) := by
  unfold Wp at h
  unfold Effects.final
  cases hx : x s <;> simpa [hx] using h

/-- A program that cannot throw returns. -/
theorem Wp.returned {x : EStateM ε σ α} (h : Wp x Q (fun _ _ => False) s) :
    ∃ a s', x s = .ok a s' ∧ Q a s' := by
  unfold Wp at h
  cases hx : x s with
  | ok a s' =>
    rw [hx] at h
    exact ⟨a, s', rfl, h⟩
  | error e s' =>
    rw [hx] at h
    exact h.elim

/-- `x` keeps the invariant, whether it returns or throws. -/
def Keeps (I : σ → Prop) (x : EStateM ε σ α) : Prop := ∀ s, I s → Wp x (fun _ => I) (fun _ => I) s

theorem keeps_pure {I : σ → Prop} (a : α) : Keeps I (pure a : EStateM ε σ α) := fun _ hs => hs

theorem keeps_throw {I : σ → Prop} (e : ε) : Keeps I (throw e : EStateM ε σ α) := fun _ hs => hs

theorem keeps_get {I : σ → Prop} : Keeps I (get : EStateM ε σ σ) := fun _ hs => hs

theorem keeps_modify {I : σ → Prop} {f : σ → σ} (h : ∀ s, I s → I (f s)) :
    Keeps I (modify f : EStateM ε σ PUnit) := h

theorem keeps_bind {I : σ → Prop} {x : EStateM ε σ α} {f : α → EStateM ε σ β} (hx : Keeps I x)
    (hf : ∀ a, Keeps I (f a)) : Keeps I (x >>= f) := by
  intro s hs
  rw [wp_bind]
  exact (hx s hs).mono (fun a s' hs' => hf a s' hs') fun _ _ hs' => hs'

theorem keeps_ite {I : σ → Prop} {p : Prop} [Decidable p] {x y : EStateM ε σ α} (hx : Keeps I x)
    (hy : Keeps I y) : Keeps I (if p then x else y) := by
  by_cases hp : p
  · rwa [if_pos hp]
  · rwa [if_neg hp]

theorem keeps_mapM {I : σ → Prop} {f : α → EStateM ε σ β} (hf : ∀ a, Keeps I (f a))
    (as : List α) : Keeps I (as.mapM f) := by
  induction as with
  | nil => exact keeps_pure []
  | cons a as ih =>
    rw [List.mapM_cons]
    exact keeps_bind (hf a) fun _ => keeps_bind ih fun _ => keeps_pure _

section Alike

/-- From `s` the two programs run alike, and the first meets its postconditions. -/
def Alike (x y : EStateM ε σ α) (Q : α → σ → Prop) (R : ε → σ → Prop) (s : σ) : Prop :=
  y s = x s ∧ Wp x Q R s

theorem Alike.mono {x y : EStateM ε σ α} {Q' : α → σ → Prop} {R' : ε → σ → Prop}
    (h : Alike x y Q R s) (hok : ∀ a s', Q a s' → Q' a s') (herror : ∀ e s', R e s' → R' e s') :
    Alike x y Q' R' s :=
  ⟨h.1, h.2.mono hok herror⟩

theorem alike_pure {a : α} (h : Q a s) : Alike (pure a : EStateM ε σ α) (pure a) Q R s := ⟨rfl, h⟩

theorem alike_throw {e : ε} (h : R e s) : Alike (throw e : EStateM ε σ α) (throw e) Q R s :=
  ⟨rfl, h⟩

theorem alike_of_eq {x y : EStateM ε σ α} (heq : y = x) (h : Wp x Q R s) : Alike x y Q R s :=
  ⟨by rw [heq], h⟩

theorem alike_self {x : EStateM ε σ α} (h : Wp x Q R s) : Alike x x Q R s := ⟨rfl, h⟩

theorem Alike.bind {x y : EStateM ε σ α} {f g : α → EStateM ε σ β} {P : β → σ → Prop}
    (h : Alike x y Q R s) (hf : ∀ a s', Q a s' → Alike (f a) (g a) P R s') :
    Alike (x >>= f) (y >>= g) P R s := by
  obtain ⟨heq, hwp⟩ := h
  constructor
  · change EStateM.bind y g s = EStateM.bind x f s
    unfold EStateM.bind
    unfold Wp at hwp
    rw [heq]
    cases hx : x s with
    | ok a s' =>
      rw [hx] at hwp
      exact (hf a s' hwp).1
    | error e s' => rfl
  · rw [wp_bind]
    exact hwp.mono (fun a s' ha => (hf a s' ha).2) fun _ _ he => he

theorem alike_get_bind {f g : σ → EStateM ε σ α} (h : Alike (f s) (g s) Q R s) :
    Alike (get >>= f) (get >>= g) Q R s := h

theorem Alike.tryCatch {x y : EStateM ε σ α} {f g : ε → EStateM ε σ α} {P : ε → σ → Prop}
    (h : Alike x y Q P s) (hf : ∀ e s', P e s' → Alike (f e) (g e) Q R s') :
    Alike (tryCatch x f) (tryCatch y g) Q R s := by
  obtain ⟨heq, hwp⟩ := h
  constructor
  · change EStateM.tryCatch y g s = EStateM.tryCatch x f s
    unfold EStateM.tryCatch
    unfold Wp at hwp
    rw [heq]
    cases hx : x s with
    | ok a s' => rfl
    | error e s' =>
      rw [hx] at hwp
      exact (hf e s' hwp).1
  · rw [wp_tryCatch]
    exact hwp.mono (fun _ _ ha => ha) fun e s' he => (hf e s' he).2

end Alike

section Sparing

/-- From a state in `I`, a throw of `x` leaves `E` and a returned value meets `Q`. -/
def Spares (I E : σ → Prop) (Q : α → Prop) (x : EStateM ε σ α) : Prop :=
  ∀ s, I s → Wp x (fun a _ => Q a) (fun _ => E) s

/-- `x` never throws, and its value meets `Q`. -/
abbrev Quiet (Q : α → Prop) (x : EStateM ε σ α) : Prop :=
  Spares (fun _ => True) (fun _ => False) Q x

variable {I E : σ → Prop} {q : α → Prop}

theorem spares_pure {a : α} (h : q a) : Spares I E q (pure a : EStateM ε σ α) := fun _ _ => h

theorem spares_throw {e : ε} (h : ∀ s, I s → E s) : Spares I E q (throw e : EStateM ε σ α) := h

/-- What comes after a step that keeps the invariant. -/
theorem Keeps.spares_bind {x : EStateM ε σ α} {f : α → EStateM ε σ β} {q : β → Prop}
    (hx : Keeps I x) (hE : ∀ s, I s → E s) (hf : ∀ a, Spares I E q (f a)) :
    Spares I E q (x >>= f) := by
  intro s hs
  rw [wp_bind]
  exact (hx s hs).mono (fun a s' hs' => hf a s' hs') fun _ s' hs' => hE s' hs'

/-- What comes after the last step that may throw. -/
theorem Spares.bind_quiet {x : EStateM ε σ α} {f : α → EStateM ε σ β} {q : β → Prop}
    (hx : Spares I E (fun _ => True) x) (hf : ∀ a, Quiet q (f a)) : Spares I E q (x >>= f) := by
  intro s hs
  rw [wp_bind]
  exact (hx s hs).mono
    (fun a s' _ => (hf a s' trivial).mono (fun _ _ hq => hq) fun _ _ hfalse => hfalse.elim)
    fun _ _ he => he

theorem Quiet.wp {x : EStateM ε σ α} (h : Quiet q x) (s : σ) : Wp x (fun a _ => q a) R s :=
  (h s trivial).mono (fun _ _ hq => hq) fun _ _ hfalse => hfalse.elim

theorem Quiet.spares {x : EStateM ε σ α} (h : Quiet q x) : Spares I E q x := fun s _ => h.wp s

theorem quiet_mapM {f : α → EStateM ε σ β} (hf : ∀ a, Quiet (fun _ => True) (f a)) (as : List α) :
    Quiet (fun _ => True) (as.mapM f) := by
  induction as with
  | nil => exact spares_pure trivial
  | cons a as ih =>
    rw [List.mapM_cons]
    exact (hf a).bind_quiet fun _ => ih.bind_quiet fun _ => spares_pure trivial

/-- Whatever state `x` starts in, a value it returns meets `Q`. -/
abbrev Returns (Q : α → Prop) (x : EStateM ε σ α) : Prop :=
  Spares (fun _ => True) (fun _ => True) Q x

theorem keeps_true (x : EStateM ε σ α) : Keeps (fun _ => True) x := by
  intro s _
  unfold Wp
  split <;> trivial

/-- Only the last step decides what is returned. -/
theorem returns_bind {x : EStateM ε σ α} {f : α → EStateM ε σ β} {q : β → Prop}
    (hf : ∀ a, Returns q (f a)) : Returns q (x >>= f) :=
  (keeps_true x).spares_bind (fun _ _ => trivial) hf

theorem returns_mapM {f : α → EStateM ε σ β} {q : α → β → Prop} (hf : ∀ a, Returns (q a) (f a))
    (as : List α) : Returns (List.Forall₂ q as) (as.mapM f) := by
  induction as with
  | nil => exact spares_pure .nil
  | cons a as ih =>
    rw [List.mapM_cons]
    intro s _
    rw [wp_bind]
    refine (hf a s trivial).mono (fun b s' hb => ?_) fun _ _ _ => trivial
    rw [wp_bind]
    exact (ih s' trivial).mono (fun bs _ hbs => .cons hb hbs) fun _ _ _ => trivial

end Sparing

end NixWasm.Effects
