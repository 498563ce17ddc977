import NixWasm.Runs

/-!
The page-table root in a kernel worker. It lives in three places: the executable
parameters, own_pt_base, and the __mmu_pt_base global of the user instance. The
callbacks of kernel-worker.ts that touch them are modelled one by one; compiling,
instrumenting and instantiating an image are parameters. The run theorem says for
which orders of the callbacks user code always starts and resumes on the root of
its own latest load.
-/
namespace NixWasm.WorkerRoot

open Runs

/-- What the worker asks of an image and of the engine. `none` is a throw. -/
structure Engine (Image Module Key : Type*) where
  execHash : Image → Key
  isInstrumented : Image → Bool
  softmmuInstrument : Image → Option Image
  tableImportInitial : Image → Option ℕ
  /-- The module a compile promise resolves to, `none` when it rejects. -/
  compile : Image → Option Module
  instantiates : Module → Bool
  /-- The instance exports `__mmu_pt_base` as a global. -/
  exportsRoot : Module → Bool
  /-- `__mmu_start`, the data relocations and the dlopen replay return. -/
  startReturns : Module → Bool

structure Params where
  dataStart : ℕ
  tableStart : ℕ
  ptBase : ℕ
  tableInitial : ℕ
deriving DecidableEq

/-- A live user instance; `mmuPtBase` is `none` when the global is not exported. -/
structure Program where
  mmuPtBase : Option ℕ
deriving DecidableEq

structure Worker (Module Key : Type*) where
  execModules : List (Key × Module × ℕ)
  /-- Compiles whose `then` has not added the module to the cache yet. -/
  compiling : List (Key × Module × ℕ)
  /-- The module promise: `some none` is a promise that rejects. -/
  userExecutable : Option (Option Module)
  params : Option Params
  program : Option Program
  ownPtBase : ℕ

inductive Event (Image : Type*)
  | wasmLoadExecutable (image : Image) (dataStart tableStart ptBase : ℕ)
  | mmuSetPtBase (ptBase : ℕ)
  | promiseJobs
  | park
  | resume
  | userExecutableSetup
  | userExecutableRun

variable {Image Module Key : Type*} [DecidableEq Key]
variable (engine : Engine Image Module Key)

namespace Worker

/-- A worker after `init`, with the modules that the host had compiled by then. -/
def initial (execModules : List (Key × Module × ℕ)) : Worker Module Key :=
  ⟨execModules, [], none, none, none, 0⟩

/-- The module and table size of a cache miss on the software MMU: instrument
unless the image already is, then probe the table import. -/
def instrumentAndProbe (image : Image) : Option (Option Module × ℕ) :=
  (if engine.isInstrumented image then some image else engine.softmmuInstrument image).bind
    fun bytes => (engine.tableImportInitial bytes).map fun ti => (engine.compile bytes, ti)

/-- A load the host rejects leaves no half-loaded image behind. -/
def rejectLoad (w : Worker Module Key) : Worker Module Key :=
  { w with userExecutable := none, params := none, program := none }

def acceptLoad (w : Worker Module Key) (module : Option Module)
    (dataStart tableStart ptBase tableInitial : ℕ) : Worker Module Key :=
  { w with
    userExecutable := some module
    params := some ⟨dataStart, tableStart, ptBase, tableInitial⟩
    program := none }

/-- `wasm_load_executable`: a nonzero root selects the instrumented path with the
module cache in front of it, root 0 the plain compile. -/
def wasmLoadExecutable (w : Worker Module Key) (image : Image)
    (dataStart tableStart ptBase : ℕ) : Worker Module Key :=
  if ptBase ≠ 0 then
    match w.execModules.lookup (engine.execHash image) with
    | some (module, ti) => w.acceptLoad (some module) dataStart tableStart ptBase ti
    | none =>
      match instrumentAndProbe engine image with
      | none => w.rejectLoad
      | some (compiled, ti) =>
        { w.acceptLoad compiled dataStart tableStart ptBase ti with
          compiling := w.compiling ++
            compiled.toList.map fun module => (engine.execHash image, module, ti) }
  else
    match engine.tableImportInitial image with
    | none => w.rejectLoad
    | some ti => w.acceptLoad (engine.compile image) dataStart tableStart ptBase ti

/-- `__mmu_set_pt_base`: write through to the parameters and to the live global. -/
def mmuSetPtBase (w : Worker Module Key) (ptBase : ℕ) : Worker Module Key :=
  { w with
    params := w.params.map fun p => { p with ptBase := ptBase }
    program := w.program.map fun p => { p with mmuPtBase := p.mmuPtBase.map fun _ => ptBase } }

/-- The part of `serialize_me` after the wait: restore the baked root. -/
def resume (w : Worker Module Key) : Worker Module Key :=
  if w.ownPtBase ≠ 0 then
    { w with program := w.program.map fun p =>
        { p with mmuPtBase := p.mmuPtBase.map fun _ => w.ownPtBase } }
  else w

/-- The instance `user_executable_setup` creates, with the root already installed.
The appended global starts at zero and a zero root is not installed. -/
def setupInstance (module : Module) (params : Params) : Program :=
  ⟨if engine.exportsRoot module then some params.ptBase else none⟩

/-- `own_pt_base` after the install: a zero root or an image without the global
leaves the value baked by an earlier image. -/
def bakedRoot (w : Worker Module Key) (module : Module) (params : Params) : ℕ :=
  if engine.exportsRoot module ∧ params.ptBase ≠ 0 then params.ptBase else w.ownPtBase

/-- `user_executable_setup`: instantiate, install the root, run the start function,
publish the program. -/
def userExecutableSetup (w : Worker Module Key) : Worker Module Key :=
  match w.userExecutable, w.params with
  | some (some module), some params =>
    if engine.instantiates module then
      { w with
        ownPtBase := bakedRoot engine w module params
        program := if engine.startReturns module
          then some (setupInstance engine module params) else w.program }
    else w
  | _, _ => w

end Worker

open Worker

def step (w : Worker Module Key) : Event Image → Worker Module Key
  | .wasmLoadExecutable image dataStart tableStart ptBase =>
    w.wasmLoadExecutable engine image dataStart tableStart ptBase
  | .mmuSetPtBase ptBase => w.mmuSetPtBase ptBase
  | .promiseJobs => { w with execModules := w.compiling ++ w.execModules, compiling := [] }
  | .park => w
  | .resume => w.resume
  | .userExecutableSetup => w.userExecutableSetup engine
  | .userExecutableRun => w

/-- The instance whose own code an event starts or resumes: the start function
during setup, the entry export of a published program, or the caller of the
syscall in which the task was parked. -/
def entered (w : Worker Module Key) : Event Image → Option Program
  | .userExecutableSetup =>
    match w.userExecutable, w.params with
    | some (some module), some params =>
      if engine.instantiates module then some (setupInstance engine module params) else none
    | _, _ => none
  | .userExecutableRun => w.program
  | .resume => w.resume.program
  | _ => none

/-- The root given by the latest load of a history, after `root`. -/
def latestLoadFrom (root : Option ℕ) (history : List (Event Image)) : Option ℕ :=
  history.foldl (fun latest e => match e with
    | .wasmLoadExecutable _ _ _ ptBase => some ptBase
    | _ => latest) root

def latestLoad (history : List (Event Image)) : Option ℕ := latestLoadFrom none history

section Tasks
variable {Task : Type*} [DecidableEq Task]

variable (seeds : Task → List (Key × Module × ℕ))

/-- One worker per task, each from its own message to init, under an interleaving. -/
def workers (events : List (Task × Event Image)) : Task → Worker Module Key :=
  run (stepAt (step engine)) (fun task => initial (seeds task)) events

/-- User code of `task` entered by `e` after the interleaving `before` runs on the
root of that task's own latest load. -/
def RootedAt (before : List (Task × Event Image)) (task : Task) (e : Event Image) : Prop :=
  ∀ program root, entered engine (workers engine seeds before task) e = some program →
    program.mmuPtBase = some root → latestLoad (eventsOf task before) = some root

/-- Every start and every resumption of user code in the interleaving is rooted. -/
def RootInvariant (events : List (Task × Event Image)) : Prop :=
  ∀ before task e after, events = before ++ (task, e) :: after →
    RootedAt engine seeds before task e

end Tasks

/-- The order of the callbacks as seen from outside the worker. `own` is the root of
the latest load, `given` the root its parameters were last told (by the load or by a
later `__mmu_set_pt_base`), and `last` the root the live instance was last told (by
setup, by a later `__mmu_set_pt_base`, or by the restore on resume). -/
inductive Phase
  | unloaded
  | pending (own given : ℕ)
  | installed (own given last : ℕ)
deriving DecidableEq

/-- A worker never goes back from the software MMU to root 0. -/
def loadPhase (own root : ℕ) : Option Phase :=
  if own ≠ 0 → root ≠ 0 then some (.pending root root) else none

/-- The events a root survives: setup only with the own root in the parameters, and
user code entered only when the own root was announced last. -/
def watch : Phase → Event Image → Option Phase
  | .unloaded, .wasmLoadExecutable _ _ _ root => loadPhase 0 root
  | .pending own _, .wasmLoadExecutable _ _ _ root => loadPhase own root
  | .installed own _ _, .wasmLoadExecutable _ _ _ root => loadPhase own root
  | .pending own _, .mmuSetPtBase v => some (.pending own v)
  | .installed own _ _, .mmuSetPtBase v => some (.installed own v v)
  | .pending own given, .userExecutableSetup =>
    if given = own then some (.installed own own own) else none
  | .installed own given last, .userExecutableSetup =>
    if given = own ∧ last = own then some (.installed own own own) else none
  | .installed own given last, .resume =>
    if own ≠ 0 ∨ last = own then some (.installed own given own) else none
  | .installed own given last, .userExecutableRun =>
    if last = own then some (.installed own given last) else none
  | phase, _ => some phase

/-- Between a load and the setup that installs it, and between a setup or resume
and the next entry, no foreign root is announced last. -/
def Orderly (events : List (Event Image)) : Prop :=
  (monitor watch .unloaded events).isSome

instance (events : List (Event Image)) : Decidable (Orderly events) := by
  unfold Orderly
  infer_instance

/-- What each phase says about the three places of the root. -/
def Tracks : Phase → Worker Module Key → Prop
  | .unloaded, w => w.userExecutable = none ∧ w.program = none ∧ w.ownPtBase = 0
  | .pending own given, w => w.program = none ∧
      (∀ p, w.params = some p → p.ptBase = given) ∧ (own = 0 → w.ownPtBase = 0)
  | .installed own given last, w => (∀ p, w.params = some p → p.ptBase = given) ∧
      (∀ p root, w.program = some p → p.mmuPtBase = some root →
        root = last ∧ w.ownPtBase = own) ∧ (own = 0 → w.ownPtBase = 0)

/-- The root of the latest load, as the monitor knows it. -/
def Phase.own : Phase → Option ℕ
  | .unloaded => none
  | .pending own _ => some own
  | .installed own _ _ => some own

theorem wasmLoadExecutable_program (w : Worker Module Key) (image : Image)
    (dataStart tableStart ptBase : ℕ) :
    (w.wasmLoadExecutable engine image dataStart tableStart ptBase).program = none := by
  unfold wasmLoadExecutable
  split
  · split
    · rfl
    · split <;> rfl
  · split <;> rfl

theorem wasmLoadExecutable_ownPtBase (w : Worker Module Key) (image : Image)
    (dataStart tableStart ptBase : ℕ) :
    (w.wasmLoadExecutable engine image dataStart tableStart ptBase).ownPtBase =
      w.ownPtBase := by
  unfold wasmLoadExecutable
  split
  · split
    · rfl
    · split <;> rfl
  · split <;> rfl

/-- After a load the parameters, if the image was accepted, carry its root. -/
theorem wasmLoadExecutable_params (w : Worker Module Key) (image : Image)
    (dataStart tableStart ptBase : ℕ) (p : Params)
    (h : (w.wasmLoadExecutable engine image dataStart tableStart ptBase).params = some p) :
    p.ptBase = ptBase := by
  unfold wasmLoadExecutable at h
  split at h
  · split at h
    · cases h
      rfl
    · split at h
      · cases h
      · cases h
        rfl
  · split at h
    · cases h
    · cases h
      rfl

theorem tracks_load (own root : ℕ) (w : Worker Module Key) (image : Image)
    (dataStart tableStart : ℕ) (phase : Phase) (hown : own = 0 → w.ownPtBase = 0)
    (hwatch : loadPhase own root = some phase) :
    Tracks phase (w.wasmLoadExecutable engine image dataStart tableStart root) := by
  unfold loadPhase at hwatch
  split at hwatch
  · rename_i hzero
    cases hwatch
    refine ⟨wasmLoadExecutable_program engine w image dataStart tableStart root,
      fun p hp => wasmLoadExecutable_params engine w image dataStart tableStart root p hp, ?_⟩
    intro hroot
    rw [wasmLoadExecutable_ownPtBase]
    apply hown
    by_contra hne
    exact hzero hne hroot
  · cases hwatch

omit [DecidableEq Key] in
theorem tracks_mmuSetPtBase (phase phase' : Phase) (w : Worker Module Key) (v : ℕ)
    (h : Tracks phase w)
    (hwatch : watch phase (Event.mmuSetPtBase v : Event Image) = some phase') :
    Tracks phase' (w.mmuSetPtBase v) := by
  cases phase with
  | unloaded =>
    cases hwatch
    obtain ⟨hexe, hprog, hzero⟩ := h
    exact ⟨hexe, by simp [mmuSetPtBase, hprog], hzero⟩
  | pending own given =>
    cases hwatch
    obtain ⟨hprog, _, hzero⟩ := h
    refine ⟨by simp [mmuSetPtBase, hprog], ?_, hzero⟩
    intro p hp
    obtain ⟨q, _, rfl⟩ := Option.map_eq_some_iff.mp hp
    rfl
  | installed own given last =>
    cases hwatch
    obtain ⟨_, hprog, hzero⟩ := h
    refine ⟨?_, ?_, hzero⟩
    · intro p hp
      obtain ⟨q, _, rfl⟩ := Option.map_eq_some_iff.mp hp
      rfl
    · intro p root hp hroot
      obtain ⟨q, hq, rfl⟩ := Option.map_eq_some_iff.mp hp
      obtain ⟨old, hold, rfl⟩ := Option.map_eq_some_iff.mp hroot
      exact ⟨rfl, (hprog q old hq hold).2⟩

omit [DecidableEq Key] in
/-- Resuming restores the baked root, so a foreign root announced while the task
was scheduled out does not survive. -/
theorem resume_root (own given last : ℕ) (w : Worker Module Key)
    (h : Tracks (.installed own given last) w) (hown : own ≠ 0 ∨ last = own)
    (p : Program) (root : ℕ) (hp : w.resume.program = some p)
    (hroot : p.mmuPtBase = some root) : root = own ∧ w.ownPtBase = own := by
  obtain ⟨_, hprog, hzero⟩ := h
  unfold resume at hp
  split at hp
  · obtain ⟨q, hq, rfl⟩ := Option.map_eq_some_iff.mp hp
    obtain ⟨old, hold, rfl⟩ := Option.map_eq_some_iff.mp hroot
    have howner := (hprog q old hq hold).2
    exact ⟨howner, howner⟩
  · rename_i hbaked
    obtain ⟨hlast, howner⟩ := hprog p root hp hroot
    rcases hown with hne | heq
    · exact absurd howner (by simpa [not_not.mp hbaked] using hne.symm)
    · exact ⟨hlast.trans heq, howner⟩

omit [DecidableEq Key] in
theorem tracks_resume (own given last : ℕ) (w : Worker Module Key)
    (h : Tracks (.installed own given last) w) (hown : own ≠ 0 ∨ last = own) :
    Tracks (.installed own given own) w.resume := by
  have hkeep : w.resume.params = w.params ∧ w.resume.ownPtBase = w.ownPtBase := by
    unfold resume
    split <;> exact ⟨rfl, rfl⟩
  refine ⟨?_, ?_, ?_⟩
  · rw [hkeep.1]
    exact h.1
  · intro p root hp hroot
    rw [hkeep.2]
    exact resume_root own given last w h hown p root hp hroot
  · rw [hkeep.2]
    exact h.2.2

omit [DecidableEq Key] in
theorem bakedRoot_eq (own : ℕ) (w : Worker Module Key) (module : Module) (params : Params)
    (hroot : params.ptBase = own) (hzero : own = 0 → w.ownPtBase = 0)
    (h : engine.exportsRoot module = true ∨ w.ownPtBase = own) :
    bakedRoot engine w module params = own := by
  unfold bakedRoot
  split
  · exact hroot
  · rename_i hskip
    rcases h with hexp | howner
    · have hnil : own = 0 := by
        by_contra hne
        exact hskip ⟨hexp, by rwa [hroot]⟩
      rw [hnil, hzero hnil]
    · exact howner

omit [DecidableEq Key] in
/-- Setup with the own root in the parameters bakes that root into the instance. -/
theorem tracks_setup (own : ℕ) (w : Worker Module Key)
    (hparams : ∀ p, w.params = some p → p.ptBase = own)
    (hprog : ∀ p root, w.program = some p → p.mmuPtBase = some root →
      root = own ∧ w.ownPtBase = own)
    (hzero : own = 0 → w.ownPtBase = 0) :
    Tracks (.installed own own own) (w.userExecutableSetup engine) := by
  unfold userExecutableSetup
  split
  · rename_i module params hexe hpar
    have hroot := hparams params hpar
    split
    · refine ⟨hparams, ?_, ?_⟩
      · intro p root hp hget
        change (if engine.startReturns module then some (setupInstance engine module params)
          else w.program) = some p at hp
        split at hp
        · cases hp
          have hexp : engine.exportsRoot module = true := by
            by_contra hne
            simp [setupInstance, hne] at hget
          have hval : params.ptBase = root := by
            simpa [setupInstance, hexp] using hget
          exact ⟨hval.symm.trans hroot, bakedRoot_eq engine own w module params hroot hzero
            (Or.inl hexp)⟩
        · obtain ⟨hlast, howner⟩ := hprog p root hp hget
          exact ⟨hlast, bakedRoot_eq engine own w module params hroot hzero (Or.inr howner)⟩
      · intro hnil
        have howner : w.ownPtBase = own := by rw [hzero hnil, hnil]
        rw [← hnil]
        exact bakedRoot_eq engine own w module params hroot hzero (Or.inr howner)
    · exact ⟨hparams, hprog, hzero⟩
  · exact ⟨hparams, hprog, hzero⟩

theorem tracks_step (phase : Phase) (w : Worker Module Key) (e : Event Image)
    (phase' : Phase) (h : Tracks phase w) (hwatch : watch phase e = some phase') :
    Tracks phase' (step engine w e) := by
  cases e with
  | wasmLoadExecutable image dataStart tableStart root =>
    cases phase with
    | unloaded => exact tracks_load engine 0 root w image _ _ _ (fun _ => h.2.2) hwatch
    | pending own given => exact tracks_load engine own root w image _ _ _ h.2.2 hwatch
    | installed own given last => exact tracks_load engine own root w image _ _ _ h.2.2 hwatch
  | mmuSetPtBase v => exact tracks_mmuSetPtBase phase phase' w v h hwatch
  | promiseJobs | park => cases phase <;> cases hwatch <;> exact h
  | resume =>
    cases phase with
    | unloaded =>
      cases hwatch
      simpa [step, resume, h.2.2] using h
    | pending own given =>
      cases hwatch
      obtain ⟨hprog, hparams, hzero⟩ := h
      change Tracks _ w.resume
      unfold resume
      split
      · exact ⟨by simp [hprog], hparams, hzero⟩
      · exact ⟨hprog, hparams, hzero⟩
    | installed own given last =>
      simp only [watch] at hwatch
      split at hwatch
      · rename_i hown
        cases hwatch
        exact tracks_resume own given last w h hown
      · cases hwatch
  | userExecutableSetup =>
    cases phase with
    | unloaded =>
      cases hwatch
      simpa [step, userExecutableSetup, h.1] using h
    | pending own given =>
      simp only [watch] at hwatch
      split at hwatch
      · rename_i hgiven
        cases hwatch
        obtain ⟨hprog, hparams, hzero⟩ := h
        subst hgiven
        exact tracks_setup engine _ w hparams (fun p root hp => by simp [hprog] at hp) hzero
      · cases hwatch
    | installed own given last =>
      simp only [watch] at hwatch
      split at hwatch
      · rename_i hgiven
        cases hwatch
        obtain ⟨rfl, rfl⟩ := hgiven
        exact tracks_setup engine _ w h.1 h.2.1 h.2.2
      · cases hwatch
  | userExecutableRun =>
    cases phase with
    | unloaded | pending => cases hwatch; exact h
    | installed own given last =>
      simp only [watch] at hwatch
      split at hwatch
      · cases hwatch
        exact h
      · cases hwatch

theorem watch_own (phase phase' : Phase) (e : Event Image)
    (h : watch phase e = some phase') : phase'.own = latestLoadFrom phase.own [e] := by
  cases e <;> cases phase <;> simp only [watch, loadPhase] at h
  all_goals
    first
    | (split at h <;> cases h <;> rfl)
    | (cases h; rfl)

/-- The monitor's own root is the root of the latest load. -/
theorem monitor_own (history : List (Event Image)) :
    ∀ {phase phase' : Phase}, monitor watch phase history = some phase' →
      phase'.own = latestLoadFrom phase.own history := by
  induction history with
  | nil =>
    intro phase phase' h
    cases h
    rfl
  | cons e history ih =>
    intro phase phase' h
    simp only [monitor] at h
    obtain ⟨mid, hmid, hrest⟩ := Option.bind_eq_some_iff.mp h
    rw [ih hrest, watch_own phase mid e hmid]
    rfl

omit [DecidableEq Key] in
/-- In a tracked state, an accepted event enters user code on the own root. -/
theorem entered_root (phase phase' : Phase) (w : Worker Module Key) (e : Event Image)
    (h : Tracks phase w) (hwatch : watch phase e = some phase') (p : Program) (root : ℕ)
    (hp : entered engine w e = some p) (hroot : p.mmuPtBase = some root) :
    phase.own = some root := by
  have hsetup : ∀ own, (∀ q, w.params = some q → q.ptBase = own) →
      entered engine w (.userExecutableSetup : Event Image) = some p → own = root := by
    intro own hparams hent
    simp only [entered] at hent
    split at hent
    · rename_i module params hexe hpar
      split at hent
      · cases hent
        simp only [setupInstance] at hroot
        split at hroot
        · exact (hparams params hpar).symm.trans (Option.some.inj hroot)
        · cases hroot
      · cases hent
    · cases hent
  cases e with
  | wasmLoadExecutable | mmuSetPtBase | promiseJobs | park => cases hp
  | resume =>
    cases phase with
    | unloaded =>
      simp [entered, resume, h.2.2, h.2.1] at hp
    | pending own given =>
      simp only [entered, resume, h.1] at hp
      split at hp <;> simp [h.1] at hp
    | installed own given last =>
      simp only [watch] at hwatch
      split at hwatch
      · rename_i hown
        exact congrArg some (resume_root own given last w h hown p root hp hroot).1.symm
      · cases hwatch
  | userExecutableSetup =>
    cases phase with
    | unloaded => simp [entered, h.1] at hp
    | pending own given =>
      simp only [watch] at hwatch
      split at hwatch
      · rename_i hgiven
        exact congrArg some (hsetup own (by simpa [hgiven] using h.2.1) hp)
      · cases hwatch
    | installed own given last =>
      simp only [watch] at hwatch
      split at hwatch
      · rename_i hgiven
        exact congrArg some (hsetup own (by simpa [hgiven.1] using h.1) hp)
      · cases hwatch
  | userExecutableRun =>
    cases phase with
    | unloaded => simp [entered, h.2.1] at hp
    | pending own given => simp [entered, h.1] at hp
    | installed own given last =>
      simp only [watch] at hwatch
      split at hwatch
      · rename_i hlast
        exact congrArg some ((h.2.1 p root hp hroot).1.trans hlast).symm
      · cases hwatch

omit [DecidableEq Key] in
theorem tracks_initial (execModules : List (Key × Module × ℕ)) :
    Tracks .unloaded (initial execModules) :=
  ⟨rfl, rfl, rfl⟩

section Tasks
variable {Task : Type*} [DecidableEq Task]

/-- Every interleaving in which each task's own events are orderly enters user code
only on the root of the entered task's latest load, whatever modules a worker starts with. -/
theorem rootInvariant_of_orderly (seeds : Task → List (Key × Module × ℕ))
    (events : List (Task × Event Image)) (h : ∀ task, Orderly (eventsOf task events)) :
    RootInvariant engine seeds events := by
  intro before task e after hsplit program root hent hroot
  have hord := h task
  rw [hsplit, eventsOf_append, eventsOf_cons_self] at hord
  obtain ⟨final, hfinal⟩ := Option.isSome_iff_exists.mp hord
  obtain ⟨phase, phase', hphase, hwatch⟩ := monitor_split watch hfinal
  have htracks : Tracks phase (workers engine seeds before task) := by
    rw [workers, run_stepAt]
    exact run_monitored (step engine) watch Tracks (tracks_step engine) _
      (tracks_initial _) hphase
  rw [latestLoad, ← show Phase.own .unloaded = none from rfl, ← monitor_own _ hphase]
  exact entered_root engine phase phase' _ e htracks hwatch program root hent hroot

end Tasks

/-- An engine that accepts every image and always exports the global. -/
def plainEngine : Engine Unit Unit Unit where
  execHash _ := ()
  isInstrumented _ := false
  softmmuInstrument image := some image
  tableImportInitial _ := some 0
  compile _ := some ()
  instantiates _ := true
  exportsRoot _ := true
  startReturns _ := true

/-- The second worker is created with the module of the first. -/
def secondSeeded : ℕ → List (Unit × Unit × ℕ)
  | 0 => []
  | _ => [((), (), 0)]

/-- A parked switch between two tasks, then an exec: the roots stay apart. -/
theorem rootInvariant_of_orderly_two_tasks :
    Orderly (eventsOf 0 ([(0, .wasmLoadExecutable () 0 0 4096), (0, .userExecutableSetup),
        (0, .userExecutableRun), (1, .wasmLoadExecutable () 0 0 8192), (0, .mmuSetPtBase 8192),
        (0, .park), (1, .userExecutableSetup), (1, .userExecutableRun), (0, .resume)] :
        List (ℕ × Event Unit))) ∧
      RootInvariant plainEngine secondSeeded ([(0, .wasmLoadExecutable () 0 0 4096),
        (0, .userExecutableSetup), (0, .userExecutableRun),
        (1, .wasmLoadExecutable () 0 0 8192), (0, .mmuSetPtBase 8192), (0, .park),
        (1, .userExecutableSetup), (1, .userExecutableRun), (0, .resume)] :
        List (ℕ × Event Unit)) := by
  refine ⟨by decide, rootInvariant_of_orderly plainEngine secondSeeded _ ?_⟩
  intro task
  rcases task with _ | _ | task
  · decide
  · decide
  · simp [eventsOf, Orderly, monitor]

/-- A switch_mm to another mm between the load and the setup: the new image starts
on the other mm's root. -/
theorem foreign_root_before_setup :
    ¬ RootInvariant plainEngine (fun _ => []) ([(0, .wasmLoadExecutable () 0 0 4096),
        (0, .mmuSetPtBase 8192), (0, .park), (0, .resume), (0, .userExecutableSetup),
        (0, .userExecutableRun)] : List (ℕ × Event Unit)) := by
  intro h
  have hrooted := h [(0, .wasmLoadExecutable () 0 0 4096), (0, .mmuSetPtBase 8192),
    (0, .park), (0, .resume), (0, .userExecutableSetup)] 0 .userExecutableRun [] rfl
    ⟨some 8192⟩ 8192 (by decide) rfl
  exact absurd hrooted (by decide)

end NixWasm.WorkerRoot
