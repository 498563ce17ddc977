import NixWasm.DylinkReplay

/-!
Failure atomicity of `load`. A refusal in phase 1 changes nothing, a symbol of the
offset tables that no module exports is 0, and a load that does not return a handle
leaves the chain of modules as it found it. The record of a module is published before
its instance exists, so this holds exactly for the loads whose offset tables can be
built and whose instance, once there, starts without a throw.
-/
namespace NixWasm.DynamicLoader

open Dylink Unicode Runs

/-- Everything that changes a loader: the calls of its guest and the entries of a log
that a forked child replays. -/
inductive Op where
  | load (replay : Bool) (c : LoadCall)
  | dlsym (handle : ℤ) (name : Utf16)
  | growHole (count : ℕ)
  | reinstall (k : ℕ) (name : Utf16)

def opStep (P : Process) (s : Loader) : Op → Loader
  | .load replay c => (load P replay c s).2
  | .dlsym handle name => (dlsym P handle name s).2
  | .growHole count => (growHole P count s).2
  | .reinstall k name => (reinstall P k name s).2

/-- Symbol names that resolve to no data symbol, and to no function. -/
def NoData (s : Loader) (name : Utf16) : Prop :=
  ∀ k number, resolveExport s name ≠ .ok (some (k, .global number))

def NoFunction (s : Loader) (name : Utf16) : Prop :=
  ∀ k f, resolveExport s name ≠ .ok (some (k, .func f))

/-- As if no module had been added: the chain is the one before, every record has its
instance, and the log has at most the tombstone of a hole more. -/
structure Unpublished (s s' : Loader) : Prop where
  chain_eq : chain s' = chain s
  instantiated : Instantiated s'
  log : s'.opLog = s.opLog ∨ ∃ count, s'.opLog = s.opLog ++ [.grow count]

/-- What a load promises about its failures. -/
structure Atomic (P : Process) (replay : Bool) (c : LoadCall) (s : Loader) : Prop where
  refusal : ∀ r, prepare P s c.bytes = .error r →
    ∃ e : ℕ, 0 < e ∧ load P replay c s = (.ok (-e), s)
  offsets : ∀ plan, prepare P s c.bytes = .ok plan → ∃ got s',
    resolveGot P plan.info.imports noGot (publish c plan s) = (.ok got, s') ∧
    (∀ n ∈ gotNames (ascii "GOT.mem") plan.info.imports, NoData s n →
      got.mem.get n = some 0) ∧
    (∀ n ∈ gotNames (ascii "GOT.func") plan.info.imports, NoFunction s n →
      got.func.get n = some 0) ∧
    load P replay c s = link P replay c plan s got s'
  undone : (¬ ∃ handle : ℕ, 0 < handle ∧ (load P replay c s).1 = .ok handle) →
    Unpublished s (load P replay c s).2

/-- An instance, once there, starts without a throw. -/
def startsUp (P : Process) (replay : Bool) (c : LoadCall) (s : Loader) (plan : Plan) : Bool :=
  match resolveGot P plan.info.imports noGot (publish c plan s) with
  | (.error _, _) => true
  | (.ok got, s') =>
    match instantiate P.engine c.bytes (importsOf c plan s got) (.side s.opLog.length)
        s'.table with
    | (none, _) => true
    | (some _, _) => (!P.mmu || P.engine.mmuStart c.bytes (importsOf c plan s got)) &&
        (replay || !c.initThrows)

def admitsLoad (P : Process) (replay : Bool) (c : LoadCall) (s : Loader) : Prop :=
  match prepare P s c.bytes with
  | .ok plan => Resolvable P s c plan ∧ startsUp P replay c s plan = true
  | .error _ => True

instance (P : Process) (replay : Bool) (c : LoadCall) (s : Loader) :
    Decidable (admitsLoad P replay c s) :=
  match h : prepare P s c.bytes with
  | .ok plan =>
    decidable_of_iff (Resolvable P s c plan ∧ startsUp P replay c s plan = true)
      (by simp only [admitsLoad, h])
  | .error _ => isTrue (by simp only [admitsLoad, h])

def admitsOp (P : Process) (s : Loader) : Op → Prop
  | .load replay c => admitsLoad P replay c s
  | _ => True

instance (P : Process) (s : Loader) (op : Op) : Decidable (admitsOp P s op) :=
  match op with
  | .load replay c => inferInstanceAs (Decidable (admitsLoad P replay c s))
  | .dlsym _ _ => isTrue trivial
  | .growHole _ => isTrue trivial
  | .reinstall _ _ => isTrue trivial

section Offsets

variable {P : Process}

theorem gotMemEntry_noData {s : Loader} {name : Utf16} {v : ℤ} (hno : NoData s name)
    (h : gotMemEntry s name = .ok v) : v = 0 := by
  unfold gotMemEntry at h
  split at h
  · cases h
  · rename_i k number hr
    exact absurd hr (hno k number)
  · simpa using h.symm

theorem gotFuncEntry_noFunction {s s' : Loader} {name : Utf16} {v : ℕ}
    (hno : NoFunction s name) (h : gotFuncEntry P name s = (.ok v, s')) : v = 0 := by
  unfold gotFuncEntry at h
  split at h
  · cases h
  · rename_i k f hr
    exact absurd hr (hno k f)
  · simpa using (Prod.mk.inj h).1.symm

theorem chain_gotFuncEntry {s s' : Loader} {name : Utf16} {v : ℕ}
    (h : gotFuncEntry P name s = (.ok v, s')) : chain s' = chain s := by
  unfold gotFuncEntry at h
  split at h
  · cases h
  · rename_i k f hr
    have hchain := chain_functionAddress P k name f false s
    rwa [h] at hchain
  · rw [← (Prod.mk.inj h).2]

theorem noData_of_chain {s s' : Loader} (h : chain s' = chain s) {name : Utf16}
    (hno : NoData s name) : NoData s' name := by
  unfold NoData at hno ⊢
  rwa [resolveExport_of_chain h]

theorem noFunction_of_chain {s s' : Loader} (h : chain s' = chain s) {name : Utf16}
    (hno : NoFunction s name) : NoFunction s' name := by
  unfold NoFunction at hno ⊢
  rwa [resolveExport_of_chain h]

/-- The data entry of a name that no module exports as data is 0 once it is set. -/
theorem resolveGot_mem_get {imports : List Import} {got got' : Got} {s s' : Loader} {n : Utf16}
    (hno : NoData s n) (h : resolveGot P imports got s = (.ok got', s')) :
    got'.mem.get n =
      if n ∈ gotNames (ascii "GOT.mem") imports then some 0 else got.mem.get n := by
  induction imports generalizing got s with
  | nil =>
    simp only [resolveGot, Prod.mk.injEq, Except.ok.injEq] at h
    simp [h.1, gotNames]
  | cons i rest ih =>
    by_cases hmem : i.module = ascii "GOT.mem"
    · simp only [resolveGot, hmem, if_true] at h
      cases hentry : gotMemEntry s i.name with
      | error e => simp [hentry] at h
      | ok v =>
        rw [hentry] at h
        rw [ih hno h, gotNames_cons_self hmem]
        by_cases hn : n = i.name
        · subst hn
          simp [JsMap.get_set_self, gotMemEntry_noData hno hentry]
        · simp [hn, JsMap.get_set_of_ne _ _ hn]
    · rw [gotNames_cons_of_ne hmem]
      simp only [resolveGot, hmem, if_false] at h
      split at h
      · cases hentry : gotFuncEntry P i.name s with
        | mk r t =>
          cases r with
          | error e => simp [hentry] at h
          | ok v =>
            rw [hentry] at h
            have hrest := ih (noData_of_chain (chain_gotFuncEntry hentry) hno) h
            exact hrest
      · exact ih hno h

theorem resolveGot_func_get {imports : List Import} {got got' : Got} {s s' : Loader} {n : Utf16}
    (hno : NoFunction s n) (h : resolveGot P imports got s = (.ok got', s')) :
    got'.func.get n =
      if n ∈ gotNames (ascii "GOT.func") imports then some 0 else got.func.get n := by
  induction imports generalizing got s with
  | nil =>
    simp only [resolveGot, Prod.mk.injEq, Except.ok.injEq] at h
    simp [h.1, gotNames]
  | cons i rest ih =>
    by_cases hmem : i.module = ascii "GOT.mem"
    · have hfunc : i.module ≠ ascii "GOT.func" := fun hf => gotMem_ne_gotFunc (hmem.symm.trans hf)
      rw [gotNames_cons_of_ne hfunc]
      simp only [resolveGot, hmem, if_true] at h
      cases hentry : gotMemEntry s i.name with
      | error e => simp [hentry] at h
      | ok v =>
        rw [hentry] at h
        have hrest := ih hno h
        exact hrest
    · simp only [resolveGot, hmem, if_false] at h
      by_cases hfunc : i.module = ascii "GOT.func"
      · simp only [hfunc, if_true] at h
        cases hentry : gotFuncEntry P i.name s with
        | mk r t =>
          cases r with
          | error e => simp [hentry] at h
          | ok v =>
            rw [hentry] at h
            rw [ih (noFunction_of_chain (chain_gotFuncEntry hentry) hno) h,
              gotNames_cons_self hfunc]
            by_cases hn : n = i.name
            · subst hn
              simp [JsMap.get_set_self, gotFuncEntry_noFunction hno hentry]
            · simp [hn, JsMap.get_set_of_ne _ _ hn]
      · simp only [hfunc, if_false] at h
        rw [gotNames_cons_of_ne hfunc]
        exact ih hno h

end Offsets

section Load

variable {P : Process} {s : Loader} {replay : Bool} {c : LoadCall} {plan : Plan}

/-- With every record instantiated, phase 1 refuses with an errno and never throws. -/
theorem envImport_errno (hs : Instantiated s) {i : Import} {r : Refusal}
    (h : envImport P s i = .error r) : r = .errno enoexec := by
  obtain ⟨v, hv⟩ := resolveExport_instantiated hs i.name
  unfold envImport at h
  simp only [hv] at h
  grind

theorem resolveEnv_errno (hs : Instantiated s) {imports : List Import}
    {env : JsMap Utf16 Value} {r : Refusal} (h : resolveEnv P s imports env = .error r) :
    r = .errno enoexec := by
  induction imports generalizing env with
  | nil => simp [resolveEnv] at h
  | cons i rest ih =>
    simp only [resolveEnv] at h
    split at h
    · exact ih h
    · split at h
      · rename_i r' hr'
        rw [← envImport_errno hs hr']
        simpa using h.symm
      · exact ih h
      · exact ih h

theorem prepare_errno (hs : Instantiated s) {bytes : List UInt8} {r : Refusal}
    (h : prepare P s bytes = .error r) : ∃ e, 0 < e ∧ r = .errno e := by
  unfold prepare at h
  split at h
  · exact ⟨einval, by decide, by simpa using h.symm⟩
  · split at h
    · exact ⟨enoexec, by decide, by simpa using h.symm⟩
    · split at h
      · split at h
        · rename_i r' hr'
          refine ⟨enoexec, by decide, ?_⟩
          rw [← resolveEnv_errno hs hr']
          simpa using h.symm
        · cases h
      · exact ⟨enoexec, by decide, by simpa using h.symm⟩

theorem noData_publish {n : Utf16} (hno : NoData s n) : NoData (publish c plan s) n := by
  intro k number h
  rw [resolveExport_publish] at h
  split at h
  · cases h
  · rename_i r hr
    exact hno k number (hr.trans h)
  · split at h
    · cases h
    · simp at h

theorem noFunction_publish {n : Utf16} (hno : NoFunction s n) :
    NoFunction (publish c plan s) n := by
  intro k f h
  rw [resolveExport_publish] at h
  split at h
  · cases h
  · rename_i r hr
    exact hno k f (hr.trans h)
  · split at h
    · cases h
    · simp at h

theorem chain_retract {s' : Loader} {table : List (Option Fn)}
    (hchain : chain s' = chain (publish c plan s)) : chain (retract plan s s' table) = chain s := by
  calc (s'.modules.dropLast).map DlModule.core
      = (chain s').dropLast := List.map_dropLast
    _ = (chain (publish c plan s)).dropLast := by rw [hchain]
    _ = chain s := by simp [chain, publish]

theorem unpublished_retract {s' : Loader} {table : List (Option Fn)} (hs : Instantiated s)
    (hchain : chain s' = chain (publish c plan s))
    (hlog : s'.opLog = s.opLog ++ [.load s.modules.length]) :
    Unpublished s (retract plan s s' table) where
  chain_eq := chain_retract hchain
  instantiated := instantiated_of_chain (chain_retract hchain) hs
  log := .inr ⟨plan.tableCount, by simp [retract, hlog]⟩

theorem start_cases (P : Process) (replay : Bool) (c : LoadCall) (imports : Imports)
    (handle : ℕ) :
    (((!P.mmu || P.engine.mmuStart c.bytes imports) && (replay || !c.initThrows)) = true ∧
      start P replay c imports handle = .ok handle) ∨
    (((!P.mmu || P.engine.mmuStart c.bytes imports) && (replay || !c.initThrows)) = false ∧
      start P replay c imports handle = .error .trap) := by
  unfold start
  cases P.mmu <;> cases P.engine.mmuStart c.bytes imports <;> cases replay <;>
    cases c.initThrows <;> simp

theorem load_eq_link (hplan : prepare P s c.bytes = .ok plan) (hroom : Room P s plan.tableCount)
    {got : Got} {s' : Loader}
    (hgot : resolveGot P plan.info.imports noGot (publish c plan s) = (.ok got, s')) :
    load P replay c s = link P replay c plan s got s' := by
  have hgot' : resolveGot P plan.info.imports ⟨JsMap.empty, JsMap.empty⟩ (publish c plan s) =
      (.ok got, s') := hgot
  simp only [load, hplan, commit, hroom, if_true, hgot']

/-- A finished load has one module more. -/
theorem chain_complete_ne {s' : Loader} {i : Instance} {table : List (Option Fn)}
    (hchain : chain s' = chain (publish c plan s)) : chain (complete s s' i table) ≠ chain s := by
  intro h
  have hlen := congrArg List.length h
  have hlen' := congrArg List.length hchain
  simp only [chain_length, complete, publish, List.length_modify, List.length_append,
    List.length_singleton] at hlen hlen'
  omega

theorem atomic_of_admitted (hs : Instantiated s) (hmain : s.modules ≠ [])
    (hadmits : admitsLoad P replay c s) : Atomic P replay c s := by
  cases hplan : prepare P s c.bytes with
  | error r =>
    obtain ⟨e, hpos, rfl⟩ := prepare_errno hs hplan
    have hload : load P replay c s = (.ok (-e), s) := by simp only [load, hplan]
    refine ⟨fun r _ => ⟨e, hpos, hload⟩, ?_, ?_⟩
    · intro plan hplan'
      rw [hplan] at hplan'
      cases hplan'
    · intro _
      rw [hload]
      exact ⟨rfl, hs, .inl rfl⟩
  | ok plan =>
    simp only [admitsLoad, hplan] at hadmits
    obtain ⟨hres, hstarts⟩ := hadmits
    obtain ⟨hroom, hready⟩ := (publish_ready_iff hs hmain).mpr hres
    obtain ⟨got, s', hgot⟩ := (resolveGot_ok_iff P plan.info.imports noGot _).mpr hready
    have hload : load P replay c s = link P replay c plan s got s' :=
      load_eq_link hplan hroom hgot
    have hchain : chain s' = chain (publish c plan s) := by
      simpa only [hgot] using chain_resolveGot P plan.info.imports noGot (publish c plan s)
    have hlog : s'.opLog = (publish c plan s).opLog := by
      simpa only [hgot] using opLog_resolveGot P plan.info.imports noGot (publish c plan s)
    refine ⟨?_, ?_, ?_⟩
    · intro r hr
      rw [hplan] at hr
      cases hr
    · intro plan' hplan'
      obtain rfl : plan = plan' := Except.ok.inj (hplan.symm.trans hplan')
      refine ⟨got, s', hgot, ?_, ?_, hload⟩
      · intro n hn hno
        rw [resolveGot_mem_get (noData_publish hno) hgot, if_pos hn]
      · intro n hn hno
        rw [resolveGot_func_get (noFunction_publish hno) hgot, if_pos hn]
    · intro hnone
      rw [hload] at hnone ⊢
      simp only [startsUp, hgot] at hstarts
      unfold link at hnone ⊢
      split
      · exact unpublished_retract hs hchain hlog
      · rename_i i table hinst
        rw [hinst] at hstarts hnone
        refine absurd ⟨s.modules.length + 1, by omega, ?_⟩ hnone
        rcases start_cases P replay c (importsOf c plan s got) (s.modules.length + 1) with
          ⟨-, hstart⟩ | ⟨hthrows, -⟩
        · exact hstart
        · simp [hthrows] at hstarts

/-- A load that throws or leaves something behind is not atomic. -/
theorem admitted_of_atomic (hs : Instantiated s) (hmain : s.modules ≠ [])
    (hatomic : Atomic P replay c s) : admitsLoad P replay c s := by
  unfold admitsLoad
  split
  · rename_i plan hplan
    obtain ⟨got, s', hgot, -, -, hlink⟩ := hatomic.offsets plan hplan
    have hready : GotReady P (publish c plan s) plan.info.imports :=
      (resolveGot_ok_iff P plan.info.imports noGot _).mp ⟨got, s', hgot⟩
    have hroom : Room P s plan.tableCount := by
      by_contra hfull
      have hload : load P replay c s =
          (.error .rangeError, { s with opLog := s.opLog ++ [.load s.modules.length] }) := by
        simp only [load, hplan, commit, hfull, if_false]
      have hun := hatomic.undone (by simp [hload])
      rw [hload] at hun
      rcases hun.log with h | ⟨count, h⟩
      · simp at h
      · simp at h
    refine ⟨(publish_ready_iff hs hmain).mp ⟨hroom, hready⟩, ?_⟩
    simp only [startsUp, hgot]
    split
    · rfl
    · rename_i i table hinst
      rcases start_cases P replay c (importsOf c plan s got) (s.modules.length + 1) with
        ⟨hok, -⟩ | ⟨-, hthrows⟩
      · exact hok
      · have hchain : chain s' = chain (publish c plan s) := by
          simpa only [hgot] using chain_resolveGot P plan.info.imports noGot (publish c plan s)
        have hload : load P replay c s = (.error .trap, complete s s' i table) := by
          simp only [hlink, link, hinst, hthrows]
        have hun := hatomic.undone (by simp [hload])
        rw [hload] at hun
        exact absurd hun.chain_eq (chain_complete_ne hchain)
  · trivial

end Load

/-- What every admitted operation keeps. -/
def Whole (s : Loader) : Prop := Instantiated s ∧ s.modules ≠ []

theorem whole_of_chain {s s' : Loader} (h : chain s' = chain s) (hs : Whole s) : Whole s' := by
  refine ⟨instantiated_of_chain h hs.1, ?_⟩
  intro hnil
  have hlen := congrArg List.length h
  rw [chain_length, chain_length, hnil] at hlen
  exact hs.2 (List.length_eq_zero_iff.mp hlen.symm)

theorem chain_dlsym (P : Process) (handle : ℤ) (name : Utf16) (s : Loader) :
    chain (dlsym P handle name s).2 = chain s := by
  rcases dlsym_cases P handle name s with h | ⟨k, m, i, f, -, -, -, h⟩
  · rw [h]
  · rw [h]
    exact chain_functionAddress P k name f true s

theorem chain_growHole (P : Process) (count : ℕ) (s : Loader) :
    chain (growHole P count s).2 = chain s := by
  unfold growHole
  split <;> rfl

theorem chain_reinstall (P : Process) (k : ℕ) (name : Utf16) (s : Loader) :
    chain (reinstall P k name s).2 = chain s := by
  unfold reinstall
  split
  · rfl
  · split
    · rfl
    · split
      · rename_i f hf
        have hdelete : chain { s with modules := s.modules.modify k fun m =>
            { m with dynSlots := m.dynSlots.delete name } } = chain s :=
          map_modify_of_fixed DlModule.core _ _ _ fun _ => rfl
        have haddress := chain_functionAddress P k name f true { s with
          modules := s.modules.modify k fun m =>
            { m with dynSlots := m.dynSlots.delete name } }
        split
        · rename_i h
          rw [h] at haddress
          exact haddress.trans hdelete
        · rename_i h
          rw [h] at haddress
          exact haddress.trans hdelete
      · rfl

theorem whole_step {P : Process} {s : Loader} (op : Op) (hs : Whole s)
    (hadmits : admitsOp P s op) : Whole (opStep P s op) := by
  cases op with
  | load replay c =>
    have hatomic := atomic_of_admitted hs.1 hs.2 hadmits
    have hout := load_outcome P replay c s
    simp only [opStep]
    by_cases hhandle : ∃ handle : ℕ, 0 < handle ∧ (load P replay c s).1 = .ok handle
    · obtain ⟨handle, hpos, hok⟩ := hhandle
      generalize load P replay c s = result at hout hok
      cases hout with
      | refused e hplan => exact hs
      | blocked e hplan => exact hs
      | noRoom plan hplan hroom => cases hok
      | halted plan hplan hroom e s' hgot => cases hok
      | retracted plan hplan hroom got s' hgot table hinst =>
        simp only [Except.ok.injEq] at hok
        omega
      | completed plan hplan hroom got s' hgot i table hinst =>
        have hchain : chain s' = chain (publish c plan s) := by
          simpa only [hgot] using chain_resolveGot P plan.info.imports noGot (publish c plan s)
        refine ⟨instantiated_complete hs.1 hchain, ?_⟩
        intro hnil
        have hlen := congrArg List.length hchain
        have hzero := congrArg List.length hnil
        simp only [chain_length, complete, publish, List.length_modify, List.length_append,
          List.length_singleton, List.length_nil] at hlen hzero
        omega
    · exact whole_of_chain (hatomic.undone hhandle).chain_eq hs
  | dlsym handle name => exact whole_of_chain (chain_dlsym P handle name s) hs
  | growHole count => exact whole_of_chain (chain_growHole P count s) hs
  | reinstall k name => exact whole_of_chain (chain_reinstall P k name s) hs

theorem whole_boot {P : Process} {fresh : Loader} (h : boot P = .ok fresh) : Whole fresh :=
  ⟨(replays_boot h).instantiated, (replays_boot h).nonempty⟩

/-- Failure atomicity: in every state that admitted operations reach, a load keeps its
promises exactly when it is admitted itself. -/
theorem load_atomic_iff (P : Process) (fresh : Loader) (hboot : boot P = .ok fresh)
    (history : List Op) (hhistory : Along (admitsOp P) (opStep P) fresh history)
    (replay : Bool) (c : LoadCall) :
    Atomic P replay c (run (opStep P) fresh history) ↔
      admitsLoad P replay c (run (opStep P) fresh history) := by
  have hwhole : Whole (run (opStep P) fresh history) :=
    run_along Whole (fun _ op hs hadmits => whole_step op hs hadmits) history
      (whole_boot hboot) hhistory
  exact ⟨admitted_of_atomic hwhole.1 hwhole.2, atomic_of_admitted hwhole.1 hwhole.2⟩

section Sample

/-- A side module whose table of function addresses asks for a symbol `w` that nothing
exports. -/
def sampleWeakBytes : List UInt8 :=
  [0, 0x61, 0x73, 0x6d, 1, 0, 0, 0] ++ sampleDylink ++
  [2, 15, 1, 8, 0x47, 0x4f, 0x54, 0x2e, 0x66, 0x75, 0x6e, 0x63, 1, 0x77, 3, 0x7f, 1]

/-- Loaded for the global scope, the module looks for `w` in its own record: the load
throws, the record stays without an instance, and every later lookup of a symbol that
is not found before it throws as well. -/
theorem global_load_of_weak_symbol :
    let s := (load sampleProcess false (sampleLoad sampleWeakBytes true) sampleFresh).2
    (load sampleProcess false (sampleLoad sampleWeakBytes true) sampleFresh).1 =
        .error .typeError ∧
      s.modules.map (fun m => m.inst.isSome) = [true, false] ∧
      (dlsym sampleProcess 0 (ascii "g") s).1 = .error .typeError ∧
      (load sampleProcess false (sampleLoad sampleWeakBytes false) s).1 = .error .typeError ∧
      ¬ Atomic sampleProcess false (sampleLoad sampleWeakBytes true) sampleFresh := by
  have hthrows : (load sampleProcess false (sampleLoad sampleWeakBytes true) sampleFresh).1 =
      .error .typeError := by decide +kernel
  refine ⟨hthrows, by decide +kernel, by decide +kernel, by decide +kernel, ?_⟩
  intro hatomic
  have hmodules := (hatomic.undone (by simp [hthrows])).chain_eq
  have hlength := congrArg List.length hmodules
  revert hlength
  decide +kernel

/-- Loaded for itself, after other loads and lookups, the same module gets 0 and a
handle. -/
theorem load_atomic_iff_sample :
    let history := [.load false (sampleLoad sampleSideBytes true), .dlsym 2 (ascii "f")]
    Along (admitsOp sampleProcess) (opStep sampleProcess) sampleFresh history ∧
      Atomic sampleProcess false (sampleLoad sampleWeakBytes false)
        (run (opStep sampleProcess) sampleFresh history) := by
  have hall : Along (admitsOp sampleProcess) (opStep sampleProcess) sampleFresh
      [.load false (sampleLoad sampleSideBytes true), .dlsym 2 (ascii "f")] := by
    decide +kernel
  refine ⟨hall, ?_⟩
  exact (load_atomic_iff sampleProcess sampleFresh sampleFresh_boot _ hall false
    (sampleLoad sampleWeakBytes false)).mpr (by decide +kernel)

end Sample

end NixWasm.DynamicLoader
