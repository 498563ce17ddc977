import NixWasm.DylinkGot
import NixWasm.Runs

/-!
Replay of a snapshot in a forked child. The log of a loader lists the operations that
changed the table, but not the installs made while a load builds its offset tables:
replaying the load makes those again. This brings the child to the parent's very state
as long as no load stops half way, which leaves a record or a log entry without its
instance, and no load that the engine refuses has already changed the table beyond the
hole its tombstone stands for.
-/
namespace NixWasm.DynamicLoader

open Dylink Unicode Runs

/-- A call that a guest makes on its loader. -/
inductive Call where
  | load (c : LoadCall)
  | dlsym (handle : ℤ) (name : Utf16)

def step (P : Process) (s : Loader) : Call → Loader
  | .load c => (load P false c s).2
  | .dlsym handle name => (dlsym P handle name s).2

/-- The side modules of a snapshot. -/
def sideModules (ms : List DlModule) : Except Exn (List SnapModule) :=
  (ms.filter fun m => m.handle ≠ 1).mapM snapModule

theorem snapshot_eq (s : Loader) :
    snapshot s = (sideModules s.modules).map fun modules => ⟨modules, s.opLog⟩ := by
  simp only [snapshot, sideModules]
  cases (s.modules.filter fun m => m.handle ≠ 1).mapM snapModule <;> rfl

/-- A record without what its loading and the installs fill in. -/
def DlModule.shell (m : DlModule) : DlModule :=
  { m with inst := none, dynSlots := JsMap.empty }

theorem sideModules_shell (ms : List DlModule) :
    sideModules (ms.map DlModule.shell) = sideModules ms := by
  simp only [sideModules, List.filter_map, List.mapM_map]
  rfl

theorem sideModules_congr {ms ms' : List DlModule}
    (h : ms'.map DlModule.shell = ms.map DlModule.shell) : sideModules ms' = sideModules ms := by
  rw [← sideModules_shell ms', ← sideModules_shell ms, h]

theorem shell_of_chain {s s' : Loader} (h : chain s' = chain s) :
    s'.modules.map DlModule.shell = s.modules.map DlModule.shell := by
  have hshell : ∀ t : Loader, (chain t).map DlModule.shell = t.modules.map DlModule.shell := by
    intro t
    simp only [chain, List.map_map]
    rfl
  rw [← hshell s', ← hshell s, h]

theorem sideModules_append {ms : List DlModule} {m : DlModule} {sides : List SnapModule}
    {side : SnapModule} (hms : sideModules ms = .ok sides) (hm : m.handle ≠ 1)
    (hside : snapModule m = .ok side) : sideModules (ms ++ [m]) = .ok (sides ++ [side]) := by
  unfold sideModules at hms ⊢
  rw [List.filter_append, List.mapM_append, hms]
  simp [hm, hside]
  rfl

theorem replayEntry_append {P : Process} {modules extra : List SnapModule} {next : ℕ}
    {entry : DlOp} {s s' : Loader} {n : ℕ}
    (h : replayEntry P modules next entry s = (.ok n, s')) :
    replayEntry P (modules ++ extra) next entry s = (.ok n, s') := by
  cases entry with
  | load k =>
    simp only [replayEntry] at h ⊢
    cases hm : modules[next]? with
    | none => simp [hm] at h
    | some m =>
      have hlt : next < modules.length := (List.getElem?_eq_some_iff.mp hm).1
      rw [List.getElem?_append_left hlt, hm]
      rwa [hm] at h
  | grow count => exact h
  | install k name => exact h

/-- A replay that ends well does not look at the side modules after its own. -/
theorem replayFrom_append {P : Process} {modules : List SnapModule} (extra : List SnapModule)
    {log : List DlOp} {next n : ℕ} {s s' : Loader}
    (h : replayFrom P modules log next s = (.ok n, s')) :
    replayFrom P (modules ++ extra) log next s = (.ok n, s') := by
  induction log generalizing next s with
  | nil => exact h
  | cons entry rest ih =>
    simp only [replayFrom] at h ⊢
    cases hentry : replayEntry P modules next entry s with
    | mk r t =>
      cases r with
      | error e => simp [hentry] at h
      | ok next' =>
        rw [replayEntry_append hentry]
        rw [hentry] at h
        exact ih h

theorem replayFrom_snoc {P : Process} {modules : List SnapModule} {log : List DlOp}
    {entry : DlOp} {next n : ℕ} {s s' : Loader}
    (h : replayFrom P modules log next s = (.ok n, s')) :
    replayFrom P modules (log ++ [entry]) next s = replayEntry P modules n entry s' := by
  induction log generalizing next s with
  | nil =>
    simp only [replayFrom, Prod.mk.injEq, Except.ok.injEq] at h
    obtain ⟨rfl, rfl⟩ := h
    simp only [List.nil_append, replayFrom]
    cases replayEntry P modules next entry s with
    | mk r t => cases r <;> rfl
  | cons first rest ih =>
    simp only [List.cons_append, replayFrom] at h ⊢
    cases hentry : replayEntry P modules next first s with
    | mk r t =>
      cases r with
      | error e => simp [hentry] at h
      | ok next' =>
        rw [hentry] at h
        exact ih h

/-- The child's side of the invariant: a fresh loader that replays the snapshot of `s`
ends in `s` itself. -/
structure Replays (P : Process) (fresh s : Loader) : Prop where
  instantiated : Instantiated s
  sides : ∃ modules, sideModules s.modules = .ok modules ∧
    modules.length + 1 = s.modules.length ∧
    replayFrom P modules s.opLog 0 fresh = (.ok modules.length, s)

/-- When no symbol needs a new slot, building the offset tables changes nothing. -/
theorem resolveGot_unchanged (P : Process) (imports : List Import) (got : Got) (s : Loader)
    (h : newSlots (needsSlot s) (gotNames (ascii "GOT.func") imports) = []) :
    (resolveGot P imports got s).2 = s := by
  induction imports generalizing got with
  | nil => rfl
  | cons i rest ih =>
    by_cases hmem : i.module = ascii "GOT.mem"
    · have hfunc : i.module ≠ ascii "GOT.func" := fun hf => gotMem_ne_gotFunc (hmem.symm.trans hf)
      rw [gotNames_cons_of_ne hfunc] at h
      simp only [resolveGot, hmem, if_true]
      split
      · rfl
      · exact ih _ h
    · by_cases hfunc : i.module = ascii "GOT.func"
      · rw [gotNames_cons_self hfunc, newSlots] at h
        simp only [resolveGot, hfunc, gotMem_ne_gotFunc.symm, if_false, if_true]
        rcases gotFuncEntry_spec P i.name s with
          ⟨k, f, entry, hneeds, -⟩ | ⟨v, -, hknown, hentry⟩ | ⟨e, -, hentry⟩
        · simp [hneeds] at h
        · rw [hentry]
          simp only [hknown] at h
          exact ih _ h
        · rw [hentry]
      · rw [gotNames_cons_of_ne hfunc] at h
        simp only [resolveGot, hmem, hfunc, if_false]
        exact ih _ h

/-- The engine's answer to the instantiation keeps the load replayable: a refusal comes
before any new slot and any element entry, and an instance gets through its start
function. -/
def answered (P : Process) (s : Loader) (c : LoadCall) (plan : Plan) : Bool :=
  match resolveGot P plan.info.imports noGot (publish c plan s) with
  | (.error _, _) => true
  | (.ok got, s') =>
    match instantiate P.engine c.bytes (importsOf c plan s got) (.side s.opLog.length)
        s'.table with
    | (none, table) =>
      decide (newSlots (needsSlot s) (gotNames (ascii "GOT.func") plan.info.imports) = [] ∧
        table = s'.table)
    | (some _, _) => !P.mmu || P.engine.mmuStart c.bytes (importsOf c plan s got)

/-- What a load must meet when it passes phase 1; lookups are free. -/
def admitsReplay (P : Process) (s : Loader) : Call → Prop
  | .load c =>
    match prepare P s c.bytes with
    | .ok plan => Resolvable P s c plan ∧ answered P s c plan = true
    | .error _ => True
  | .dlsym _ _ => True

instance (P : Process) (s : Loader) (call : Call) : Decidable (admitsReplay P s call) :=
  match call with
  | .load c =>
    match h : prepare P s c.bytes with
    | .ok plan =>
      decidable_of_iff (Resolvable P s c plan ∧ answered P s c plan = true)
        (by simp only [admitsReplay, h])
    | .error _ => isTrue (by simp only [admitsReplay, h])
  | .dlsym _ _ => isTrue trivial

section Step

variable {P : Process} {fresh s : Loader}

theorem Replays.nonempty (h : Replays P fresh s) : s.modules ≠ [] := by
  obtain ⟨modules, -, hlen, -⟩ := h.sides
  intro hnil
  simp [hnil] at hlen

/-- One more entry at the end of the log, replayed from the parent's state. -/
theorem Replays.snoc (h : Replays P fresh s) {s' : Loader} (entry : DlOp)
    (hinst : Instantiated s')
    (hshell : s'.modules.map DlModule.shell = s.modules.map DlModule.shell)
    (hlog : s'.opLog = s.opLog ++ [entry])
    (hentry : ∀ modules n, replayEntry P modules n entry s = (.ok n, s')) :
    Replays P fresh s' := by
  obtain ⟨modules, hsides, hlen, hreplay⟩ := h.sides
  refine ⟨hinst, modules, ?_, ?_, ?_⟩
  · rw [sideModules_congr hshell, hsides]
  · rw [hlen]
    simpa using (congrArg List.length hshell).symm
  · rw [hlog, replayFrom_snoc hreplay, hentry]

theorem retract_publish (c : LoadCall) (plan : Plan) (s : Loader) :
    retract plan s (publish c plan s) (publish c plan s).table =
      { s with
        table := s.table ++ List.replicate plan.tableCount none
        opLog := s.opLog ++ [.grow plan.tableCount] } := by
  simp [retract, publish]

theorem Replays.retracted (h : Replays P fresh s) {c : LoadCall} {plan : Plan}
    (hroom : Room P s plan.tableCount) :
    Replays P fresh (retract plan s (publish c plan s) (publish c plan s).table) := by
  rw [retract_publish]
  refine h.snoc (.grow plan.tableCount) ?_ rfl rfl ?_
  · exact h.instantiated
  · intro modules n
    simp [replayEntry, growHole, hroom]

/-- A record of the finished load: the new one, with its instance, or an old one. -/
theorem getElem?_complete {c : LoadCall} {plan : Plan} {s' : Loader} {i : Instance}
    {table : List (Option Fn)} (hchain : chain s' = chain (publish c plan s)) {j : ℕ}
    {m : DlModule} (hm : (complete s s' i table).modules[j]? = some m) :
    (j = s.modules.length ∧ m.inst = some i) ∨
      ∃ m', s.modules[j]? = some m' ∧ m.core = m'.core := by
  simp only [complete, List.getElem?_modify] at hm
  obtain ⟨x, hx, rfl⟩ := Option.map_eq_some_iff.mp hm
  by_cases hj : s.modules.length = j
  · exact .inl ⟨hj.symm, by simp [hj]⟩
  · right
    have hcore : (chain (publish c plan s))[j]? = some x.core := by
      rw [← hchain, chain_getElem?, hx, Option.map_some]
    rw [chain_getElem?, Option.map_eq_some_iff] at hcore
    obtain ⟨m', hm', hcore⟩ := hcore
    have hlt : j < s.modules.length := by
      have hbound := (List.getElem?_eq_some_iff.mp hm').1
      simp only [publish, List.length_append, List.length_singleton] at hbound
      omega
    refine ⟨m', ?_, ?_⟩
    · simpa only [publish, List.getElem?_append_left hlt] using hm'
    · simp [hj, hcore]

theorem instantiated_complete {c : LoadCall} {plan : Plan} {s' : Loader} {i : Instance}
    {table : List (Option Fn)} (hs : Instantiated s)
    (hchain : chain s' = chain (publish c plan s)) : Instantiated (complete s s' i table) := by
  intro m hmem
  obtain ⟨j, hj⟩ := List.getElem?_of_mem hmem
  rcases getElem?_complete hchain hj with ⟨-, hi⟩ | ⟨m', hm', hcore⟩
  · rw [hi]
    rfl
  · rw [inst_of_core hcore]
    exact hs m' (List.mem_of_getElem? hm')

theorem shell_complete {c : LoadCall} {plan : Plan} {s' : Loader} {i : Instance}
    {table : List (Option Fn)} (hchain : chain s' = chain (publish c plan s)) :
    (complete s s' i table).modules.map DlModule.shell =
      (s.modules ++ [newRecord c plan s]).map DlModule.shell := by
  have hmodify : (complete s s' i table).modules.map DlModule.shell =
      s'.modules.map DlModule.shell := map_modify_of_fixed DlModule.shell _ _ _ fun _ => rfl
  rw [hmodify, shell_of_chain hchain]
  rfl

/-- The load of a snapshot is the parent's load, without relocations and constructors. -/
theorem load_replayed {c : LoadCall} {plan : Plan} (hplan : prepare P s c.bytes = .ok plan)
    (hroom : Room P s plan.tableCount) {got : Got} {s' : Loader}
    (hgot : resolveGot P plan.info.imports noGot (publish c plan s) = (.ok got, s'))
    {i : Instance} {table : List (Option Fn)}
    (hinst : instantiate P.engine c.bytes (importsOf c plan s got) (.side s.opLog.length)
      s'.table = (some i, table))
    (hstart : P.mmu = true → P.engine.mmuStart c.bytes (importsOf c plan s got) = true) :
    load P true ⟨c.bytes, c.memoryBase, c.name, c.global, false⟩ s =
      (.ok (s.modules.length + 1 : ℕ), complete s s' i table) := by
  have hstarted : start P true ⟨c.bytes, c.memoryBase, c.name, c.global, false⟩
      (importsOf c plan s got) (s.modules.length + 1) = .ok (s.modules.length + 1 : ℕ) := by
    unfold start
    by_cases hmmu : P.mmu = true
    · simp [hmmu, hstart hmmu]
    · simp [hmmu]
  have hgot' : resolveGot P plan.info.imports ⟨JsMap.empty, JsMap.empty⟩
      (publish ⟨c.bytes, c.memoryBase, c.name, c.global, false⟩ plan s) = (.ok got, s') := hgot
  have hinst' : instantiate P.engine c.bytes
      (importsOf ⟨c.bytes, c.memoryBase, c.name, c.global, false⟩ plan s got)
      (.side s.opLog.length) s'.table = (some i, table) := hinst
  simp only [load, hplan, commit, hroom, if_true, hgot', link, hinst']
  exact Prod.ext hstarted rfl

theorem Replays.completed (h : Replays P fresh s) {c : LoadCall} {plan : Plan}
    (hplan : prepare P s c.bytes = .ok plan) (hroom : Room P s plan.tableCount) {got : Got}
    {s' : Loader}
    (hgot : resolveGot P plan.info.imports noGot (publish c plan s) = (.ok got, s'))
    {i : Instance} {table : List (Option Fn)}
    (hinst : instantiate P.engine c.bytes (importsOf c plan s got) (.side s.opLog.length)
      s'.table = (some i, table))
    (hstart : P.mmu = true → P.engine.mmuStart c.bytes (importsOf c plan s got) = true) :
    Replays P fresh (complete s s' i table) := by
  obtain ⟨modules, hsides, hlen, hreplay⟩ := h.sides
  have hchain : chain s' = chain (publish c plan s) := by
    simpa only [hgot] using chain_resolveGot P plan.info.imports noGot (publish c plan s)
  have hlog : s'.opLog = (publish c plan s).opLog := by
    simpa only [hgot] using opLog_resolveGot P plan.info.imports noGot (publish c plan s)
  have hshell : (complete s s' i table).modules.map DlModule.shell =
      (s.modules ++ [newRecord c plan s]).map DlModule.shell := shell_complete hchain
  have hhandle : (newRecord c plan s).handle ≠ 1 := by
    have hpos := List.length_pos_iff.mpr h.nonempty
    simp only [newRecord]
    omega
  refine ⟨instantiated_complete h.instantiated hchain,
    modules ++ [⟨c.name, c.bytes, c.memoryBase, c.global⟩], ?_, ?_, ?_⟩
  · rw [sideModules_congr hshell]
    exact sideModules_append hsides hhandle rfl
  · have hcount := congrArg List.length hshell
    simp only [List.length_map, List.length_append, List.length_singleton] at hcount ⊢
    omega
  · have hold := replayFrom_append [⟨c.name, c.bytes, c.memoryBase, c.global⟩] hreplay
    have hload := load_replayed hplan hroom hgot hinst hstart
    have hnext : (modules ++ [(⟨c.name, c.bytes, c.memoryBase, c.global⟩ : SnapModule)])[
        modules.length]? = some ⟨c.name, c.bytes, c.memoryBase, c.global⟩ := by simp
    rw [show (complete s s' i table).opLog = s.opLog ++ [.load s.modules.length] from hlog,
      replayFrom_snoc hold]
    have hpos : ¬ ((s.modules.length + 1 : ℕ) : ℤ) < 0 := by omega
    simp only [replayEntry, hnext, hload, if_neg hpos, List.length_append,
      List.length_singleton]

theorem modify_delete_absent {k : ℕ} {name : Utf16} {m : DlModule}
    (hm : s.modules[k]? = some m) (hdyn : m.dynSlots.get name = none) :
    s.modules.modify k (fun m => { m with dynSlots := m.dynSlots.delete name }) = s.modules := by
  apply List.ext_getElem?
  intro j
  rw [List.getElem?_modify]
  by_cases hj : k = j
  · subst hj
    simp [hm, JsMap.delete_of_get_none hdyn]
  · cases s.modules[j]? <;> simp [hj]

theorem Replays.installed (h : Replays P fresh s) {k : ℕ} {m : DlModule} {i : Instance}
    {name : Utf16} {f : Fn} {entry : Fn × Bool} (hm : s.modules[k]? = some m)
    (hi : m.inst = some i) (hf : i.get name = some (.func f))
    (hdyn : m.dynSlots.get name = none)
    (haddress : functionAddress P k name f true s =
      (.ok s.table.length, install s k name entry true)) :
    Replays P fresh (install s k name entry true) := by
  have hchain := chain_install s k name entry true
  refine h.snoc (.install k name) (instantiated_of_chain hchain h.instantiated)
    (shell_of_chain hchain) rfl ?_
  intro modules n
  simp only [replayEntry, reinstall, hm, hi, hf, modify_delete_absent hm hdyn, haddress]

theorem replays_step (h : Replays P fresh s) (call : Call) (hadmits : admitsReplay P s call) :
    Replays P fresh (step P s call) := by
  cases call with
  | load c =>
    have hout := load_outcome P false c s
    simp only [step]
    generalize load P false c s = result at hout
    cases hout with
    | refused e hplan => exact h
    | blocked e hplan => exact h
    | noRoom plan hplan hroom =>
      simp only [admitsReplay, hplan] at hadmits
      have hready := (publish_ready_iff h.instantiated h.nonempty).mpr hadmits.1
      exact absurd hready.1 hroom
    | halted plan hplan hroom e s' hgot =>
      simp only [admitsReplay, hplan] at hadmits
      have hready := (publish_ready_iff h.instantiated h.nonempty).mpr hadmits.1
      obtain ⟨got, t, hok⟩ := (resolveGot_ok_iff P plan.info.imports noGot _).mpr hready.2
      rw [hok] at hgot
      cases hgot
    | retracted plan hplan hroom got s' hgot table hinst =>
      simp only [admitsReplay, hplan, answered, hgot, hinst, decide_eq_true_eq] at hadmits
      obtain ⟨-, hslots, rfl⟩ := hadmits
      have hs' : s' = publish c plan s := by
        rw [← funext (needsSlot_publish h.instantiated)] at hslots
        have hsame := resolveGot_unchanged P plan.info.imports noGot (publish c plan s) hslots
        rwa [hgot] at hsame
      subst hs'
      exact h.retracted hroom
    | completed plan hplan hroom got s' hgot i table hinst =>
      simp only [admitsReplay, hplan, answered, hgot, hinst] at hadmits
      refine h.completed hplan hroom hgot hinst ?_
      intro hmmu
      simpa [hmmu] using hadmits.2
  | dlsym handle name =>
    simp only [step]
    rcases dlsym_cases P handle name s with hsame | ⟨k, m, i, f, hm, hi, hf, hlookup⟩
    · rwa [hsame]
    · rw [hlookup]
      rcases functionAddress_cases P k name f true s with
        hsame | ⟨m', entry, hm', -, hdyn, -, -, haddress⟩
      · rwa [hsame]
      · rw [haddress]
        obtain rfl : m = m' := Option.some.inj (hm.symm.trans hm')
        exact h.installed hm hi hf hdyn haddress

end Step

theorem replays_boot {P : Process} {fresh : Loader} (h : boot P = .ok fresh) :
    Replays P fresh fresh := by
  unfold boot at h
  cases hinfo : parseDylinkModule P.main.bytes with
  | error e => simp [hinfo] at h
  | ok info =>
    simp only [hinfo] at h
    cases h
    refine ⟨?_, [], ?_, rfl, rfl⟩
    · simp [Instantiated, mainRecord]
    · simp [sideModules, mainRecord]
      rfl

/-- Fork replay: after any history whose loads stay replayable, a fresh loader with the
same main module that replays the parent's snapshot ends in the parent's state, so its
table has the same length and the same function in every slot. -/
theorem replay_snapshot (P : Process) (fresh : Loader) (hboot : boot P = .ok fresh)
    (history : List Call) (hhistory : Along (admitsReplay P) (step P) fresh history) :
    ∃ snap next, snapshot (run (step P) fresh history) = .ok snap ∧
      replay P snap fresh = (.ok next, run (step P) fresh history) := by
  have hinv : Replays P fresh (run (step P) fresh history) :=
    run_along (Replays P fresh) (fun _ call h hadmits => replays_step h call hadmits) history
      (replays_boot hboot) hhistory
  obtain ⟨modules, hsides, -, hreplay⟩ := hinv.sides
  refine ⟨⟨modules, (run (step P) fresh history).opLog⟩, modules.length, ?_, hreplay⟩
  rw [snapshot_eq, hsides]
  rfl

section Sample

/-- A main module that exports one function `f`, which no element segment lists. -/
def sampleMainBytes : List UInt8 :=
  [0, 0x61, 0x73, 0x6d, 1, 0, 0, 0,
    1, 4, 1, 0x60, 0, 0,
    3, 2, 1, 0,
    7, 5, 1, 1, 0x66, 0, 0,
    10, 4, 1, 2, 0, 0x0b]

/-- The `dylink.0` section of a module that wants no memory and no table. -/
def sampleDylink : List UInt8 :=
  [0, 15, 8, 0x64, 0x79, 0x6c, 0x69, 0x6e, 0x6b, 0x2e, 0x30, 1, 4, 0, 0, 0, 0]

/-- A side module whose only import is `GOT.func.f`. -/
def sampleSideBytes : List UInt8 :=
  [0, 0x61, 0x73, 0x6d, 1, 0, 0, 0] ++ sampleDylink ++
  [2, 15, 1, 8, 0x47, 0x4f, 0x54, 0x2e, 0x66, 0x75, 0x6e, 0x63, 1, 0x66, 3, 0x7f, 1]

/-- The same module with a function import `x.g` from outside the loader's objects,
which the engine refuses at instantiate. -/
def sampleForeignBytes : List UInt8 :=
  [0, 0x61, 0x73, 0x6d, 1, 0, 0, 0] ++ sampleDylink ++
  [1, 4, 1, 0x60, 0, 0,
    2, 21, 2, 8, 0x47, 0x4f, 0x54, 0x2e, 0x66, 0x75, 0x6e, 0x63, 1, 0x66, 3, 0x7f, 1,
    1, 0x78, 1, 0x67, 0, 0]

/-- An engine that refuses a repeated export name and an import of another type, and
has nothing else to object. -/
def sampleEngine : Engine where
  tableMax := 10000000
  compiles bytes := decide ((image bytes).exports.map Export.name).Nodup
  links bytes imports :=
    (List.range ((image bytes).imports.filter fun i => i.kind = kindFunc).length).all fun k =>
      match funcImport bytes imports .main k with
      | some (.defined _ _ type) => decide (type = (image bytes).typeOf k)
      | some _ => false
      | none => true
  globalNumber _ _ _ := none
  initialises _ _ := true
  mmuStart _ _ := true

def sampleProcess : Process where
  engine := sampleEngine
  baseEnv _ := none
  mmu := false
  main := {
    bytes := sampleMainBytes
    memoryBase := 1024
    tableBase := 1
    inst := ⟨[(ascii "f", .func (.defined .main 0 (some ⟨[], []⟩)))]⟩
    table := [none, none] }

def sampleFresh : Loader :=
  match boot sampleProcess with
  | .ok s => s
  | .error _ => ⟨[], [], [], []⟩

theorem sampleFresh_boot : boot sampleProcess = .ok sampleFresh := rfl

def sampleLoad (bytes : List UInt8) (global : Bool) : LoadCall where
  bytes := bytes
  memoryBase := 4096
  name := ascii "side"
  global := global
  initThrows := false

/-- A load that fails after its table of function addresses was built: the slot of `f`
stays in the parent's table, and no log entry tells the child of it. -/
theorem replay_after_refused_load :
    let parent := run (step sampleProcess) sampleFresh [.load (sampleLoad sampleForeignBytes true)]
    boot sampleProcess = .ok sampleFresh ∧
      (dlsym sampleProcess 0 (ascii "f") parent).1 = .ok 2 ∧
      parent.table.length = 3 ∧
      parent.table[2]? = some (some (.defined .main 0 (some ⟨[], []⟩))) ∧
      ∃ snap next child, snapshot parent = .ok snap ∧
        replay sampleProcess snap sampleFresh = (.ok next, child) ∧
        child.table.length = 2 ∧ child.table[2]? = none := by
  refine ⟨sampleFresh_boot, by decide, by decide, by decide, ?_⟩
  exact ⟨⟨[], [.grow 0]⟩, 0, _, rfl, rfl, rfl, rfl⟩

/-- A history with an unlogged install, a cached lookup and a harmless refusal. -/
theorem replay_snapshot_sample :
    let history := [.load (sampleLoad sampleSideBytes true), .dlsym 1 (ascii "f"),
      .load (sampleLoad sampleForeignBytes false)]
    Along (admitsReplay sampleProcess) (step sampleProcess) sampleFresh history ∧
      ∃ snap next, snapshot (run (step sampleProcess) sampleFresh history) = .ok snap ∧
        replay sampleProcess snap sampleFresh =
          (.ok next, run (step sampleProcess) sampleFresh history) := by
  have hall : Along (admitsReplay sampleProcess) (step sampleProcess) sampleFresh
      [.load (sampleLoad sampleSideBytes true), .dlsym 1 (ascii "f"),
        .load (sampleLoad sampleForeignBytes false)] := by decide +kernel
  exact ⟨hall, replay_snapshot sampleProcess sampleFresh sampleFresh_boot _ hall⟩

end Sample

end NixWasm.DynamicLoader
