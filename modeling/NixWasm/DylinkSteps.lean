import NixWasm.DynamicLoader

/-!
What one operation of the loader can do. Dynamic installs change a record only in its
slot cache, so everything read from the rest of the chain survives them; a load adds
one record to the chain, and building its offset tables is a series of installs.
-/
namespace NixWasm.DynamicLoader

open Dylink Unicode

/-- A record without its cache of dynamic slots. -/
def DlModule.core (m : DlModule) : DlModule := { m with dynSlots := JsMap.empty }

section Core

variable {m m' : DlModule} (h : m.core = m'.core)
include h

theorem inst_of_core : m.inst = m'.inst := by
  simpa only [DlModule.core] using congrArg DlModule.inst h

theorem tableBase_of_core : m.tableBase = m'.tableBase := by
  simpa only [DlModule.core] using congrArg DlModule.tableBase h

theorem tableCount_of_core : m.tableCount = m'.tableCount := by
  simpa only [DlModule.core] using congrArg DlModule.tableCount h

theorem elemSlots_of_core : m.elemSlots = m'.elemSlots := by
  simpa only [DlModule.core] using congrArg DlModule.elemSlots h

theorem fpcast_of_core : m.fpcast = m'.fpcast := by
  simpa only [DlModule.core] using congrArg DlModule.fpcast h

theorem sigOf_of_core : m.sigOf = m'.sigOf := by
  simpa only [DlModule.core] using congrArg DlModule.sigOf h

end Core

/-- The module chain without the slot caches. -/
def chain (s : Loader) : List DlModule := s.modules.map DlModule.core

theorem map_modify_of_fixed {β : Type} (g : DlModule → β) (ms : List DlModule) (k : ℕ)
    (f : DlModule → DlModule) (hf : ∀ m, g (f m) = g m) : (ms.modify k f).map g = ms.map g := by
  apply List.ext_getElem?
  intro j
  rw [List.getElem?_map, List.getElem?_map, List.getElem?_modify]
  by_cases h : k = j
  · cases ms[j]? <;> simp [h, hf]
  · cases ms[j]? <;> simp [h]

theorem chain_install (s : Loader) (k : ℕ) (name : Utf16) (entry : Fn × Bool) (logged : Bool) :
    chain (install s k name entry logged) = chain s :=
  map_modify_of_fixed DlModule.core _ _ _ fun _ => rfl

theorem chain_length (s : Loader) : (chain s).length = s.modules.length := by
  simp [chain]

theorem chain_getElem? (s : Loader) (k : ℕ) : (chain s)[k]? = s.modules[k]?.map DlModule.core := by
  simp [chain]

/-- Two states with one chain have the same record, up to the cache, at every place. -/
theorem getElem?_of_chain {s s' : Loader} (h : chain s' = chain s) {k : ℕ} {m : DlModule}
    (hm : s.modules[k]? = some m) : ∃ m', s'.modules[k]? = some m' ∧ m'.core = m.core := by
  have hk : s'.modules[k]?.map DlModule.core = some m.core := by
    rw [← chain_getElem?, h, chain_getElem?, hm]
    rfl
  simpa only [Option.map_eq_some_iff] using hk

theorem resolveFrom_core (name : Utf16) (k : ℕ) (ms : List DlModule) :
    resolveFrom name k (ms.map DlModule.core) = resolveFrom name k ms := by
  induction ms generalizing k with
  | nil => rfl
  | cons m rest ih => simp only [List.map_cons, resolveFrom, DlModule.core, ih]

theorem resolveExport_of_chain {s s' : Loader} (h : chain s' = chain s) (name : Utf16) :
    resolveExport s' name = resolveExport s name := by
  have hs := resolveFrom_core name 0 s'.modules
  rw [show s'.modules.map DlModule.core = s.modules.map DlModule.core from h,
    resolveFrom_core] at hs
  exact hs.symm

theorem fpcastWorld_of_chain {s s' : Loader} (h : chain s' = chain s) :
    fpcastWorld s' = fpcastWorld s := by
  have hhead : s'.modules.head?.map DlModule.core = s.modules.head?.map DlModule.core := by
    rw [← List.head?_map, ← List.head?_map]
    exact congrArg List.head? h
  unfold fpcastWorld
  cases hs' : s'.modules.head? with
  | none => cases hs : s.modules.head? <;> simp_all
  | some m' =>
    cases hs : s.modules.head? with
    | none => simp [hs, hs'] at hhead
    | some m =>
      have hcore : m'.core = m.core := by simpa [hs, hs'] using hhead
      exact fpcast_of_core hcore

/-- Every record has its instance. -/
def Instantiated (s : Loader) : Prop := ∀ m ∈ s.modules, m.inst.isSome

theorem instantiated_iff_chain (s : Loader) :
    Instantiated s ↔ ∀ m ∈ chain s, m.inst.isSome := by
  simp [Instantiated, chain, DlModule.core]

theorem instantiated_of_chain {s s' : Loader} (h : chain s' = chain s) (hs : Instantiated s) :
    Instantiated s' := by
  rw [instantiated_iff_chain] at hs ⊢
  rwa [h]

theorem resolveFrom_instantiated (name : Utf16) (k : ℕ) (ms : List DlModule)
    (h : ∀ m ∈ ms, m.inst.isSome) : ∃ r, resolveFrom name k ms = .ok r := by
  induction ms generalizing k with
  | nil => exact ⟨none, rfl⟩
  | cons m rest ih =>
    have hrest := ih (k + 1) fun x hx => h x (List.mem_cons_of_mem m hx)
    obtain ⟨i, hi⟩ := Option.isSome_iff_exists.mp (h m (List.mem_cons_self ..))
    simp only [resolveFrom, hi]
    by_cases hg : m.global
    · rw [if_pos hg]
      cases i.get name with
      | none => exact hrest
      | some v => exact ⟨some (k, v), rfl⟩
    · rw [if_neg hg]
      exact hrest

theorem resolveExport_instantiated {s : Loader} (h : Instantiated s) (name : Utf16) :
    ∃ r, resolveExport s name = .ok r := resolveFrom_instantiated name 0 s.modules h

/-- A symbol that the modules loaded before export resolves to them; otherwise the walk
reaches the new record, which throws if it is global. -/
theorem resolveFrom_append (name : Utf16) (k : ℕ) (ms : List DlModule) (m : DlModule)
    (hm : m.inst = none) :
    resolveFrom name k (ms ++ [m]) =
      match resolveFrom name k ms with
      | .error e => .error e
      | .ok (some r) => .ok (some r)
      | .ok none => if m.global then .error .typeError else .ok none := by
  induction ms generalizing k with
  | nil => simp [resolveFrom, hm]
  | cons x rest ih =>
    simp only [List.cons_append, resolveFrom, ih (k + 1)]
    by_cases hg : x.global
    · cases hx : x.inst with
      | none => simp [hg]
      | some i => cases hv : i.get name <;> simp [hg, hv]
    · simp [hg]

theorem resolveFrom_place {name : Utf16} {k j : ℕ} {ms : List DlModule} {v : Value}
    (h : resolveFrom name k ms = .ok (some (j, v))) :
    ∃ m i, k ≤ j ∧ ms[j - k]? = some m ∧ m.global = true ∧ m.inst = some i ∧
      i.get name = some v := by
  induction ms generalizing k with
  | nil => simp [resolveFrom] at h
  | cons m rest ih =>
    have hnext (h : resolveFrom name (k + 1) rest = .ok (some (j, v))) :
        ∃ x i, k ≤ j ∧ (m :: rest)[j - k]? = some x ∧ x.global = true ∧ x.inst = some i ∧
          i.get name = some v := by
      obtain ⟨x, i, hk, hx, hrest⟩ := ih h
      refine ⟨x, i, by omega, ?_, hrest⟩
      rw [show j - k = j - (k + 1) + 1 by omega, List.getElem?_cons_succ]
      exact hx
    simp only [resolveFrom] at h
    split at h
    · rename_i hg
      split at h
      · cases h
      · rename_i i hi
        split at h
        · rename_i w hw
          simp only [Except.ok.injEq, Option.some.injEq, Prod.mk.injEq] at h
          obtain ⟨rfl, rfl⟩ := h
          exact ⟨m, i, Nat.le_refl k, by simp, hg, hi, hw⟩
        · exact hnext h
    · exact hnext h

/-- The module and the export that a symbol resolves to. -/
theorem resolveExport_place {s : Loader} {name : Utf16} {k : ℕ} {v : Value}
    (h : resolveExport s name = .ok (some (k, v))) :
    ∃ m i, s.modules[k]? = some m ∧ m.global = true ∧ m.inst = some i ∧
      i.get name = some v := by
  obtain ⟨m, i, -, hm, hrest⟩ := resolveFrom_place h
  exact ⟨m, i, hm, hrest⟩

/-- A function address either is known already, or cannot be had, and then nothing
changes; or the table grows by one slot for it. -/
theorem functionAddress_cases (P : Process) (k : ℕ) (name : Utf16) (fn : Fn) (logged : Bool)
    (s : Loader) :
    (functionAddress P k name fn logged s).2 = s ∨
      ∃ m entry, s.modules[k]? = some m ∧ m.elemSlots.get name = none ∧
        m.dynSlots.get name = none ∧ toInstall s m name fn = .ok entry ∧
        Room P s 1 ∧
        functionAddress P k name fn logged s =
          (.ok s.table.length, install s k name entry logged) := by
  unfold functionAddress
  split
  · exact .inl rfl
  · rename_i m hm
    split
    · exact .inl rfl
    · rename_i helem
      split
      · exact .inl rfl
      · rename_i hdyn
        split
        · exact .inl rfl
        · rename_i entry hentry
          split
          · rename_i hroom
            exact .inr ⟨m, entry, hm, helem, hdyn, hentry, hroom, rfl⟩
          · exact .inl rfl

theorem chain_functionAddress (P : Process) (k : ℕ) (name : Utf16) (fn : Fn) (logged : Bool)
    (s : Loader) : chain (functionAddress P k name fn logged s).2 = chain s := by
  rcases functionAddress_cases P k name fn logged s with h | ⟨m, entry, -, -, -, -, -, h⟩
  · rw [h]
  · rw [h]
    exact chain_install s k name entry logged

theorem opLog_functionAddress (P : Process) (k : ℕ) (name : Utf16) (fn : Fn) (s : Loader) :
    (functionAddress P k name fn false s).2.opLog = s.opLog := by
  rcases functionAddress_cases P k name fn false s with h | ⟨m, entry, -, -, -, -, -, h⟩
  · rw [h]
  · rw [h]
    rfl

/-- Names of the imports from one offset table. -/
def gotNames (module : Utf16) (imports : List Import) : List Utf16 :=
  (imports.filter fun i => i.module = module).map Import.name

theorem gotNames_cons_self {module : Utf16} {i : Import} (h : i.module = module)
    (rest : List Import) : gotNames module (i :: rest) = i.name :: gotNames module rest := by
  simp [gotNames, h]

theorem gotNames_cons_of_ne {module : Utf16} {i : Import} (h : i.module ≠ module)
    (rest : List Import) : gotNames module (i :: rest) = gotNames module rest := by
  simp [gotNames, h]

theorem gotMem_ne_gotFunc : ascii "GOT.mem" ≠ ascii "GOT.func" := by decide

/-- What the unlogged lookups of its symbols keep, building the offset tables keeps. -/
theorem resolveGot_keeps (P : Process) (Q : Loader → Prop) (imports : List Import)
    (hQ : ∀ s k name f, name ∈ gotNames (ascii "GOT.func") imports →
      resolveExport s name = .ok (some (k, .func f)) → Q s →
      Q (functionAddress P k name f false s).2)
    (got : Got) (s : Loader) (h : Q s) : Q (resolveGot P imports got s).2 := by
  induction imports generalizing got s with
  | nil => exact h
  | cons i rest ih =>
    have hrest : ∀ s k name f, name ∈ gotNames (ascii "GOT.func") rest →
        resolveExport s name = .ok (some (k, .func f)) → Q s →
        Q (functionAddress P k name f false s).2 := by
      intro s k name f hname
      refine hQ s k name f ?_
      by_cases hfunc : i.module = ascii "GOT.func"
      · rw [gotNames_cons_self hfunc]
        exact List.mem_cons_of_mem _ hname
      · rwa [gotNames_cons_of_ne hfunc]
    simp only [resolveGot]
    split
    · split
      · exact h
      · exact ih hrest _ _ h
    · split
      · rename_i hfunc
        have hentry : Q (gotFuncEntry P i.name s).2 := by
          unfold gotFuncEntry
          split
          · exact h
          · rename_i k f hr
            refine hQ s k i.name f ?_ hr h
            rw [gotNames_cons_self hfunc]
            exact List.mem_cons_self ..
          · exact h
        split
        · rename_i e s' he
          rwa [he] at hentry
        · rename_i v s' he
          rw [he] at hentry
          exact ih hrest _ _ hentry
      · exact ih hrest _ _ h

theorem chain_resolveGot (P : Process) (imports : List Import) (got : Got) (s : Loader) :
    chain (resolveGot P imports got s).2 = chain s :=
  resolveGot_keeps P (fun s' => chain s' = chain s) imports
    (fun s' k name f _ _ h => (chain_functionAddress P k name f false s').trans h) got s rfl

theorem opLog_resolveGot (P : Process) (imports : List Import) (got : Got) (s : Loader) :
    (resolveGot P imports got s).2.opLog = s.opLog :=
  resolveGot_keeps P (fun s' => s'.opLog = s.opLog) imports
    (fun s' k name f _ _ h => (opLog_functionAddress P k name f s').trans h) got s rfl

/-- The empty offset tables that a load starts from. -/
def noGot : Got := ⟨JsMap.empty, JsMap.empty⟩

/-- The five ways a load can end. -/
inductive LoadOutcome (P : Process) (replay : Bool) (c : LoadCall) (s : Loader) :
    Except Exn ℤ × Loader → Prop
  | refused (e : ℕ) (hplan : prepare P s c.bytes = .error (.errno e)) :
      LoadOutcome P replay c s (.ok (-e), s)
  | blocked (e : Exn) (hplan : prepare P s c.bytes = .error (.thrown e)) :
      LoadOutcome P replay c s (.error e, s)
  | noRoom (plan : Plan) (hplan : prepare P s c.bytes = .ok plan)
      (hroom : ¬ Room P s plan.tableCount) :
      LoadOutcome P replay c s
        (.error .rangeError, { s with opLog := s.opLog ++ [.load s.modules.length] })
  | halted (plan : Plan) (hplan : prepare P s c.bytes = .ok plan)
      (hroom : Room P s plan.tableCount) (e : Exn) (s' : Loader)
      (hgot : resolveGot P plan.info.imports noGot (publish c plan s) = (.error e, s')) :
      LoadOutcome P replay c s (.error e, s')
  | retracted (plan : Plan) (hplan : prepare P s c.bytes = .ok plan)
      (hroom : Room P s plan.tableCount) (got : Got) (s' : Loader)
      (hgot : resolveGot P plan.info.imports noGot (publish c plan s) = (.ok got, s'))
      (table : List (Option Fn))
      (hinst : instantiate P.engine c.bytes (importsOf c plan s got) (.side s.opLog.length)
        s'.table = (none, table)) :
      LoadOutcome P replay c s (.ok (-enoexec), retract plan s s' table)
  | completed (plan : Plan) (hplan : prepare P s c.bytes = .ok plan)
      (hroom : Room P s plan.tableCount) (got : Got) (s' : Loader)
      (hgot : resolveGot P plan.info.imports noGot (publish c plan s) = (.ok got, s'))
      (i : Instance) (table : List (Option Fn))
      (hinst : instantiate P.engine c.bytes (importsOf c plan s got) (.side s.opLog.length)
        s'.table = (some i, table)) :
      LoadOutcome P replay c s
        (start P replay c (importsOf c plan s got) (s.modules.length + 1), complete s s' i table)

theorem load_outcome (P : Process) (replay : Bool) (c : LoadCall) (s : Loader) :
    LoadOutcome P replay c s (load P replay c s) := by
  unfold load
  split
  · rename_i e hplan
    exact .refused e hplan
  · rename_i e hplan
    exact .blocked e hplan
  · rename_i plan hplan
    unfold commit
    split
    · rename_i hroom
      split
      · rename_i e s' hgot
        exact .halted plan hplan hroom e s' hgot
      · rename_i got s' hgot
        unfold link
        split
        · rename_i table hinst
          exact .retracted plan hplan hroom got s' hgot table hinst
        · rename_i i table hinst
          exact .completed plan hplan hroom got s' hgot i table hinst
    · rename_i hroom
      exact .noRoom plan hplan hroom

theorem mem_numbered {k j : ℕ} {m : DlModule} {ms : List DlModule}
    (h : (j, m) ∈ numbered k ms) : k ≤ j ∧ ms[j - k]? = some m := by
  induction ms generalizing k with
  | nil => simp [numbered] at h
  | cons x rest ih =>
    simp only [numbered, List.mem_cons, Prod.mk.injEq] at h
    rcases h with ⟨rfl, rfl⟩ | h
    · simp
    · obtain ⟨hk, hm⟩ := ih h
      refine ⟨by omega, ?_⟩
      rw [show j - k = j - (k + 1) + 1 by omega, List.getElem?_cons_succ]
      exact hm

theorem mem_searchList {s : Loader} {handle : ℤ} {k : ℕ} {m : DlModule}
    (h : (k, m) ∈ searchList s handle) : s.modules[k]? = some m := by
  unfold searchList at h
  have hall : (k, m) ∈ numbered 0 s.modules := by
    split at h
    · exact List.mem_of_mem_filter h
    · split at h
      · exact List.mem_of_mem_drop (List.mem_of_mem_take h)
      · simp at h
  exact (mem_numbered hall).2

/-- The function a search ends at, if it ends at a function. -/
def targetIn (name : Utf16) : List (ℕ × DlModule) → Option (ℕ × Fn)
  | [] => none
  | (k, m) :: rest =>
    match m.inst with
    | none => none
    | some i =>
      match i.get name with
      | some (.func f) => some (k, f)
      | some (.global _) => none
      | _ => targetIn name rest

def dlsymTarget (s : Loader) (handle : ℤ) (name : Utf16) : Option (ℕ × Fn) :=
  targetIn name (searchList s handle)

theorem dlsymIn_target (P : Process) (name : Utf16) (searched : List (ℕ × DlModule))
    (s : Loader) :
    match targetIn name searched with
    | some (k, f) =>
      (∃ m i, (k, m) ∈ searched ∧ m.inst = some i ∧ i.get name = some (.func f)) ∧
        dlsymIn P name searched s =
          ((functionAddress P k name f true s).1.map Int.ofNat,
            (functionAddress P k name f true s).2)
    | none => (dlsymIn P name searched s).2 = s := by
  induction searched with
  | nil => rfl
  | cons e rest ih =>
    obtain ⟨k, m⟩ := e
    simp only [targetIn, dlsymIn]
    cases hi : m.inst with
    | none => rfl
    | some i =>
      have hskip : (match targetIn name rest with
          | some (k', f) =>
            (∃ m' i', (k', m') ∈ (k, m) :: rest ∧ m'.inst = some i' ∧
              i'.get name = some (.func f)) ∧
              dlsymIn P name rest s =
                ((functionAddress P k' name f true s).1.map Int.ofNat,
                  (functionAddress P k' name f true s).2)
          | none => (dlsymIn P name rest s).2 = s) := by
        cases htarget : targetIn name rest with
        | none => simpa only [htarget] using ih
        | some x =>
          obtain ⟨k', f⟩ := x
          simp only [htarget] at ih
          obtain ⟨⟨m', i', hmem, hrest⟩, heq⟩ := ih
          exact ⟨⟨m', i', List.mem_cons_of_mem _ hmem, hrest⟩, heq⟩
      cases hv : i.get name with
      | none =>
        simp only [hv]
        exact hskip
      | some v =>
        cases v with
        | func f =>
          simp only [hv]
          refine ⟨⟨m, i, List.mem_cons_self .., hi, hv⟩, ?_⟩
          cases functionAddress P k name f true s with
          | mk r t => cases r <;> rfl
        | global number =>
          simp only [hv]
          cases number <;> rfl
        | host =>
          simp only [hv]
          exact hskip
        | other =>
          simp only [hv]
          exact hskip

theorem dlsym_target (P : Process) {s : Loader} {handle : ℤ} {name : Utf16} {k : ℕ} {f : Fn}
    (h : dlsymTarget s handle name = some (k, f)) :
    ∃ m i, s.modules[k]? = some m ∧ m.inst = some i ∧ i.get name = some (.func f) ∧
      dlsym P handle name s =
        ((functionAddress P k name f true s).1.map Int.ofNat,
          (functionAddress P k name f true s).2) := by
  have hin := dlsymIn_target P name (searchList s handle) s
  rw [show targetIn name (searchList s handle) = some (k, f) from h] at hin
  obtain ⟨⟨m, i, hmem, hi, hf⟩, heq⟩ := hin
  exact ⟨m, i, mem_searchList hmem, hi, hf, heq⟩

theorem dlsym_no_target (P : Process) {s : Loader} {handle : ℤ} {name : Utf16}
    (h : dlsymTarget s handle name = none) : (dlsym P handle name s).2 = s := by
  have hin := dlsymIn_target P name (searchList s handle) s
  rw [show targetIn name (searchList s handle) = none from h] at hin
  exact hin

/-- `dlsym` changes nothing, or is the lookup of one function address. -/
theorem dlsym_cases (P : Process) (handle : ℤ) (name : Utf16) (s : Loader) :
    (dlsym P handle name s).2 = s ∨
      ∃ k m i f, s.modules[k]? = some m ∧ m.inst = some i ∧ i.get name = some (.func f) ∧
        dlsym P handle name s =
          ((functionAddress P k name f true s).1.map Int.ofNat,
            (functionAddress P k name f true s).2) := by
  cases htarget : dlsymTarget s handle name with
  | none => exact .inl (dlsym_no_target P htarget)
  | some x =>
    obtain ⟨k, f⟩ := x
    obtain ⟨m, i, hrest⟩ := dlsym_target P htarget
    exact .inr ⟨k, m, i, f, hrest⟩

end NixWasm.DynamicLoader
