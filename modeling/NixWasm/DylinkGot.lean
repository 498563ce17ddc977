import NixWasm.DylinkSteps

/-!
The offset tables of a load: exactly when building them does not throw. Every symbol
must be found without meeting a record that has no instance, a data symbol must have a
number, a function that needs a thunk must fit the canonical ABI, and the table must
have room for the slots that are new, each symbol counted once.
-/
namespace NixWasm.DynamicLoader

open Dylink Unicode

/-- Whether taking the address of the symbol needs a new table slot. -/
def needsSlot (s : Loader) (name : Utf16) : Bool :=
  match resolveExport s name with
  | .ok (some (k, .func _)) =>
    match s.modules[k]? with
    | some m => (m.elemSlots.get name).isNone && (m.dynSlots.get name).isNone
    | none => false
  | _ => false

/-- Whether a thunk the symbol would get can be generated. -/
def thunkable (s : Loader) (name : Utf16) : Bool :=
  match resolveExport s name with
  | .ok (some (k, .func _)) =>
    match s.modules[k]? with
    | some m => !fpcastWorld s ||
        (m.sigOf name).all fun sig => sig.params.length ≤ canonicalParams
    | none => true
  | _ => true

/-- Whether a data symbol of this name has a number. -/
def readable (s : Loader) (name : Utf16) : Bool :=
  match resolveExport s name with
  | .ok (some (_, .global none)) => false
  | _ => true

/-- The names that get a new slot, each once. -/
def newSlots (needs : Utf16 → Bool) : List Utf16 → List Utf16
  | [] => []
  | n :: rest =>
    if needs n then n :: newSlots (fun x => needs x && decide (x ≠ n)) rest
    else newSlots needs rest

theorem thunkable_of_chain {s s' : Loader} (h : chain s' = chain s) (name : Utf16) :
    thunkable s' name = thunkable s name := by
  unfold thunkable
  rw [resolveExport_of_chain h, fpcastWorld_of_chain h]
  split
  · rename_i k f hr
    obtain ⟨m, i, hm, -⟩ := resolveExport_place hr
    obtain ⟨m', hm', hcore⟩ := getElem?_of_chain h hm
    rw [hm, hm']
    simp only [sigOf_of_core hcore]
  · rfl

theorem readable_of_chain {s s' : Loader} (h : chain s' = chain s) (name : Utf16) :
    readable s' name = readable s name := by
  unfold readable
  rw [resolveExport_of_chain h]

theorem getElem?_install (s : Loader) (k j : ℕ) (name : Utf16) (entry : Fn × Bool)
    (logged : Bool) :
    (install s k name entry logged).modules[j]? = s.modules[j]?.map fun m =>
      if k = j then { m with dynSlots := m.dynSlots.set name s.table.length } else m := by
  simp only [install, List.getElem?_modify]
  by_cases h : k = j
  · simp [h]
  · simp [h]

/-- After the install of a symbol only the other symbols still need their slot. -/
theorem needsSlot_install {s : Loader} {k : ℕ} {name : Utf16} {f : Fn} (entry : Fn × Bool)
    (logged : Bool) (h : resolveExport s name = .ok (some (k, .func f))) (x : Utf16) :
    needsSlot (install s k name entry logged) x = (needsSlot s x && decide (x ≠ name)) := by
  unfold needsSlot
  rw [resolveExport_of_chain (chain_install s k name entry logged) x]
  split
  · rename_i j g hj
    obtain ⟨m, i, hm, -⟩ := resolveExport_place hj
    rw [getElem?_install, hm, Option.map_some]
    by_cases hx : x = name
    · subst hx
      have hkj : k = j := by
        rw [h] at hj
        simpa using (Prod.mk.inj (Option.some.inj (Except.ok.inj hj))).1
      simp [hkj, JsMap.get_set_self]
    · by_cases hkj : k = j
      · simp [hkj, hx, JsMap.get_set_of_ne _ _ hx]
      · simp [hkj, hx]
  · simp

/-- The address of a function symbol: at hand, or in a new slot, or not to be had. -/
theorem gotFuncEntry_spec (P : Process) (name : Utf16) (s : Loader) :
    (∃ k f entry, needsSlot s name = true ∧ thunkable s name = true ∧ Room P s 1 ∧
      resolveExport s name = .ok (some (k, .func f)) ∧
      gotFuncEntry P name s = (.ok s.table.length, install s k name entry false)) ∨
    (∃ v, (∃ r, resolveExport s name = .ok r) ∧ needsSlot s name = false ∧
      gotFuncEntry P name s = (.ok v, s)) ∨
    (∃ e, ¬ ((∃ r, resolveExport s name = .ok r) ∧
        (needsSlot s name = true → thunkable s name = true ∧ Room P s 1)) ∧
      gotFuncEntry P name s = (.error e, s)) := by
  unfold gotFuncEntry needsSlot thunkable
  cases hr : resolveExport s name with
  | error e => exact .inr (.inr ⟨e, by simp, rfl⟩)
  | ok r =>
    rcases r with _ | ⟨k, v⟩
    · exact .inr (.inl ⟨0, ⟨_, rfl⟩, rfl, rfl⟩)
    · cases v with
      | func f =>
        obtain ⟨m, i, hm, -⟩ := resolveExport_place hr
        simp only [functionAddress, hm]
        cases helem : m.elemSlots.get name with
        | some slot => exact .inr (.inl ⟨m.tableBase + slot, ⟨_, rfl⟩, rfl, rfl⟩)
        | none =>
          cases hdyn : m.dynSlots.get name with
          | some index => exact .inr (.inl ⟨index, ⟨_, rfl⟩, rfl, rfl⟩)
          | none =>
            have hinstall : (∃ entry, toInstall s m name f = .ok entry ∧
                (!fpcastWorld s || (m.sigOf name).all fun sig =>
                  sig.params.length ≤ canonicalParams) = true) ∨
                ∃ e, toInstall s m name f = .error e ∧
                  (!fpcastWorld s || (m.sigOf name).all fun sig =>
                    sig.params.length ≤ canonicalParams) = false := by
              unfold toInstall canonicalThunk
              by_cases hworld : fpcastWorld s
              · cases hsig : m.sigOf name with
                | none => simp [hworld]
                | some sig =>
                  by_cases hlen : sig.params.length ≤ canonicalParams
                  · simp [hworld, hlen, Except.map]
                  · simp [hworld, hlen, Except.map]
              · simp [hworld]
            rcases hinstall with ⟨entry, hentry, hthunk⟩ | ⟨e, he, hthunk⟩
            · by_cases hroom : Room P s 1
              · refine .inl ⟨k, f, entry, rfl, hthunk, hroom, rfl, ?_⟩
                simp [hentry, hroom]
              · refine .inr (.inr ⟨.rangeError, ?_, ?_⟩)
                · simp [hroom]
                · simp [hentry, hroom]
            · refine .inr (.inr ⟨e, ?_, ?_⟩)
              · simp [hthunk]
              · simp [he]
      | host => exact .inr (.inl ⟨0, ⟨_, rfl⟩, rfl, rfl⟩)
      | global n => exact .inr (.inl ⟨0, ⟨_, rfl⟩, rfl, rfl⟩)
      | other => exact .inr (.inl ⟨0, ⟨_, rfl⟩, rfl, rfl⟩)

theorem gotMemEntry_ok_iff (s : Loader) (name : Utf16) :
    (∃ v, gotMemEntry s name = .ok v) ↔
      (∃ r, resolveExport s name = .ok r) ∧ readable s name = true := by
  unfold gotMemEntry readable
  cases hr : resolveExport s name with
  | error e => simp
  | ok r =>
    rcases r with _ | ⟨k, v⟩
    · simp
    · cases v with
      | global n =>
        obtain ⟨m, i, hm, -⟩ := resolveExport_place hr
        cases n <;> simp [hm]
      | func f => simp
      | host => simp
      | other => simp

/-- The conditions on the symbols of the offset tables. -/
structure GotReady (P : Process) (s : Loader) (imports : List Import) : Prop where
  found : ∀ module ∈ [ascii "GOT.mem", ascii "GOT.func"], ∀ n ∈ gotNames module imports,
    ∃ r, resolveExport s n = .ok r
  numbers : ∀ n ∈ gotNames (ascii "GOT.mem") imports, readable s n = true
  thunks : ∀ n ∈ gotNames (ascii "GOT.func") imports, needsSlot s n = true →
    thunkable s n = true
  room : Room P s (newSlots (needsSlot s) (gotNames (ascii "GOT.func") imports)).length

theorem gotReady_other (P : Process) (s : Loader) {i : Import} (rest : List Import)
    (hmem : i.module ≠ ascii "GOT.mem") (hfunc : i.module ≠ ascii "GOT.func") :
    GotReady P s (i :: rest) ↔ GotReady P s rest := by
  constructor
  · rintro ⟨hfound, hnum, hthunk, hroom⟩
    simp only [List.mem_cons, List.not_mem_nil, or_false, forall_eq_or_imp, forall_eq,
      gotNames_cons_of_ne hmem, gotNames_cons_of_ne hfunc] at hfound hnum hthunk hroom
    exact ⟨by simpa using hfound, hnum, hthunk, hroom⟩
  · rintro ⟨hfound, hnum, hthunk, hroom⟩
    refine ⟨?_, ?_, ?_, ?_⟩
    · simpa [gotNames_cons_of_ne hmem, gotNames_cons_of_ne hfunc] using hfound
    · simpa only [gotNames_cons_of_ne hmem] using hnum
    · simpa only [gotNames_cons_of_ne hfunc] using hthunk
    · simpa only [gotNames_cons_of_ne hfunc] using hroom

theorem gotReady_mem (P : Process) (s : Loader) {i : Import} (rest : List Import)
    (h : i.module = ascii "GOT.mem") :
    GotReady P s (i :: rest) ↔
      ((∃ r, resolveExport s i.name = .ok r) ∧ readable s i.name = true) ∧
        GotReady P s rest := by
  have hfunc : i.module ≠ ascii "GOT.func" := fun hf => gotMem_ne_gotFunc (h.symm.trans hf)
  constructor
  · rintro ⟨hfound, hnum, hthunk, hroom⟩
    simp only [List.mem_cons, List.not_mem_nil, or_false, forall_eq_or_imp, forall_eq,
      gotNames_cons_self h, gotNames_cons_of_ne hfunc] at hfound hnum hthunk hroom
    exact ⟨⟨hfound.1.1, hnum.1⟩, by simpa using ⟨hfound.1.2, hfound.2⟩, hnum.2, hthunk, hroom⟩
  · rintro ⟨⟨hr, hread⟩, hfound, hnum, hthunk, hroom⟩
    refine ⟨?_, ?_, ?_, ?_⟩
    · simp only [List.mem_cons, List.not_mem_nil, or_false, forall_eq_or_imp, forall_eq,
        gotNames_cons_self h, gotNames_cons_of_ne hfunc] at hfound ⊢
      exact ⟨⟨hr, hfound.1⟩, hfound.2⟩
    · simpa only [gotNames_cons_self h, List.mem_cons, forall_eq_or_imp] using ⟨hread, hnum⟩
    · simpa only [gotNames_cons_of_ne hfunc] using hthunk
    · simpa only [gotNames_cons_of_ne hfunc] using hroom

theorem gotReady_func (P : Process) (s : Loader) {i : Import} (rest : List Import)
    (h : i.module = ascii "GOT.func") :
    GotReady P s (i :: rest) ↔
      (∃ r, resolveExport s i.name = .ok r) ∧
        (needsSlot s i.name = true → thunkable s i.name = true) ∧
        (∀ module ∈ [ascii "GOT.mem", ascii "GOT.func"], ∀ n ∈ gotNames module rest,
          ∃ r, resolveExport s n = .ok r) ∧
        (∀ n ∈ gotNames (ascii "GOT.mem") rest, readable s n = true) ∧
        (∀ n ∈ gotNames (ascii "GOT.func") rest, needsSlot s n = true →
          thunkable s n = true) ∧
        Room P s (newSlots (needsSlot s)
          (i.name :: gotNames (ascii "GOT.func") rest)).length := by
  have hmem : i.module ≠ ascii "GOT.mem" := fun hm => gotMem_ne_gotFunc (hm.symm.trans h)
  constructor
  · rintro ⟨hfound, hnum, hthunk, hroom⟩
    simp only [List.mem_cons, List.not_mem_nil, or_false, forall_eq_or_imp, forall_eq,
      gotNames_cons_of_ne hmem, gotNames_cons_self h] at hfound hnum hthunk hroom
    refine ⟨hfound.2.1, hthunk.1, ?_, hnum, hthunk.2, hroom⟩
    simpa using ⟨hfound.1, hfound.2.2⟩
  · rintro ⟨hr, hthunk, hfound, hnum, hthunks, hroom⟩
    refine ⟨?_, ?_, ?_, ?_⟩
    · simp only [List.mem_cons, List.not_mem_nil, or_false, forall_eq_or_imp, forall_eq,
        gotNames_cons_of_ne hmem, gotNames_cons_self h] at hfound ⊢
      exact ⟨hfound.1, hr, hfound.2⟩
    · simpa only [gotNames_cons_of_ne hmem] using hnum
    · simpa only [gotNames_cons_self h, List.mem_cons, forall_eq_or_imp] using
        ⟨hthunk, hthunks⟩
    · simpa only [gotNames_cons_self h] using hroom

/-- A symbol that has its address already leaves the rest as it was. -/
theorem gotReady_known {P : Process} {s : Loader} {i : Import} {rest : List Import}
    (h : i.module = ascii "GOT.func") (hr : ∃ r, resolveExport s i.name = .ok r)
    (hknown : needsSlot s i.name = false) :
    GotReady P s (i :: rest) ↔ GotReady P s rest := by
  rw [gotReady_func P s rest h]
  simp only [newSlots, hknown]
  constructor
  · rintro ⟨-, -, hfound, hnum, hthunks, hroom⟩
    exact ⟨hfound, hnum, hthunks, hroom⟩
  · rintro ⟨hfound, hnum, hthunks, hroom⟩
    exact ⟨hr, by simp, hfound, hnum, hthunks, hroom⟩

/-- A symbol that gets its slot now leaves one slot less to find for the rest. -/
theorem gotReady_new {P : Process} {s : Loader} {i : Import} {rest : List Import} {k : ℕ}
    {f : Fn} (entry : Fn × Bool) (h : i.module = ascii "GOT.func")
    (hr : resolveExport s i.name = .ok (some (k, .func f)))
    (hneeds : needsSlot s i.name = true) (hthunk : thunkable s i.name = true)
    (hroom : Room P s 1) :
    GotReady P s (i :: rest) ↔ GotReady P (install s k i.name entry false) rest := by
  have hchain := chain_install s k i.name entry false
  have hslots : needsSlot (install s k i.name entry false) =
      fun x => needsSlot s x && decide (x ≠ i.name) :=
    funext (needsSlot_install entry false hr)
  have hlen : (install s k i.name entry false).table.length = s.table.length + 1 := by
    simp [install]
  rw [gotReady_func P s rest h]
  simp only [newSlots, hneeds, if_true, List.length_cons]
  constructor
  · rintro ⟨-, -, hfound, hnum, hthunks, hrest⟩
    refine ⟨?_, ?_, ?_, ?_⟩
    · simpa only [resolveExport_of_chain hchain] using hfound
    · simpa only [readable_of_chain hchain] using hnum
    · intro n hn hneed
      rw [hslots, Bool.and_eq_true] at hneed
      rw [thunkable_of_chain hchain]
      exact hthunks n hn hneed.1
    · rw [hslots]
      unfold Room at hroom hrest ⊢
      omega
  · rintro ⟨hfound, hnum, hthunks, hrest⟩
    refine ⟨⟨_, hr⟩, fun _ => hthunk, ?_, ?_, ?_, ?_⟩
    · simpa only [resolveExport_of_chain hchain] using hfound
    · simpa only [readable_of_chain hchain] using hnum
    · intro n hn hneed
      by_cases hname : n = i.name
      · rwa [hname]
      · rw [← thunkable_of_chain hchain]
        exact hthunks n hn (by rw [hslots]; simp [hneed, hname])
    · rw [hslots] at hrest
      unfold Room at hroom hrest ⊢
      omega

theorem gotReady_func_head {P : Process} {s : Loader} {i : Import} {rest : List Import}
    (h : i.module = ascii "GOT.func") (hready : GotReady P s (i :: rest)) :
    (∃ r, resolveExport s i.name = .ok r) ∧
      (needsSlot s i.name = true → thunkable s i.name = true ∧ Room P s 1) := by
  obtain ⟨hr, hthunk, -, -, -, hroom⟩ := (gotReady_func P s rest h).mp hready
  refine ⟨hr, fun hneeds => ⟨hthunk hneeds, ?_⟩⟩
  simp only [newSlots, hneeds, if_true, List.length_cons] at hroom
  unfold Room at hroom ⊢
  omega

/-- Building the offset tables throws exactly when the symbols are not ready. -/
theorem resolveGot_ok_iff (P : Process) (imports : List Import) (got : Got) (s : Loader) :
    (∃ got' s', resolveGot P imports got s = (.ok got', s')) ↔ GotReady P s imports := by
  induction imports generalizing got s with
  | nil =>
    refine ⟨fun _ => ⟨?_, ?_, ?_, ?_⟩, fun _ => ⟨got, s, rfl⟩⟩
    · simp [gotNames]
    · simp [gotNames]
    · simp [gotNames]
    · exact .inl rfl
  | cons i rest ih =>
    by_cases hmem : i.module = ascii "GOT.mem"
    · rw [gotReady_mem P s rest hmem, ← gotMemEntry_ok_iff]
      simp only [resolveGot, hmem, if_true]
      cases hentry : gotMemEntry s i.name with
      | error e => simp
      | ok v => simpa using ih { got with mem := got.mem.set i.name v } s
    · by_cases hfunc : i.module = ascii "GOT.func"
      · simp only [resolveGot, hfunc, gotMem_ne_gotFunc.symm, if_false, if_true]
        rcases gotFuncEntry_spec P i.name s with
          ⟨k, f, entry, hneeds, hthunk, hroom, hr, hentry⟩ | ⟨v, hr, hknown, hentry⟩ |
          ⟨e, hnot, hentry⟩
        · rw [hentry, gotReady_new entry hfunc hr hneeds hthunk hroom]
          exact ih _ _
        · rw [hentry, gotReady_known hfunc hr hknown]
          exact ih _ _
        · rw [hentry]
          constructor
          · rintro ⟨got', s', h⟩
            cases h
          · intro hready
            exact absurd (gotReady_func_head hfunc hready) hnot
      · simp only [resolveGot, hmem, hfunc, if_false]
        rw [gotReady_other P s rest hmem hfunc]
        exact ih _ _

/-- Whether a module of the global scope exports the symbol. -/
def exported (s : Loader) (name : Utf16) : Bool :=
  match resolveExport s name with
  | .ok (some _) => true
  | _ => false

/-- The same conditions seen from the state before the load. A global module needs every
symbol of its offset tables in a module loaded before it. -/
structure Resolvable (P : Process) (s : Loader) (c : LoadCall) (plan : Plan) : Prop where
  visible : c.global = true → ∀ module ∈ [ascii "GOT.mem", ascii "GOT.func"],
    ∀ n ∈ gotNames module plan.info.imports, exported s n = true
  numbers : ∀ n ∈ gotNames (ascii "GOT.mem") plan.info.imports, readable s n = true
  thunks : ∀ n ∈ gotNames (ascii "GOT.func") plan.info.imports, needsSlot s n = true →
    thunkable s n = true
  room : Room P s (plan.tableCount +
    (newSlots (needsSlot s) (gotNames (ascii "GOT.func") plan.info.imports)).length)

instance (P : Process) (s : Loader) (c : LoadCall) (plan : Plan) :
    Decidable (Resolvable P s c plan) :=
  decidable_of_iff
    ((c.global = true → ∀ module ∈ [ascii "GOT.mem", ascii "GOT.func"],
      ∀ n ∈ gotNames module plan.info.imports, exported s n = true) ∧
    (∀ n ∈ gotNames (ascii "GOT.mem") plan.info.imports, readable s n = true) ∧
    (∀ n ∈ gotNames (ascii "GOT.func") plan.info.imports, needsSlot s n = true →
      thunkable s n = true) ∧
    Room P s (plan.tableCount +
      (newSlots (needsSlot s) (gotNames (ascii "GOT.func") plan.info.imports)).length))
    ⟨fun h => ⟨h.1, h.2.1, h.2.2.1, h.2.2.2⟩,
      fun h => ⟨h.visible, h.numbers, h.thunks, h.room⟩⟩

section Publish

variable {P : Process} {s : Loader} {c : LoadCall} {plan : Plan}

theorem resolveExport_publish (n : Utf16) :
    resolveExport (publish c plan s) n =
      match resolveExport s n with
      | .error e => .error e
      | .ok (some r) => .ok (some r)
      | .ok none => if c.global then .error .typeError else .ok none :=
  resolveFrom_append n 0 s.modules (newRecord c plan s) rfl

theorem resolveExport_publish_ok_iff (hs : Instantiated s) (n : Utf16) :
    (∃ r, resolveExport (publish c plan s) n = .ok r) ↔
      (c.global = true → exported s n = true) := by
  obtain ⟨r, hr⟩ := resolveExport_instantiated hs n
  rw [resolveExport_publish, exported, hr]
  cases r with
  | none => cases c.global <;> simp
  | some r => simp

theorem getElem?_publish {k : ℕ} {m : DlModule} (h : s.modules[k]? = some m) :
    (publish c plan s).modules[k]? = some m := by
  have hk : k < s.modules.length := (List.getElem?_eq_some_iff.mp h).1
  simp only [publish]
  rw [List.getElem?_append_left hk, h]

theorem needsSlot_publish (hs : Instantiated s) (n : Utf16) :
    needsSlot (publish c plan s) n = needsSlot s n := by
  unfold needsSlot
  rw [resolveExport_publish]
  obtain ⟨r, hr⟩ := resolveExport_instantiated hs n
  rw [hr]
  rcases r with _ | ⟨k, v⟩
  · cases c.global <;> rfl
  · cases v with
    | func f =>
      obtain ⟨m, i, hm, -⟩ := resolveExport_place hr
      simp only [getElem?_publish hm, hm]
    | host => rfl
    | global number => rfl
    | other => rfl

theorem fpcastWorld_publish (hmain : s.modules ≠ []) :
    fpcastWorld (publish c plan s) = fpcastWorld s := by
  obtain ⟨m, rest, hm⟩ := List.exists_cons_of_ne_nil hmain
  simp [fpcastWorld, publish, hm]

theorem thunkable_publish (hs : Instantiated s) (hmain : s.modules ≠ []) (n : Utf16) :
    thunkable (publish c plan s) n = thunkable s n := by
  unfold thunkable
  rw [resolveExport_publish, fpcastWorld_publish hmain]
  obtain ⟨r, hr⟩ := resolveExport_instantiated hs n
  rw [hr]
  rcases r with _ | ⟨k, v⟩
  · cases c.global <;> rfl
  · cases v with
    | func f =>
      obtain ⟨m, i, hm, -⟩ := resolveExport_place hr
      simp only [getElem?_publish hm, hm]
    | host => rfl
    | global number => rfl
    | other => rfl

theorem readable_publish (hs : Instantiated s) (n : Utf16) :
    readable (publish c plan s) n = readable s n := by
  unfold readable
  rw [resolveExport_publish]
  obtain ⟨r, hr⟩ := resolveExport_instantiated hs n
  rw [hr]
  rcases r with _ | ⟨k, v⟩
  · cases c.global <;> rfl
  · rfl

/-- Reserving the table range and building the offset tables go through exactly for the
resolvable modules. -/
theorem publish_ready_iff (hs : Instantiated s) (hmain : s.modules ≠ []) :
    Room P s plan.tableCount ∧ GotReady P (publish c plan s) plan.info.imports ↔
      Resolvable P s c plan := by
  have hneeds : needsSlot (publish c plan s) = needsSlot s := funext (needsSlot_publish hs)
  have hlen : (publish c plan s).table.length = s.table.length + plan.tableCount := by
    simp [publish]
  constructor
  · rintro ⟨hgrow, hfound, hnum, hthunk, hroom⟩
    refine ⟨?_, ?_, ?_, ?_⟩
    · intro hg module hmodule n hn
      exact (resolveExport_publish_ok_iff hs n).mp (hfound module hmodule n hn) hg
    · simpa only [readable_publish hs] using hnum
    · simpa only [hneeds, thunkable_publish hs hmain] using hthunk
    · rw [hneeds] at hroom
      unfold Room at hgrow hroom ⊢
      omega
  · rintro ⟨hvisible, hnum, hthunk, hroom⟩
    refine ⟨?_, ?_, ?_, ?_, ?_⟩
    · unfold Room at hroom ⊢
      omega
    · intro module hmodule n hn
      exact (resolveExport_publish_ok_iff hs n).mpr fun hg => hvisible hg module hmodule n hn
    · simpa only [readable_publish hs] using hnum
    · simpa only [hneeds, thunkable_publish hs hmain] using hthunk
    · rw [hneeds]
      unfold Room at hroom ⊢
      omega

end Publish

end NixWasm.DynamicLoader
