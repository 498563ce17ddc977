import NixWasm.DylinkAtomic
import NixWasm.DylinkTable

/-!
Soundness of function addresses. An address handed out by `dlsym` or written to an
offset table keeps its slot for the rest of the run, the slot serves the export it was
given for, and the runtime call path knows whether it is canonical. The loader reads a
module once and trusts what it read, so this is proved for runs over modules whose
element segment and `cb.dynsym` map are what the loader takes them for.
-/
namespace NixWasm.DynamicLoader

open Dylink Unicode Runs

/-- The address of an export of module `k`, if it has one. -/
def address (s : Loader) (k : ℕ) (name : Utf16) : Option ℕ :=
  match s.modules[k]? with
  | none => none
  | some m =>
    match m.elemSlots.get name with
    | some slot => some (m.tableBase + slot)
    | none => m.dynSlots.get name

/-- An address that left the loader: of which export, of which module. -/
structure Handed where
  module : ℕ
  name : Utf16
  fn : Fn
  index : ℕ

/-- The two ways for an address out of the loader. -/
inductive Hands (P : Process) (s : Loader) : Op → Handed → Prop
  | dlsym (handle : ℤ) (name : Utf16) (k : ℕ) (f : Fn) (index : ℕ)
      (htarget : dlsymTarget s handle name = some (k, f))
      (hresult : (DynamicLoader.dlsym P handle name s).1 = .ok index) :
      Hands P s (.dlsym handle name) ⟨k, name, f, index⟩
  | got (replay : Bool) (c : LoadCall) (plan : Plan)
      (hplan : prepare P s c.bytes = .ok plan) (hroom : Room P s plan.tableCount)
      (table : Got) (s' : Loader)
      (hgot : resolveGot P plan.info.imports noGot (publish c plan s) = (.ok table, s'))
      (name : Utf16) (hname : name ∈ gotNames (ascii "GOT.func") plan.info.imports)
      (k : ℕ) (f : Fn) (hexport : resolveExport s name = .ok (some (k, .func f)))
      (index : ℕ) (hentry : table.func.get name = some index) :
      Hands P s (.load replay c) ⟨k, name, f, index⟩

/-- Everything handed out along a run. -/
def HandedIn (P : Process) : Loader → List Op → Handed → Prop
  | _, [], _ => False
  | s, op :: ops, h => Hands P s op h ∨ HandedIn P (opStep P s op) ops h

/-- The loader still gives this address for this export. -/
def Known (s : Loader) (h : Handed) : Prop :=
  ∃ m i, s.modules[h.module]? = some m ∧ m.inst = some i ∧
    i.get h.name = some (.func h.fn) ∧ address s h.module h.name = some h.index

/-- A raw install of a function that has the canonical ABI by itself: the loader takes
the slot for a raw one. -/
def RawCanonical (s : Loader) (k : ℕ) (name : Utf16) (fn : Fn) : Prop :=
  fpcastWorld s = false ∧ fn.Canonical ∧
    ∃ m, s.modules[k]? = some m ∧ m.elemSlots.get name = none

/-- What the operations of a run must meet. -/
def admitsAddress (wraps : List UInt8 → ℕ → Option ℕ) (P : Process) (s : Loader) : Op → Prop
  | .load _ c =>
    match prepare P s c.bytes with
    | .ok plan => WellBuilt wraps c.bytes plan.info ∧ Placed c.bytes s.table.length plan.info ∧
        ∀ name ∈ gotNames (ascii "GOT.func") plan.info.imports, ∀ k f,
          resolveExport s name = .ok (some (k, .func f)) → ¬ RawCanonical s k name f
    | .error _ => True
  | .dlsym handle name => ∀ k f, dlsymTarget s handle name = some (k, f) →
      ¬ RawCanonical s k name f
  | .growHole _ => True
  | .reinstall k name => ∀ m, s.modules[k]? = some m → m.dynSlots.get name = none ∧
      ∀ i f, m.inst = some i → i.get name = some (.func f) → ¬ RawCanonical s k name f

/-- The worker's part: the main module is well built, and its instance and its element
entries are in place. -/
def MainLoaded (wraps : List UInt8 → ℕ → Option ℕ) (P : Process) : Prop :=
  ∀ info, parseDylinkModule P.main.bytes = .ok info →
    P.main.tableBase + info.elemCount ≤ P.main.table.length ∧ ∃ imports,
      Backed wraps P.engine P.main.table (mainRecord P.main info) P.main.inst P.main.bytes
        info imports .main

section Known

variable {s s' : Loader}

/-- A record kept in place, with no address lost, keeps what is known of it. -/
theorem known_of_place {h : Handed}
    (hplace : ∀ m, s.modules[h.module]? = some m → m.inst.isSome →
      ∃ m', s'.modules[h.module]? = some m' ∧ m'.core = m.core ∧
        ∀ index, m.dynSlots.get h.name = some index → m'.dynSlots.get h.name = some index)
    (hknown : Known s h) : Known s' h := by
  obtain ⟨m, i, hm, hi, hfn, haddress⟩ := hknown
  obtain ⟨m', hm', hcore, hdyn⟩ := hplace m hm (by rw [hi]; rfl)
  refine ⟨m', i, hm', (inst_of_core hcore).trans hi, hfn, ?_⟩
  simp only [address, hm] at haddress
  simp only [address, hm', elemSlots_of_core hcore, tableBase_of_core hcore]
  cases hslot : m.elemSlots.get h.name with
  | some slot => simpa only [hslot] using haddress
  | none =>
    simp only [hslot] at haddress
    exact hdyn h.index haddress

theorem known_publish (c : LoadCall) (plan : Plan) {h : Handed} (hknown : Known s h) :
    Known (publish c plan s) h :=
  known_of_place (fun m hm _ => ⟨m, getElem?_publish hm, rfl, fun _ hget => hget⟩) hknown

theorem known_functionAddress (P : Process) (k : ℕ) (name : Utf16) (fn : Fn) (logged : Bool)
    {h : Handed} (hknown : Known s h) : Known (functionAddress P k name fn logged s).2 h := by
  rcases functionAddress_cases P k name fn logged s with
    hsame | ⟨m, entry, hm, -, hdyn, -, -, heq⟩
  · rwa [hsame]
  · rw [heq]
    refine known_of_place ?_ hknown
    intro m' hm' _
    rw [getElem?_install, hm']
    by_cases hk : k = h.module
    · obtain rfl : m = m' := by
        rw [hk] at hm
        exact Option.some.inj (hm.symm.trans hm')
      refine ⟨{ m with dynSlots := m.dynSlots.set name s.table.length }, by simp [hk], rfl, ?_⟩
      intro index hget
      have hne : h.name ≠ name := by
        intro heq
        rw [heq, hdyn] at hget
        cases hget
      rw [JsMap.get_set_of_ne _ _ hne]
      exact hget
    · exact ⟨m', by simp [hk], rfl, fun _ hget => hget⟩

theorem known_resolveGot (P : Process) (imports : List Import) (got : Got) {h : Handed}
    (hknown : Known s h) : Known (resolveGot P imports got s).2 h :=
  resolveGot_keeps P (fun t => Known t h) imports
    (fun _ k name f _ _ ht => known_functionAddress P k name f false ht) got s hknown

theorem known_dropLast {r : DlModule} (hr : s.modules[s.modules.length - 1]? = some r)
    (hnone : r.inst = none) (table : List (Option Fn)) (log : List DlOp) {h : Handed}
    (hknown : Known s h) :
    Known { s with table := table, modules := s.modules.dropLast, opLog := log } h := by
  refine known_of_place ?_ hknown
  intro m hm hi
  refine ⟨m, ?_, rfl, fun _ hget => hget⟩
  have hlt := (List.getElem?_eq_some_iff.mp hm).1
  have hne : h.module ≠ s.modules.length - 1 := by
    intro heq
    rw [heq, hr] at hm
    cases hm
    simp [hnone] at hi
  rw [List.getElem?_dropLast, if_pos (by omega)]
  exact hm

theorem known_setInst {n : ℕ} {r : DlModule} (hr : s.modules[n]? = some r)
    (hnone : r.inst = none) (i : Instance) (table : List (Option Fn)) {h : Handed}
    (hknown : Known s h) :
    Known { s with
      table := table
      modules := s.modules.modify n fun m => { m with inst := some i } } h := by
  refine known_of_place ?_ hknown
  intro m hm hi
  have hne : n ≠ h.module := by
    intro heq
    rw [← heq, hr] at hm
    cases hm
    simp [hnone] at hi
  refine ⟨m, ?_, rfl, fun _ hget => hget⟩
  rw [List.getElem?_modify, hm]
  simp [hne]

end Known

/-- The result of a lookup is the address from then on. -/
theorem address_functionAddress {P : Process} {k : ℕ} {name : Utf16} {fn : Fn} {logged : Bool}
    {s : Loader} {index : ℕ} (h : (functionAddress P k name fn logged s).1 = .ok index) :
    address (functionAddress P k name fn logged s).2 k name = some index := by
  unfold functionAddress at h ⊢
  split
  · rename_i hm
    simp [hm] at h
  · rename_i m hm
    simp only [hm] at h
    split
    · rename_i slot hslot
      simp only [hslot, Except.ok.injEq] at h
      simp [address, hm, hslot, h]
    · rename_i hslot
      simp only [hslot] at h
      split
      · rename_i idx hdyn
        simp only [hdyn, Except.ok.injEq] at h
        simp [address, hm, hslot, hdyn, h]
      · rename_i hdyn
        simp only [hdyn] at h
        split
        · rename_i e he
          simp [he] at h
        · rename_i entry hentry
          simp only [hentry] at h
          split
          · rename_i hroom
            simp only [hroom, if_true, Except.ok.injEq] at h
            simp [address, getElem?_install, hm, hslot, JsMap.get_set_self, h]
          · rename_i hroom
            simp [hroom] at h

section Steps

variable {wraps : List UInt8 → ℕ → Option ℕ} {P : Process} {s : Loader}

theorem rawCanonical_of_chain {s' : Loader} (h : chain s' = chain s) {k : ℕ} {name : Utf16}
    {fn : Fn} (hraw : RawCanonical s' k name fn) : RawCanonical s k name fn := by
  obtain ⟨hworld, hfn, m', hm', hslot⟩ := hraw
  obtain ⟨m, hm, hcore⟩ := getElem?_of_chain h.symm hm'
  exact ⟨fpcastWorld_of_chain h ▸ hworld, hfn, m, hm, (elemSlots_of_core hcore) ▸ hslot⟩

/-- What an install puts in the table serves the export, and the thunk flag is right. -/
theorem toInstall_serves (h : Sound wraps P.engine s) {k : ℕ} {m : DlModule} {i : Instance}
    {name : Utf16} {fn : Fn} {entry : Fn × Bool} (hm : s.modules[k]? = some m)
    (hi : m.inst = some i) (hfn : i.get name = some (.func fn))
    (hslot : m.elemSlots.get name = none) (hraw : ¬ RawCanonical s k name fn)
    (hentry : toInstall s m name fn = .ok entry) :
    Serves wraps entry.1 fn ∧ (entry.1.Canonical ↔ entry.2 = true) := by
  obtain ⟨bytes, info, imports, owner, hback⟩ := h.backed k m i hm hi
  unfold toInstall at hentry
  split at hentry
  · split at hentry
    · rename_i sig hsig
      unfold canonicalThunk at hentry
      split at hentry
      · cases hentry
        refine ⟨.inr (.inr ⟨sig, rfl, ?_⟩), ?_⟩
        · rw [← hback.signature_of_export hfn, hsig]
        · simp [Fn.Canonical, Fn.type]
      · cases hentry
    · rename_i hsig
      cases hentry
      refine ⟨.inl rfl, ?_⟩
      simp only [Bool.false_eq_true, iff_false]
      intro hcanon
      exact hback.canonical_signature hfn hcanon hsig
  · rename_i hworld
    cases hentry
    refine ⟨.inl rfl, ?_⟩
    simp only [Bool.false_eq_true, iff_false]
    intro hcanon
    exact hraw ⟨by simpa using hworld, hcanon, m, hm, hslot⟩

theorem sound_functionAddress (h : Sound wraps P.engine s) {k : ℕ} {m : DlModule}
    {i : Instance} {name : Utf16} {fn : Fn} (logged : Bool) (hm : s.modules[k]? = some m)
    (hi : m.inst = some i) (hfn : i.get name = some (.func fn))
    (hraw : ¬ RawCanonical s k name fn) :
    Sound wraps P.engine (functionAddress P k name fn logged s).2 := by
  rcases functionAddress_cases P k name fn logged s with
    hsame | ⟨m', entry, hm', hslot, -, hentry, -, heq⟩
  · rwa [hsame]
  · obtain rfl : m = m' := Option.some.inj (hm.symm.trans hm')
    obtain ⟨hserves, hcanon⟩ := toInstall_serves h hm hi hfn hslot hraw hentry
    rw [heq]
    exact h.install logged hm hi hfn hslot hserves hcanon

/-- The raw symbols of a load are the raw symbols of the state before it. -/
theorem rawCanonical_publish {c : LoadCall} {plan : Plan} {k : ℕ} {name : Utf16} {f : Fn}
    (hexport : resolveExport (publish c plan s) name = .ok (some (k, .func f)))
    (hraw : RawCanonical (publish c plan s) k name f) :
    resolveExport s name = .ok (some (k, .func f)) ∧ RawCanonical s k name f := by
  have hold : resolveExport s name = .ok (some (k, .func f)) := by
    rw [resolveExport_publish] at hexport
    split at hexport
    · cases hexport
    · rename_i r hr
      exact hr.trans hexport
    · split at hexport
      · cases hexport
      · simp at hexport
  obtain ⟨m, i, hm, -⟩ := resolveExport_place hold
  have hne : s.modules ≠ [] := by
    intro hnil
    simp [hnil] at hm
  obtain ⟨hworld, hfn, m', hm', hslot⟩ := hraw
  rw [getElem?_publish hm] at hm'
  cases hm'
  exact ⟨hold, fpcastWorld_publish hne ▸ hworld, hfn, m, hm, hslot⟩

theorem sound_resolveGot (h : Sound wraps P.engine s) (c : LoadCall) (plan : Plan)
    (hraw : ∀ name ∈ gotNames (ascii "GOT.func") plan.info.imports, ∀ k f,
      resolveExport s name = .ok (some (k, .func f)) → ¬ RawCanonical s k name f) :
    Sound wraps P.engine
      (resolveGot P plan.info.imports noGot (publish c plan s)).2 := by
  have hboth := resolveGot_keeps P
    (fun t => Sound wraps P.engine t ∧ chain t = chain (publish c plan s)) plan.info.imports
    (fun t k name f hname hexport ht => by
      obtain ⟨hsound, hchain⟩ := ht
      obtain ⟨m, i, hm, -, hi, hfn⟩ := resolveExport_place hexport
      refine ⟨sound_functionAddress hsound false hm hi hfn ?_,
        (chain_functionAddress P k name f false t).trans hchain⟩
      intro hr
      rw [resolveExport_of_chain hchain] at hexport
      obtain ⟨hold, hraw'⟩ := rawCanonical_publish hexport (rawCanonical_of_chain hchain hr)
      exact hraw name hname k f hold hraw')
    noGot (publish c plan s) ⟨h.publish c plan, rfl⟩
  exact hboth.1

theorem prepare_ok {bytes : List UInt8} {plan : Plan} (h : prepare P s bytes = .ok plan) :
    parseDylinkModule bytes = .ok plan.info ∧ P.engine.compiles bytes = true ∧
      plan.info.elemCount ≤ plan.tableCount := by
  unfold prepare at h
  split at h
  · cases h
  · rename_i info hinfo
    split at h
    · cases h
    · split at h
      · rename_i hcompiles
        split at h
        · cases h
        · cases h
          exact ⟨hinfo, hcompiles, Nat.le_max_right _ _⟩
      · cases h

/-- The new record, while its offset tables are built. -/
theorem record_of_chain {s' : Loader} {c : LoadCall} {plan : Plan}
    (h : chain s' = chain (publish c plan s)) :
    s'.modules.length = s.modules.length + 1 ∧
      ∃ r, s'.modules[s.modules.length]? = some r ∧ r.core = (newRecord c plan s).core := by
  have hlen := congrArg List.length h
  rw [chain_length, chain_length] at hlen
  refine ⟨by simpa [publish] using hlen, ?_⟩
  refine getElem?_of_chain h ?_
  simp [publish]

/-- The element segment of a load stays in its own range. -/
theorem instantiate_load (hE : P.engine.Lawful) {c : LoadCall} {plan : Plan}
    (hplan : prepare P s c.bytes = .ok plan) (hroom : Room P s plan.tableCount)
    (hbuilt : WellBuilt wraps c.bytes plan.info)
    (hplaced : Placed c.bytes s.table.length plan.info) {got : Got} {owner : Owner}
    {table table' : List (Option Fn)} {x : Option Instance}
    (h : instantiate P.engine c.bytes (importsOf c plan s got) owner table = (x, table')) :
    table'.length = table.length ∧
      (∀ index, ¬ (s.table.length ≤ index ∧ index < s.table.length + plan.tableCount) →
        table'[index]? = table[index]?) ∧
      ∀ i, x = some i → i = newInstance P.engine c.bytes (importsOf c plan s got) owner ∧
        functionsLink c.bytes (importsOf c plan s got) owner = true ∧
        P.engine.links c.bytes (importsOf c plan s got) = true ∧
        ∀ elem slot j, plan.info.elem = some elem → elem.funcIndices[slot]? = some j →
          table'[s.table.length + slot]? =
            some (funcAt c.bytes (importsOf c plan s got) owner j) := by
  have helem : (image c.bytes).elem = plan.info.elem :=
    congrArg (fun l => l.2.1) hbuilt.names
  have hcount : (image c.bytes).elemCount = plan.info.elemCount := by
    simp only [Info.elemCount, helem]
  have hle := (prepare_ok hplan).2.2
  have hlt : (image c.bytes).elemCount ≠ 0 → s.table.length < 2 ^ 32 := by
    intro hne
    have hmax := hE.tableMax_lt
    unfold Room at hroom
    omega
  have hplaced' : Placed c.bytes s.table.length (image c.bytes) := by
    intro elem helem'
    exact hplaced elem (helem ▸ helem')
  have hbase : (importsOf c plan s got).tableBase = s.table.length := rfl
  obtain ⟨hlen, hout, hdone⟩ := instantiate_placed hbase hlt hplaced' h
  refine ⟨hlen, ?_, ?_⟩
  · intro index hindex
    exact hout index (by omega)
  · intro i hi
    obtain ⟨hinst, hfuncs, hlinks, hentries⟩ := hdone i hi
    refine ⟨hinst, hfuncs, hlinks, ?_⟩
    intro elem slot j helem' hj
    exact hentries elem slot j (helem ▸ helem') hj

theorem sound_load (hE : P.engine.Lawful) (h : Sound wraps P.engine s) (replay : Bool)
    (c : LoadCall) (hadmits : admitsAddress wraps P s (.load replay c)) :
    Sound wraps P.engine (load P replay c s).2 := by
  have hout := load_outcome P replay c s
  generalize load P replay c s = result at hout
  cases hout with
  | refused e hplan => exact h
  | blocked e hplan => exact h
  | noRoom plan hplan hroom => exact h.withLog _
  | halted plan hplan hroom e s' hgot =>
    simp only [admitsAddress, hplan] at hadmits
    have hsound := sound_resolveGot h c plan hadmits.2.2
    rwa [hgot] at hsound
  | retracted plan hplan hroom got s' hgot table hinst =>
    simp only [admitsAddress, hplan] at hadmits
    obtain ⟨hbuilt, hplaced, hraw⟩ := hadmits
    have hsound := sound_resolveGot h c plan hraw
    have hchain := chain_resolveGot P plan.info.imports noGot (publish c plan s)
    rw [hgot] at hsound hchain
    obtain ⟨hlen, r, hr, hcore⟩ := record_of_chain hchain
    obtain ⟨htable, hsame, -⟩ := instantiate_load hE hplan hroom hbuilt hplaced hinst
    have hwritten := hsound.write hr (inst_of_core hcore) htable (by
      intro index hindex
      rw [tableBase_of_core hcore, tableCount_of_core hcore] at hindex
      exact hsame index hindex)
    have hshorter : ∀ (k : ℕ) (m : DlModule), s'.modules.dropLast[k]? = some m →
        s'.modules[k]? = some m := by
      intro k m hm
      rw [List.getElem?_dropLast] at hm
      split at hm
      · exact hm
      · cases hm
    exact (hwritten.restrict hshorter).withLog _
  | completed plan hplan hroom got s' hgot i table hinst =>
    simp only [admitsAddress, hplan] at hadmits
    obtain ⟨hbuilt, hplaced, hraw⟩ := hadmits
    have hsound := sound_resolveGot h c plan hraw
    have hchain := chain_resolveGot P plan.info.imports noGot (publish c plan s)
    rw [hgot] at hsound hchain
    obtain ⟨hlen, r, hr, hcore⟩ := record_of_chain hchain
    obtain ⟨htable, hsame, hdone⟩ := instantiate_load hE hplan hroom hbuilt hplaced hinst
    obtain ⟨hi, hfuncs, hlinks, hentries⟩ := hdone i rfl
    have hwritten := hsound.write hr (inst_of_core hcore) htable (by
      intro index hindex
      rw [tableBase_of_core hcore, tableCount_of_core hcore] at hindex
      exact hsame index hindex)
    obtain ⟨hparsed, hcompiles, hcount⟩ := prepare_ok hplan
    refine hwritten.setInst hr (inst_of_core hcore)
      ⟨c.bytes, plan.info, importsOf c plan s got, .side s.opLog.length, ?_⟩
    exact {
      inst := hi
      parsed := hparsed
      exportNames := hE.exportNames c.bytes hcompiles
      built := hbuilt
      elemSlots := elemSlots_of_core hcore
      fpcast := fpcast_of_core hcore
      sigOf := sigOf_of_core hcore
      count := (tableCount_of_core hcore).symm ▸ hcount
      linked := funcAt_linked hfuncs
      types := fun j f hf => funcAt_type hE hlinks hf
      entries := by
        intro elem slot j helem hj
        rw [tableBase_of_core hcore]
        exact hentries elem slot j helem hj }

theorem sound_step (hE : P.engine.Lawful) (h : Sound wraps P.engine s) (op : Op)
    (hadmits : admitsAddress wraps P s op) : Sound wraps P.engine (opStep P s op) := by
  cases op with
  | load replay c => exact sound_load hE h replay c hadmits
  | dlsym handle name =>
    simp only [opStep]
    cases htarget : dlsymTarget s handle name with
    | none => rwa [dlsym_no_target P htarget]
    | some x =>
      obtain ⟨k, f⟩ := x
      obtain ⟨m, i, hm, hi, hf, heq⟩ := dlsym_target P htarget
      rw [heq]
      exact sound_functionAddress h true hm hi hf (hadmits k f htarget)
  | growHole count =>
    simp only [opStep, growHole]
    split
    · exact (h.extend _).withLog _
    · exact h
  | reinstall k name =>
    simp only [opStep, reinstall]
    split
    · exact h
    · rename_i m hm
      obtain ⟨hdyn, hraw⟩ := hadmits m hm
      split
      · exact h
      · rename_i i hi
        split
        · rename_i f hf
          rw [modify_delete_absent hm hdyn]
          have hsound := sound_functionAddress h true hm hi hf (hraw i f hi hf)
          split
          · rename_i heq
            rwa [heq] at hsound
          · rename_i heq
            rwa [heq] at hsound
        · exact h

/-- No operation takes an address back. -/
theorem known_step (op : Op) (hadmits : admitsAddress wraps P s op) {h : Handed}
    (hknown : Known s h) : Known (opStep P s op) h := by
  cases op with
  | load replay c =>
    have hout := load_outcome P replay c s
    simp only [opStep]
    generalize load P replay c s = result at hout
    have hbuilt : ∀ plan got s',
        resolveGot P plan.info.imports noGot (publish c plan s) = (got, s') →
        Known s' h ∧ chain s' = chain (publish c plan s) := by
      intro plan got s' hgot
      have hkeep := known_resolveGot P plan.info.imports noGot (known_publish c plan hknown)
      have hchain := chain_resolveGot P plan.info.imports noGot (publish c plan s)
      rw [hgot] at hkeep hchain
      exact ⟨hkeep, hchain⟩
    cases hout with
    | refused e hplan => exact hknown
    | blocked e hplan => exact hknown
    | noRoom plan hplan hroom => exact hknown
    | halted plan hplan hroom e s' hgot => exact (hbuilt plan _ s' hgot).1
    | retracted plan hplan hroom got s' hgot table hinst =>
      obtain ⟨hkeep, hchain⟩ := hbuilt plan _ s' hgot
      obtain ⟨hlen, r, hr, hcore⟩ := record_of_chain hchain
      rw [show s.modules.length = s'.modules.length - 1 by omega] at hr
      exact known_dropLast hr (inst_of_core hcore) table _ hkeep
    | completed plan hplan hroom got s' hgot i table hinst =>
      obtain ⟨hkeep, hchain⟩ := hbuilt plan _ s' hgot
      obtain ⟨hlen, r, hr, hcore⟩ := record_of_chain hchain
      exact known_setInst hr (inst_of_core hcore) i table hkeep
  | dlsym handle name =>
    simp only [opStep]
    cases htarget : dlsymTarget s handle name with
    | none => rwa [dlsym_no_target P htarget]
    | some x =>
      obtain ⟨k, f⟩ := x
      obtain ⟨m, i, hm, hi, hf, heq⟩ := dlsym_target P htarget
      rw [heq]
      exact known_functionAddress P k name f true hknown
  | growHole count =>
    simp only [opStep, growHole]
    split
    · exact hknown
    · exact hknown
  | reinstall k name =>
    simp only [opStep, reinstall]
    split
    · exact hknown
    · rename_i m hm
      obtain ⟨hdyn, -⟩ := hadmits m hm
      split
      · exact hknown
      · split
        · rename_i f hf
          rw [modify_delete_absent hm hdyn]
          have hkeep := known_functionAddress P k name f true hknown
          split
          · rename_i heq
            rwa [heq] at hkeep
          · rename_i heq
            rwa [heq] at hkeep
        · exact hknown

/-- The entry of a function symbol in the offset table is its address. -/
theorem resolveGot_address {imports : List Import} {got got' : Got} {s' : Loader}
    {name : Utf16} {k : ℕ} {f : Fn} {m : DlModule} {i : Instance}
    (hm : s.modules[k]? = some m) (hi : m.inst = some i) (hf : i.get name = some (.func f))
    (hexport : resolveExport s name = .ok (some (k, .func f)))
    (hgot : resolveGot P imports got s = (.ok got', s'))
    (hstart : name ∈ gotNames (ascii "GOT.func") imports ∨
      ∃ index, got.func.get name = some index ∧ Known s ⟨k, name, f, index⟩) :
    ∃ index, got'.func.get name = some index ∧ Known s' ⟨k, name, f, index⟩ := by
  induction imports generalizing got s m with
  | nil =>
    simp only [resolveGot, Prod.mk.injEq, Except.ok.injEq] at hgot
    obtain ⟨rfl, rfl⟩ := hgot
    simpa [gotNames] using hstart
  | cons first rest ih =>
    by_cases hmem : first.module = ascii "GOT.mem"
    · have hfunc : first.module ≠ ascii "GOT.func" :=
        fun h => gotMem_ne_gotFunc (hmem.symm.trans h)
      rw [gotNames_cons_of_ne hfunc] at hstart
      simp only [resolveGot, hmem, if_true] at hgot
      cases hentry : gotMemEntry s first.name with
      | error e => simp [hentry] at hgot
      | ok v =>
        rw [hentry] at hgot
        exact ih hm hi hexport hgot hstart
    · by_cases hfunc : first.module = ascii "GOT.func"
      · simp only [resolveGot, hfunc, gotMem_ne_gotFunc.symm, if_false, if_true] at hgot
        cases hentry : gotFuncEntry P first.name s with
        | mk r t =>
          cases r with
          | error e => simp [hentry] at hgot
          | ok v =>
            rw [hentry] at hgot
            have hchain := chain_gotFuncEntry hentry
            obtain ⟨m', hm', hcore⟩ := getElem?_of_chain hchain hm
            refine ih hm' ((inst_of_core hcore).trans hi)
              ((resolveExport_of_chain hchain name).trans hexport) hgot ?_
            by_cases hname : name = first.name
            · subst hname
              refine .inr ⟨v, JsMap.get_set_self _ _ _, m', i, hm',
                (inst_of_core hcore).trans hi, hf, ?_⟩
              simp only [gotFuncEntry, hexport] at hentry
              have haddress : address (functionAddress P k first.name f false s).2 k
                  first.name = some v := address_functionAddress (by rw [hentry])
              rwa [hentry] at haddress
            · rw [gotNames_cons_self hfunc] at hstart
              rcases hstart with hin | ⟨index, hget, hknown⟩
              · exact .inl ((List.mem_cons.mp hin).resolve_left hname)
              · refine .inr ⟨index, (JsMap.get_set_of_ne _ _ hname).trans hget, ?_⟩
                unfold gotFuncEntry at hentry
                split at hentry
                · cases hentry
                · rename_i k' f' hexport'
                  have hkeep := known_functionAddress P k' first.name f' false hknown
                  rwa [hentry] at hkeep
                · cases hentry
                  exact hknown
      · rw [gotNames_cons_of_ne hfunc] at hstart
        simp only [resolveGot, hmem, hfunc, if_false] at hgot
        exact ih hm hi hexport hgot hstart

/-- What an operation hands out is known right after it. -/
theorem known_of_hands {op : Op} {h : Handed} (hhands : Hands P s op h) :
    Known (opStep P s op) h := by
  cases hhands with
  | dlsym handle name k f index htarget hresult =>
    obtain ⟨m, i, hm, hi, hf, heq⟩ := dlsym_target P htarget
    simp only [opStep, heq]
    rw [heq] at hresult
    have hindex : (functionAddress P k name f true s).1 = .ok index := by
      cases hr : (functionAddress P k name f true s).1 with
      | error e => simp [hr, Except.map] at hresult
      | ok v =>
        simp only [hr, Except.map, Except.ok.injEq, Int.ofNat_eq_natCast] at hresult
        exact congrArg Except.ok (by omega)
    obtain ⟨m', hm', hcore⟩ := getElem?_of_chain (chain_functionAddress P k name f true s) hm
    exact ⟨m', i, hm', (inst_of_core hcore).trans hi, hf, address_functionAddress hindex⟩
  | got replay c plan hplan hroom table s' hgot name hname k f hexport index hentry =>
    obtain ⟨m, i, hm, -, hi, hf⟩ := resolveExport_place hexport
    have hexport' : resolveExport (publish c plan s) name = .ok (some (k, .func f)) := by
      rw [resolveExport_publish, hexport]
    obtain ⟨index', hget, hknown⟩ := resolveGot_address (getElem?_publish hm) hi hf hexport'
      hgot (.inl hname)
    obtain rfl : index = index' := Option.some.inj (hentry.symm.trans hget)
    have hchain : chain s' = chain (publish c plan s) := by
      simpa only [hgot] using chain_resolveGot P plan.info.imports noGot (publish c plan s)
    obtain ⟨hlen, r, hr, hcore⟩ := record_of_chain hchain
    simp only [opStep, load_eq_link hplan hroom hgot, link]
    split
    · rw [show s.modules.length = s'.modules.length - 1 by omega] at hr
      exact known_dropLast hr (inst_of_core hcore) _ _ hknown
    · exact known_setInst hr (inst_of_core hcore) _ _ hknown

/-- Along an admitted run the invariant is kept and no address is lost. -/
theorem run_addresses (hE : P.engine.Lawful) (history : List Op) (h : Sound wraps P.engine s)
    (hhistory : Along (admitsAddress wraps P) (opStep P) s history) :
    Sound wraps P.engine (run (opStep P) s history) ∧
      (∀ x, Known s x → Known (run (opStep P) s history) x) ∧
      ∀ x, HandedIn P s history x → Known (run (opStep P) s history) x := by
  induction history generalizing s with
  | nil => exact ⟨h, fun _ hx => hx, fun _ hx => hx.elim⟩
  | cons op rest ih =>
    obtain ⟨hadmits, hrest⟩ := hhistory
    obtain ⟨hsound, hkeep, hhanded⟩ := ih (sound_step hE h op hadmits) hrest
    refine ⟨hsound, fun x hx => hkeep x (known_step op hadmits hx), ?_⟩
    intro x hx
    rcases hx with hnow | hlater
    · exact hkeep x (known_of_hands hnow)
    · exact hhanded x hlater

end Steps

section Final

variable {wraps : List UInt8 → ℕ → Option ℕ} {E : Engine} {s : Loader}

theorem dynSlot_outside (h : Sound wraps E s) {k : ℕ} {m : DlModule}
    (hm : s.modules[k]? = some m) {index : ℕ} (hle : m.tableBase ≤ index)
    (hlt : index < m.tableBase + m.tableCount) :
    (s.modules.any fun x => x.dynSlots.values.any fun slot => slot = index) = false := by
  rw [Bool.eq_false_iff]
  intro hany
  obtain ⟨x, hx, hslots⟩ := List.any_eq_true.mp hany
  obtain ⟨slot, hslot, heq⟩ := List.any_eq_true.mp hslots
  obtain ⟨j, hj⟩ := List.getElem?_of_mem hx
  obtain rfl : slot = index := by simpa using heq
  exact (h.outside j x slot hj hslot).2 k m hm ⟨hle, hlt⟩

/-- A slot in the range of a module is as canonical as the module's build. -/
theorem isCanonicalSlot_range (h : Sound wraps E s) {k : ℕ} {m : DlModule}
    (hm : s.modules[k]? = some m) {index : ℕ} (hle : m.tableBase ≤ index)
    (hlt : index < m.tableBase + m.tableCount) : isCanonicalSlot s index = m.fpcast := by
  unfold isCanonicalSlot
  rw [if_neg (by rw [dynSlot_outside h hm hle hlt]; simp)]
  cases hfind : s.modules.find? fun x =>
      x.tableBase ≤ index ∧ index < x.tableBase + x.tableCount with
  | none =>
    have hnot := List.find?_eq_none.mp hfind m (List.mem_of_getElem? hm)
    simp [hle, hlt] at hnot
  | some x =>
    have hx := List.find?_some hfind
    simp only [decide_eq_true_eq] at hx
    obtain ⟨j, hj⟩ := List.getElem?_of_mem (List.mem_of_find?_eq_some hfind)
    have hjk : j = k := by
      rcases Nat.lt_trichotomy j k with hlt' | heq | hgt
      · have hbefore := h.disjoint j k x m hj hm hlt'
        omega
      · exact heq
      · have hafter := h.disjoint k j m x hm hj hgt
        omega
    subst hjk
    rw [Option.some.inj (hj.symm.trans hm)]

theorem isCanonicalSlot_dynamic {k : ℕ} {m : DlModule} (hm : s.modules[k]? = some m)
    {name : Utf16} {index : ℕ} (hget : m.dynSlots.get name = some index) :
    isCanonicalSlot s index = decide (index ∈ s.thunkedSlots) := by
  have hany : (s.modules.any fun x => x.dynSlots.values.any fun slot => slot = index) = true := by
    rw [List.any_eq_true]
    refine ⟨m, List.mem_of_getElem? hm, ?_⟩
    rw [List.any_eq_true]
    exact ⟨index, JsMap.mem_values_of_get hget, by simp⟩
  unfold isCanonicalSlot
  rw [if_pos hany]

/-- A known address holds its export, and its ABI is known. -/
theorem known_serves (h : Sound wraps E s) {x : Handed} (hknown : Known s x) :
    ∃ f, s.table[x.index]? = some (some f) ∧ Serves wraps f x.fn ∧
      (isCanonicalSlot s x.index = true ↔ f.Canonical) := by
  obtain ⟨m, i, hm, hi, hfn, haddress⟩ := hknown
  simp only [address, hm] at haddress
  cases hslot : m.elemSlots.get x.name with
  | some slot =>
    simp only [hslot, Option.some.injEq] at haddress
    obtain ⟨bytes, info, imports, owner, hback⟩ := h.backed x.module m i hm hi
    obtain ⟨hlt, f, hf, hserves, hcanon⟩ := hback.slot_serves hslot hfn
    refine ⟨f, haddress ▸ hf, hserves, ?_⟩
    rw [isCanonicalSlot_range h hm (by omega) (by omega), hcanon]
  | none =>
    simp only [hslot] at haddress
    obtain ⟨-, i', fn, f, hi', hfn', hf, hserves, hcanon⟩ :=
      h.dynamic x.module m x.name x.index hm haddress
    obtain rfl : i = i' := Option.some.inj (hi.symm.trans hi')
    rw [hfn] at hfn'
    cases hfn'
    refine ⟨f, hf, hserves, ?_⟩
    rw [isCanonicalSlot_dynamic hm haddress, hcanon, decide_eq_true_eq]

/-- Different functions have different addresses. -/
theorem known_injective (h : Sound wraps E s) {x y : Handed} (hx : Known s x) (hy : Known s y)
    (hindex : x.index = y.index) : x.fn = y.fn := by
  obtain ⟨m, i, hm, hi, hfn, haddress⟩ := hx
  obtain ⟨m', i', hm', hi', hfn', haddress'⟩ := hy
  simp only [address, hm] at haddress
  simp only [address, hm'] at haddress'
  obtain ⟨bytes, info, imports, owner, hback⟩ := h.backed x.module m i hm hi
  obtain ⟨bytes', info', imports', owner', hback'⟩ := h.backed y.module m' i' hm' hi'
  cases hslot : m.elemSlots.get x.name with
  | some slot =>
    simp only [hslot, Option.some.injEq] at haddress
    have hlt := (hback.slot_serves hslot hfn).1
    cases hslot' : m'.elemSlots.get y.name with
    | some slot' =>
      simp only [hslot', Option.some.injEq] at haddress'
      have hlt' := (hback'.slot_serves hslot' hfn').1
      have hmodule : x.module = y.module := by
        rcases Nat.lt_trichotomy x.module y.module with hbefore | heq | hafter
        · have hrange := h.disjoint x.module y.module m m' hm hm' hbefore
          omega
        · exact heq
        · have hrange := h.disjoint y.module x.module m' m hm' hm hafter
          omega
      rw [hmodule] at hm
      obtain rfl : m = m' := Option.some.inj (hm.symm.trans hm')
      obtain rfl : i = i' := Option.some.inj (hi.symm.trans hi')
      obtain rfl : slot = slot' := by omega
      exact hback.slot_injective hslot hslot' hfn hfn'
    | none =>
      simp only [hslot'] at haddress'
      have hout := (h.outside y.module m' y.index hm' (JsMap.mem_values_of_get haddress')).2
        x.module m hm
      omega
  | none =>
    simp only [hslot] at haddress
    cases hslot' : m'.elemSlots.get y.name with
    | some slot' =>
      simp only [hslot', Option.some.injEq] at haddress'
      have hlt' := (hback'.slot_serves hslot' hfn').1
      have hout := (h.outside x.module m x.index hm (JsMap.mem_values_of_get haddress)).2
        y.module m' hm'
      omega
    | none =>
      simp only [hslot'] at haddress'
      rw [hindex] at haddress
      obtain ⟨hmodule, hname⟩ := h.distinct x.module y.module m m' x.name y.name y.index hm hm'
        haddress haddress'
      rw [hmodule] at hm
      obtain rfl : m = m' := Option.some.inj (hm.symm.trans hm')
      obtain rfl : i = i' := Option.some.inj (hi.symm.trans hi')
      rw [hname, hfn'] at hfn
      exact (Value.func.inj (Option.some.inj hfn)).symm

end Final

theorem sound_boot {wraps : List UInt8 → ℕ → Option ℕ} {P : Process}
    (hmain : MainLoaded wraps P) {fresh : Loader} (hboot : boot P = .ok fresh) :
    Sound wraps P.engine fresh := by
  unfold boot at hboot
  cases hinfo : parseDylinkModule P.main.bytes with
  | error e => simp [hinfo] at hboot
  | ok info =>
    obtain ⟨hfits, imports, hback⟩ := hmain info hinfo
    have hsound : Sound wraps P.engine
        ⟨P.main.table, [mainRecord P.main info], [], []⟩ := by
      have hplace : ∀ (k : ℕ) (m : DlModule), [mainRecord P.main info][k]? = some m →
          k = 0 ∧ m = mainRecord P.main info := by
        intro k m hm
        cases k with
        | zero => exact ⟨rfl, (Option.some.inj hm).symm⟩
        | succ k => simp at hm
      refine ⟨?_, ?_, ?_, ?_, ?_, ?_, by simp⟩
      · intro k m hm
        obtain ⟨-, rfl⟩ := hplace k m hm
        exact hfits
      · intro k k' m m' hm hm' hlt
        have hk := (hplace k m hm).1
        have hk' := (hplace k' m' hm').1
        omega
      · intro k m i hm hi
        obtain ⟨-, rfl⟩ := hplace k m hm
        cases hi
        exact ⟨P.main.bytes, info, imports, .main, hback⟩
      · intro k m index hm hmem
        obtain ⟨-, rfl⟩ := hplace k m hm
        simp [mainRecord, JsMap.empty, JsMap.values] at hmem
      · intro k m name index hm hget
        obtain ⟨-, rfl⟩ := hplace k m hm
        simp [mainRecord] at hget
      · intro k k' m m' name name' index hm hm' hget
        obtain ⟨-, rfl⟩ := hplace k m hm
        simp [mainRecord] at hget
    rw [hinfo] at hboot
    cases hboot
    by_cases hmmu : P.mmu = true
    · rw [if_pos hmmu]
      exact hsound.extend [some .faultBridge]
    · rw [if_neg hmmu]
      exact hsound

/-- Soundness of function addresses, over every run of admitted operations: whatever was
handed out serves its export at the end and its ABI is known, one export of one module
has one address, and different functions have different ones. -/
theorem handed_addresses_sound (wraps : List UInt8 → ℕ → Option ℕ) (P : Process)
    (hE : P.engine.Lawful) (hmain : MainLoaded wraps P) (fresh : Loader)
    (hboot : boot P = .ok fresh) (history : List Op)
    (hhistory : Along (admitsAddress wraps P) (opStep P) fresh history) :
    (∀ x, HandedIn P fresh history x → ∃ f,
        (run (opStep P) fresh history).table[x.index]? = some (some f) ∧
        Serves wraps f x.fn ∧
        (isCanonicalSlot (run (opStep P) fresh history) x.index = true ↔ f.Canonical)) ∧
      ∀ x y, HandedIn P fresh history x → HandedIn P fresh history y →
        (x.module = y.module → x.name = y.name → x.index = y.index) ∧
        (x.fn ≠ y.fn → x.index ≠ y.index) := by
  obtain ⟨hsound, -, hhanded⟩ := run_addresses hE history (sound_boot hmain hboot) hhistory
  refine ⟨fun x hx => known_serves hsound (hhanded x hx), ?_⟩
  intro x y hx hy
  refine ⟨?_, fun hne hindex => hne (known_injective hsound (hhanded x hx) (hhanded y hy) hindex)⟩
  intro hmodule hname
  obtain ⟨-, -, -, -, -, haddress⟩ := hhanded x hx
  obtain ⟨-, -, -, -, -, haddress'⟩ := hhanded y hy
  rw [hmodule, hname, haddress'] at haddress
  exact (Option.some.inj haddress).symm

section Sample

/-- A side module with one exported function `g` in its element segment, which starts at
the given offset expression. It imports the process's table and its base. -/
def sampleTableBytes (offset : List UInt8) : List UInt8 :=
  [0, 0x61, 0x73, 0x6d, 1, 0, 0, 0] ++
  [0, 15, 8, 0x64, 0x79, 0x6c, 0x69, 0x6e, 0x6b, 0x2e, 0x30, 1, 4, 0, 0, 1, 0] ++
  [1, 4, 1, 0x60, 0, 0] ++
  [2, 55, 2, 3, 0x65, 0x6e, 0x76, 25] ++
  [0x5f, 0x5f, 0x69, 0x6e, 0x64, 0x69, 0x72, 0x65, 0x63, 0x74, 0x5f, 0x66, 0x75, 0x6e, 0x63,
    0x74, 0x69, 0x6f, 0x6e, 0x5f, 0x74, 0x61, 0x62, 0x6c, 0x65, 1, 0x70, 0, 1] ++
  [3, 0x65, 0x6e, 0x76, 12, 0x5f, 0x5f, 0x74, 0x61, 0x62, 0x6c, 0x65, 0x5f, 0x62, 0x61, 0x73,
    0x65, 3, 0x7f, 0] ++
  [3, 2, 1, 0, 7, 5, 1, 1, 0x67, 0, 0] ++
  ([9, 7, 1, 0] ++ offset ++ [1, 0]) ++
  [10, 4, 1, 2, 0, 0x0b]

/-- The segment at `i32.const 0` is accepted, its entry goes to slot 0, and the address
given for the function is the empty first slot of the module's range. -/
theorem constant_offset_address :
    let s := run (opStep sampleProcess) sampleFresh
      [.load false (sampleLoad (sampleTableBytes [0x41, 0, 0x0b]) true)]
    (load sampleProcess false (sampleLoad (sampleTableBytes [0x41, 0, 0x0b]) true)
        sampleFresh).1 = .ok 2 ∧
      (dlsym sampleProcess 2 (ascii "g") s).1 = .ok 2 ∧
      (dlsym sampleProcess 2 (ascii "g") s).2.table =
        [some (.defined (.side 0) 0 (some ⟨[], []⟩)), none, none] := by
  decide +kernel

theorem sampleEngine_lawful : sampleEngine.Lawful where
  exportNames bytes h := by simpa [sampleEngine] using h
  importTypes bytes imports owner k f hlinks hf := by
    unfold funcImport at hf
    cases hi : ((image bytes).imports.filter fun i => i.kind = kindFunc)[k]? with
    | none => simp [hi] at hf
    | some i =>
      simp only [hi] at hf
      split at hf
      · rename_i g hg
        cases hf
        have hlt := (List.getElem?_eq_some_iff.mp hi).1
        have hall := List.all_eq_true.mp hlinks k (List.mem_range.mpr hlt)
        simp only [funcImport, hi, hg] at hall
        cases f with
        | defined _ _ type => exact of_decide_eq_true hall
        | faultBridge => simp at hall
        | thunk _ _ => simp at hall
      · cases hf
        rfl
      · cases hf
  tableMax_lt := by decide

/-- What the loader reads of the sample main module. -/
def sampleMainInfo : Info where
  dylink := none
  imports := []
  funcImportCount := 0
  tableImportInitial := 0
  exports := [⟨ascii "f", kindFunc, 0⟩]
  elem := none
  dynsym := JsMap.empty
  fpcast := false
  types := [⟨[], []⟩]
  funcImportTypes := []
  funcTypes := [0]

theorem sampleMain_loaded : MainLoaded (fun _ _ => none) sampleProcess := by
  intro info hinfo
  have hread : parseDylinkModule sampleMainBytes = .ok sampleMainInfo := rfl
  obtain rfl : sampleMainInfo = info := Except.ok.inj (hread.symm.trans hinfo)
  refine ⟨by decide, ⟨JsMap.empty, 0, 0, JsMap.empty, JsMap.empty⟩, ?_⟩
  have hlinks : sampleEngine.links sampleMainBytes
      ⟨JsMap.empty, 0, 0, JsMap.empty, JsMap.empty⟩ = true := by decide +kernel
  exact {
    inst := rfl
    parsed := hread
    exportNames := by decide +kernel
    built := {
      names := rfl
      thunks := by
        intro hfp
        cases hfp
      dynsym := by
        intro name slot hget
        cases hget }
    elemSlots := rfl
    fpcast := rfl
    sigOf := rfl
    count := by decide
    linked := fun j => funcAt_linked (by decide +kernel) j
    types := fun j f hf => funcAt_type sampleEngine_lawful hlinks hf
    entries := by
      intro elem slot j helem
      cases helem }

/-- What the loader reads of the sample module with its segment at `__table_base`. -/
def sampleTableInfo : Info where
  dylink := some ⟨0, 0, 1, 0, []⟩
  imports := [⟨ascii "env", ascii "__indirect_function_table", kindTable⟩,
    ⟨ascii "env", ascii "__table_base", kindGlobal⟩]
  funcImportCount := 0
  tableImportInitial := 1
  exports := [⟨ascii "g", kindFunc, 0⟩]
  elem := some ⟨.global 0, [0]⟩
  dynsym := JsMap.empty
  fpcast := false
  types := [⟨[], []⟩]
  funcImportTypes := []
  funcTypes := [0]

/-- A load and two lookups: the element slot of `g` and a dynamic slot for `f`. -/
def sampleLookups : List Op :=
  [.load false (sampleLoad (sampleTableBytes [0x23, 0, 0x0b]) true), .dlsym 2 (ascii "g"),
    .dlsym 0 (ascii "f")]

theorem sampleLookups_admitted :
    Along (admitsAddress (fun _ _ => none) sampleProcess) (opStep sampleProcess) sampleFresh
      sampleLookups := by
  have hplan : prepare sampleProcess sampleFresh (sampleTableBytes [0x23, 0, 0x0b]) =
      .ok ⟨sampleTableInfo, 1, JsMap.empty⟩ := rfl
  have hplain : ¬ (Fn.defined .main 0 (some ⟨[], []⟩)).Canonical ∧
      ¬ (Fn.defined (.side 0) 0 (some ⟨[], []⟩)).Canonical := by
    unfold Fn.Canonical
    decide
  simp only [sampleLookups, Along, and_true]
  refine And.intro ?_ (And.intro ?_ ?_)
  · simp only [admitsAddress, sampleLoad, hplan]
    refine And.intro ⟨?_, ?_, ?_⟩ (And.intro ?_ ?_)
    · decide +kernel
    · intro hfp
      cases hfp
    · intro name slot hget
      cases hget
    · intro elem helem _
      cases helem
      have hbase : ((image (sampleTableBytes [0x23, 0, 0x0b])).imports.filter fun i =>
          i.kind = kindGlobal)[0]? = some ⟨ascii "env", ascii "__table_base", kindGlobal⟩ := by
        decide +kernel
      refine ⟨by decide +kernel, ?_⟩
      simp [anchored, hbase]
    · intro name hname
      have hnone : gotNames (ascii "GOT.func") sampleTableInfo.imports = [] := by decide
      rw [hnone] at hname
      cases hname
  · intro k f htarget hraw
    have htarget' : dlsymTarget (opStep sampleProcess sampleFresh (.load false
        (sampleLoad (sampleTableBytes [0x23, 0, 0x0b]) true))) 2 (ascii "g") =
        some (1, .defined (.side 0) 0 (some ⟨[], []⟩)) := by decide +kernel
    rw [htarget'] at htarget
    cases htarget
    exact hplain.2 hraw.2.1
  · intro k f htarget hraw
    have htarget' : dlsymTarget (opStep sampleProcess (opStep sampleProcess sampleFresh
        (.load false (sampleLoad (sampleTableBytes [0x23, 0, 0x0b]) true)))
        (.dlsym 2 (ascii "g"))) 0 (ascii "f") =
        some (0, .defined .main 0 (some ⟨[], []⟩)) := by decide +kernel
    rw [htarget'] at htarget
    cases htarget
    exact hplain.1 hraw.2.1

/-- The address of `g` is 2, and its slot still serves `g` after the other lookup. -/
theorem handed_addresses_sound_sample :
    HandedIn sampleProcess sampleFresh sampleLookups
        ⟨1, ascii "g", .defined (.side 0) 0 (some ⟨[], []⟩), 2⟩ ∧
      ∃ f, (run (opStep sampleProcess) sampleFresh sampleLookups).table[2]? = some (some f) ∧
        Serves (fun _ _ => none) f (.defined (.side 0) 0 (some ⟨[], []⟩)) ∧
        (isCanonicalSlot (run (opStep sampleProcess) sampleFresh sampleLookups) 2 = true ↔
          f.Canonical) := by
  have hhanded : HandedIn sampleProcess sampleFresh sampleLookups
      ⟨1, ascii "g", .defined (.side 0) 0 (some ⟨[], []⟩), 2⟩ := by
    have hnow : Hands sampleProcess
        (opStep sampleProcess sampleFresh
          (.load false (sampleLoad (sampleTableBytes [0x23, 0, 0x0b]) true)))
        (.dlsym 2 (ascii "g")) ⟨1, ascii "g", .defined (.side 0) 0 (some ⟨[], []⟩), 2⟩ :=
      .dlsym 2 (ascii "g") 1 _ 2 (by decide +kernel) (by decide +kernel)
    simp only [sampleLookups, HandedIn]
    exact .inr (.inl hnow)
  have hserves := (handed_addresses_sound (fun _ _ => none) sampleProcess sampleEngine_lawful
    sampleMain_loaded sampleFresh sampleFresh_boot sampleLookups sampleLookups_admitted).1
      _ hhanded
  dsimp only at hserves
  exact ⟨hhanded, hserves⟩

end Sample

end NixWasm.DynamicLoader
