import NixWasm.NinepSim
import NixWasm.Runs

/-!
Streamed writes against read-modify-write. The server is run twice on the same frames,
with the backends as they are and with `openWrite` taken away. The backends agree at the
end when no request takes a file away from under another fid's open writer.
-/
namespace NixWasm.NinepServer

open Unicode Vfs NinepCodec Effects

variable {V σ : Type} [DecidableEq V]

section Admits

/-- No fid but `except` has a writer open at or below the path. -/
def clearOf (w : World V σ) (v : V) (p : Path) (except : Option Ref) : Bool :=
  (List.range w.next).all fun r => decide (some r = except) ||
    match (w.heap r).writer with
    | none => true
    | some wr => decide ((w.heap r).vfs ≠ v) || !p.isPrefixOf wr.path

/-- No fid but `except` has a writer open strictly below the path. -/
def clearBelow (w : World V σ) (v : V) (p : Path) (except : Option Ref) : Bool :=
  (List.range w.next).all fun r => decide (some r = except) ||
    match (w.heap r).writer with
    | none => true
    | some wr => decide ((w.heap r).vfs ≠ v) || decide (wr.path = p) || !p.isPrefixOf wr.path

omit [DecidableEq V] in
def onFid (w : World V σ) (cid fid : ℕ) (k : Ref → Bool) : Bool :=
  match ref w cid fid with
  | none => true
  | some r => k r

def onName (base : Path) (name : Utf16) (k : Path → Bool) : Bool :=
  match joinName base name with
  | .ok p => k p
  | .error _ => true

omit [DecidableEq V] in
def idleFid (w : World V σ) (cid fid : ℕ) : Bool :=
  onFid w cid fid fun r => (w.heap r).writer.isNone

omit [DecidableEq V] in
/-- A Tattach finds its path. -/
def attaches (cfg : Config V σ) (w : World V σ) (aname : Utf16) : Bool :=
  match cfg.resolveAttach aname with
  | .ok (v, p) =>
    match (cfg.backend v).stat (w.disk v) p with
    | .ok (some _) => true
    | _ => false
  | .error _ => false

/-- A walk finds every component, so that it binds its fid. -/
def arrives (b : Backend σ) (disk : σ) : Path → List Utf16 → Bool
  | _, [] => true
  | cur, name :: names =>
    match joinName cur name with
    | .ok next =>
      match b.stat disk next with
      | .ok (some _) => arrives b disk next names
      | _ => false
    | .error _ => false

/-- The request does not take a file away from under an open writer: it rebinds no fid
that has one, moves, removes or replaces nothing another fid has a writer at or below,
resizes nothing another fid has a writer on, and streams only into files that exist. -/
def admits (cfg : Config V σ) (w : World V σ) (cid : ℕ) : Body → Bool
  | .tattach fid _ _ aname _ => !attaches cfg w aname || idleFid w cid fid
  | .twalk fid newfid wnames => onFid w cid fid fun r =>
      !arrives (cfg.backend (w.heap r).vfs) (w.disk (w.heap r).vfs) (w.heap r).path wnames ||
        idleFid w cid newfid
  | .tsetattr fid valid _ _ _ _ _ _ _ _ =>
    decide (valid &&& setattrSize = 0) || onFid w cid fid fun r =>
      clearOf w (w.heap r).vfs (w.heap r).path (some r)
  | .tlcreate fid name _ _ _ => onFid w cid fid fun r => onName (w.heap r).path name fun p =>
      decide (p ≠ []) && clearBelow w (w.heap r).vfs p (some r)
  | .tsymlink fid name _ _ => onFid w cid fid fun r => onName (w.heap r).path name fun p =>
      clearOf w (w.heap r).vfs p none
  | .twrite fid offset _ => onFid w cid fid fun r =>
      clearBelow w (w.heap r).vfs (w.heap r).path (some r) &&
        (decide (offset ≠ 0) || !cfg.openWrite (w.heap r).vfs ||
          (cfg.backend (w.heap r).vfs).isLeaf (w.disk (w.heap r).vfs) (w.heap r).path)
  | .tremove fid => onFid w cid fid fun r =>
      clearOf w (w.heap r).vfs (w.heap r).path (some r)
  | .tunlinkat dirfid name _ => onFid w cid dirfid fun r => onName (w.heap r).path name fun p =>
      clearOf w (w.heap r).vfs p none
  | .trename fid dfid name => onFid w cid fid fun r => onFid w cid dfid fun d =>
      onName (w.heap d).path name fun dst =>
        clearOf w (w.heap r).vfs (w.heap r).path (some r) && clearOf w (w.heap r).vfs dst (some r)
  | .trenameat olddirfid oldname newdirfid newname =>
    onFid w cid olddirfid fun od => onFid w cid newdirfid fun nd =>
      onName (w.heap od).path oldname fun src => onName (w.heap nd).path newname fun dst =>
        clearOf w (w.heap od).vfs src none && clearOf w (w.heap od).vfs dst none
  | _ => true

variable {cfg : Config V σ} {s t : World V σ}

theorem clearOf_spec (h : Sim cfg s t) {v : V} {p : Path} {except : Option Ref}
    (hclear : clearOf s v p except = true) {r : Ref} {q : Path} (hr : some r ≠ except)
    (hat : WriterAt s r v q) : ¬ p <+: q := by
  obtain ⟨wr, hw, hv, rfl⟩ := hat
  have hlt : r < s.next := by
    by_contra hge
    rw [h.fresh r (Nat.le_of_not_lt hge)] at hw
    cases hw
  have hone := List.all_eq_true.mp hclear r (List.mem_range.mpr hlt)
  have hfalse : p.isPrefixOf wr.path = false := by simpa [hr, hw, hv] using hone
  intro hprefix
  rw [List.isPrefixOf_iff_prefix.mpr hprefix] at hfalse
  cases hfalse

theorem clearBelow_spec (h : Sim cfg s t) {v : V} {p : Path} {except : Option Ref}
    (hclear : clearBelow s v p except = true) {r : Ref} {q : Path} (hr : some r ≠ except)
    (hat : WriterAt s r v q) (hq : q ≠ p) : ¬ p <+: q := by
  obtain ⟨wr, hw, hv, rfl⟩ := hat
  have hlt : r < s.next := by
    by_contra hge
    rw [h.fresh r (Nat.le_of_not_lt hge)] at hw
    cases hw
  have hone := List.all_eq_true.mp hclear r (List.mem_range.mpr hlt)
  have hfalse : p.isPrefixOf wr.path = false := by simpa [hr, hw, hv, hq] using hone
  intro hprefix
  rw [List.isPrefixOf_iff_prefix.mpr hprefix] at hfalse
  cases hfalse

omit [DecidableEq V] in
theorem onFid_spec {cid fid : ℕ} {k : Ref → Bool} (h : onFid s cid fid k = true) {r : Ref}
    (hr : ref s cid fid = some r) : k r = true := by
  simpa only [onFid, hr] using h

theorem onName_spec {base p : Path} {name : Utf16} {k : Path → Bool}
    (h : onName base name k = true) (hp : joinName base name = .ok p) : k p = true := by
  simpa only [onName, hp] using h

end Admits

section Handlers
variable {cfg : Config V σ} {s t : World V σ}

omit [DecidableEq V] in
/-- Both sides go on from related worlds once the fid is found. -/
theorem Sim.afterGetFid {α β : Type} (h : Sim cfg s t) (cid fid : ℕ) {f : Ref → Handler V σ α}
    {g : Ref → Handler V σ β}
    (hfound : ∀ r, ref s cid fid = some r → Sim cfg (after (f r s)) (after (g r t))) :
    Sim cfg (after ((cfg.getFid cid fid >>= f) s))
      (after ((cfg.plain.getFid cid fid >>= g) t)) := by
  rcases h.getFid cid fid with ⟨r, hr, hs, ht⟩ | ⟨e, s', t', hs, ht, hsim⟩
  · rw [bind_ok hs, bind_ok ht]
    exact hfound r hr
  · rw [bind_error hs, bind_error ht]
    exact hsim

omit [DecidableEq V] in
/-- Both sides look the same path up; what follows may depend on the kind that is found. -/
theorem Sim.afterStat {α β : Type} (h : Sim cfg s t) (v : V) (p : Path)
    {f : Option VfsRecord → Handler V σ α} {g : Option VfsRecord → Handler V σ β}
    (hnone : Sim cfg (after (f none s)) (after (g none t)))
    (hsome : ∀ rec rec', (cfg.backend v).stat (s.disk v) p = .ok (some rec) →
      (cfg.backend v).stat (t.disk v) p = .ok (some rec') →
      (rec.type = .folder ↔ rec'.type = .folder) →
      Sim cfg (after (f (some rec) s)) (after (g (some rec') t))) :
    Sim cfg (after ((cfg.stat v p >>= f) s)) (after ((cfg.plain.stat v p >>= g) t)) := by
  rcases h.stat_cases v p with ⟨e, hs, ht⟩ | ⟨hs, ht⟩ | ⟨rec, rec', hs, ht, hkind⟩
  · rw [bind_error (stat_error cfg hs), bind_error (stat_error cfg.plain ht)]
    exact h
  · rw [bind_ok (stat_ok cfg hs), bind_ok (stat_ok cfg.plain ht)]
    exact hnone
  · rw [bind_ok (stat_ok cfg hs), bind_ok (stat_ok cfg.plain ht)]
    exact hsome rec rec' hs ht hkind

omit [DecidableEq V] in
/-- A handler that looks its fid up and only reads keeps the relation. -/
theorem Sim.reading {α : Type} (h : Sim cfg s t) (cid fid : ℕ) {f g : Ref → Handler V σ α}
    (hf : ∀ r, CoreFixed (f r)) (hg : ∀ r, CoreFixed (g r)) :
    Sim cfg (after ((cfg.getFid cid fid >>= f) s)) (after ((cfg.plain.getFid cid fid >>= g) t)) :=
  h.afterGetFid cid fid fun r _ => h.of_coreFixed (hf r) (hg r)

omit [DecidableEq V] in
theorem Sim.tgetattr (h : Sim cfg s t) (cid fid : ℕ) :
    Sim cfg (after (cfg.tgetattr cid fid s)) (after (cfg.plain.tgetattr cid fid t)) := by
  refine h.reading cid fid (fun r => ?_) fun r => ?_
  all_goals
    refine coreFixed_bind (coreFixed_fidAt r) fun f =>
      coreFixed_bind (coreFixed_stat _ _ _) fun found => ?_
    split
    · exact coreFixed_throw _
    · exact coreFixed_bind (coreFixed_sizeOf _ _ _) fun _ =>
        coreFixed_bind (coreFixed_qidOf _) fun _ => coreFixed_pure _

omit [DecidableEq V] in
theorem Sim.treadlink (h : Sim cfg s t) (cid fid : ℕ) :
    Sim cfg (after (cfg.treadlink cid fid s)) (after (cfg.plain.treadlink cid fid t)) := by
  refine h.reading cid fid (fun r => ?_) fun r => ?_
  all_goals
    refine coreFixed_bind (coreFixed_fidAt r) fun f =>
      coreFixed_bind (coreFixed_stat _ _ _) fun found => ?_
    split
    · exact coreFixed_throw _
    · split
      · exact coreFixed_pure _
      · exact coreFixed_throw _

omit [DecidableEq V] in
theorem Sim.tread (h : Sim cfg s t) (cid fid offset count : ℕ) :
    Sim cfg (after (cfg.tread cid fid offset count s))
      (after (cfg.plain.tread cid fid offset count t)) := by
  refine h.reading cid fid (fun r => ?_) fun r => ?_
  all_goals
    refine coreFixed_bind (coreFixed_fidAt r) fun f =>
      coreFixed_bind (coreFixed_stat _ _ _) fun found => ?_
    split
    · exact coreFixed_throw _
    · split
      · exact coreFixed_throw _
      · exact coreFixed_bind (coreFixed_readBytes _ _ _) fun _ => coreFixed_pure _

omit [DecidableEq V] in
theorem Sim.treaddir (h : Sim cfg s t) (cid fid offset count : ℕ) :
    Sim cfg (after (cfg.treaddir cid fid offset count s))
      (after (cfg.plain.treaddir cid fid offset count t)) := by
  have hreload : ∀ (k : Config V σ) (r : Ref) (f : Fid V),
      CoreFixed (Config.treaddir.reload k offset count r f) := by
    intro k r f
    exact coreFixed_bind (coreFixed_loadDirents _ _ _) fun _ =>
      coreFixed_bind (coreFixed_modifyFid _ _ fun _ => ⟨rfl, rfl, rfl, rfl⟩) fun _ =>
        coreFixed_pure _
  refine h.reading cid fid (fun r => ?_) fun r => ?_
  all_goals
    refine coreFixed_bind (coreFixed_fidAt r) fun f => ?_
    split
    · split
      · exact hreload _ _ _
      · exact coreFixed_pure _
    · exact hreload _ _ _

omit [DecidableEq V] in
theorem Sim.tattach (h : Sim cfg s t) (cid fid : ℕ) (aname : Utf16)
    (hadmits : attaches cfg s aname = true → idleFid s cid fid = true) :
    Sim cfg (after (cfg.tattach cid fid aname s)) (after (cfg.plain.tattach cid fid aname t)) := by
  have hattach : cfg.plain.resolveAttach aname = cfg.resolveAttach aname := rfl
  unfold Config.tattach
  rw [hattach]
  cases hresolve : cfg.resolveAttach aname with
  | error e => exact h
  | ok target =>
    obtain ⟨v, p⟩ := target
    change Sim cfg (after ((cfg.stat v p >>= _) s)) (after ((cfg.plain.stat v p >>= _) t))
    refine h.afterStat v p h fun rec rec' hstat _ _ => ?_
    have hattaches : attaches cfg s aname = true := by
      simp only [attaches, hresolve, hstat]
    have hidle : ∀ r, ref s cid fid = some r → (s.heap r).writer = none := by
      intro r hr
      simpa using onFid_spec (hadmits hattaches) hr
    obtain ⟨s', t', hs, ht, hsim⟩ := h.bindFid cid fid v p hidle
    simp only [bind_ok hs, bind_ok ht]
    exact hsim.of_coreFixed (coreFixed_bind (coreFixed_qidOf rec) fun _ => coreFixed_pure _)
      (coreFixed_bind (coreFixed_qidOf rec') fun _ => coreFixed_pure _)

omit [DecidableEq V] in
theorem qidOf_ok (rec : VfsRecord) (w : World V σ) :
    ∃ q w', (Config.qidOf rec : Handler V σ Qid) w = .ok q w' ∧ SameCore w w' := by
  have hcore := coreFixed_qidOf (V := V) (σ := σ) rec w
  cases hrun : (Config.qidOf rec : Handler V σ Qid) w with
  | ok q w' =>
    rw [hrun] at hcore
    exact ⟨q, w', rfl, hcore⟩
  | error e w' =>
    exfalso
    unfold Config.qidOf Config.qidPathFor at hrun
    cases hinode : w.qidPaths (rec.id.getD (pathString rec.path)) <;>
      simp [hinode, run_bind, run_get, run_pure, run_modify, -bind_pure_comp, -map_bind] at hrun

omit [DecidableEq V] in
/-- Both walks stop at the same component. -/
theorem Sim.walk (v : V) (names : List Utf16) : ∀ {s t : World V σ} (_ : Sim cfg s t) (first : Bool)
    (cur : Path),
    (∃ e s' t', cfg.walk v first cur names s = .error e s' ∧
        cfg.plain.walk v first cur names t = .error e t' ∧ Sim cfg s' t') ∨
      ∃ qids qids' last s' t', cfg.walk v first cur names s = .ok (qids, last) s' ∧
        cfg.plain.walk v first cur names t = .ok (qids', last) t' ∧
        qids.length = qids'.length ∧ Sim cfg s' t' ∧ SameCore s s' ∧
        (qids.length = names.length → arrives (cfg.backend v) (s.disk v) cur names = true) := by
  induction names with
  | nil =>
    intro s t h first cur
    exact Or.inr ⟨[], [], cur, s, t, rfl, rfl, rfl, h, SameCore.refl s, fun _ => rfl⟩
  | cons name names ih =>
    intro s t h first cur
    rw [Config.walk, Config.walk]
    cases hjoin : joinName cur name with
    | error e =>
      rw [bind_error (lift_error e s), bind_error (lift_error e t)]
      exact Or.inl ⟨e, s, t, rfl, rfl, h⟩
    | ok next =>
      rw [bind_ok (lift_ok next s), bind_ok (lift_ok next t)]
      rcases h.stat_cases v next with ⟨e, hs, ht⟩ | ⟨hs, ht⟩ | ⟨rec, rec', hs, ht, -⟩
      · rw [bind_error (stat_error cfg hs), bind_error (stat_error cfg.plain ht)]
        exact Or.inl ⟨e, s, t, rfl, rfl, h⟩
      · rw [bind_ok (stat_ok cfg hs), bind_ok (stat_ok cfg.plain ht)]
        cases first with
        | true => exact Or.inl ⟨_, s, t, rfl, rfl, h⟩
        | false =>
          exact Or.inr ⟨[], [], cur, s, t, rfl, rfl, rfl, h, SameCore.refl s,
            fun hlen => by simp at hlen⟩
      · rw [bind_ok (stat_ok cfg hs), bind_ok (stat_ok cfg.plain ht)]
        obtain ⟨q, s₁, hq, hcore⟩ := qidOf_ok rec s
        obtain ⟨q', t₁, hq', hcore'⟩ := qidOf_ok rec' t
        simp only [bind_ok hq, bind_ok hq']
        rcases ih (h.of_sameCore hcore hcore') false next with
          ⟨e, s', t', hs', ht', hsim⟩ |
            ⟨qids, qids', last, s', t', hs', ht', hlen, hsim, hcore₁, harrives⟩
        · rw [bind_error hs', bind_error ht']
          exact Or.inl ⟨e, s', t', rfl, rfl, hsim⟩
        · rw [bind_ok hs', bind_ok ht']
          rw [hcore.disk] at harrives
          refine Or.inr ⟨q :: qids, q' :: qids', last, s', t', rfl, rfl, by simp [hlen], hsim,
            hcore.trans hcore₁, fun hall => ?_⟩
          simp only [arrives, hjoin, hs]
          exact harrives (Nat.succ.inj hall)

omit [DecidableEq V] in
theorem ref_of_sameCore {w w' : World V σ} (h : SameCore w w') (cid fid : ℕ) :
    ref w' cid fid = ref w cid fid := by
  unfold ref
  rw [h.conns]

omit [DecidableEq V] in
theorem Sim.twalk (h : Sim cfg s t) (cid fid newfid : ℕ) (wnames : List Utf16)
    (hadmits : ∀ r, ref s cid fid = some r → arrives (cfg.backend (s.heap r).vfs)
      (s.disk (s.heap r).vfs) (s.heap r).path wnames = true → idleFid s cid newfid = true) :
    Sim cfg (after (cfg.twalk cid fid newfid wnames s))
      (after (cfg.plain.twalk cid fid newfid wnames t)) := by
  refine h.afterGetFid cid fid fun r hfid => ?_
  rw [bind_ok (fidAt_eq r s), bind_ok (fidAt_eq r t), ← h.path r, ← h.vfs r]
  rcases h.walk (s.heap r).vfs wnames true (s.heap r).path with
    ⟨e, s', t', hs, ht, hsim⟩ |
      ⟨qids, qids', last, s', t', hs, ht, hlen, hsim, hcore, harrives⟩
  · rw [bind_error hs, bind_error ht]
    exact hsim
  · rw [bind_ok hs, bind_ok ht]
    simp only [← hlen]
    by_cases hall : qids.length = wnames.length
    · have hidle : ∀ r, ref s' cid newfid = some r → (s'.heap r).writer = none := by
        intro r' hr
        rw [ref_of_sameCore hcore] at hr
        rw [hcore.writer]
        simpa using onFid_spec (hadmits r hfid (harrives hall)) hr
      obtain ⟨s'', t'', hbind, hbind', hsim'⟩ := hsim.bindFid cid newfid (s.heap r).vfs last hidle
      rw [if_pos hall, if_pos hall, bind_ok hbind, bind_ok hbind']
      exact hsim'
    · rw [if_neg hall, if_neg hall]
      exact hsim

variable (hv : ∀ v, (cfg.backend v).Lawful)

include hv in
/-- Both sides make the same call and then go on from related worlds. -/
theorem Sim.afterCall {α β : Type} (h : Sim cfg s t) (v : V) (c : Call)
    (hclear : ∀ p ∈ c.replaced, ∀ r q, WriterAt s r v q → ¬ p <+: q)
    {f : Unit → Handler V σ α} {g : Unit → Handler V σ β}
    (hnext : ∀ d d', Sim cfg (s.setDisk v d) (t.setDisk v d') →
      Sim cfg (after (f () (s.setDisk v d))) (after (g () (t.setDisk v d')))) :
    Sim cfg (after ((cfg.call v c >>= f) s)) (after ((cfg.plain.call v c >>= g) t)) := by
  rcases h.call hv v c hclear with ⟨e, e', hs, ht⟩ | ⟨d, d', hs, ht, hsim⟩
  · have hfail : cfg.call v c s = .error e s := call_error hs
    have hfail' : cfg.plain.call v c t = .error e' t := call_error ht
    rw [bind_error hfail, bind_error hfail']
    exact h
  · have hok : cfg.call v c s = .ok () (s.setDisk v d) := call_ok hs
    have hok' : cfg.plain.call v c t = .ok () (t.setDisk v d') := call_ok ht
    rw [bind_ok hok, bind_ok hok']
    exact hnext d d' hsim

theorem Sim.plain_closeWriter (h : Sim cfg s t) (r : Ref) :
    cfg.plain.closeWriter r t = .ok () t :=
  closeWriter_idle cfg.plain (h.plain r).1 (h.plain r).2

include hv in
/-- Both sides close the fid's writer, of which the plain side has none. -/
theorem Sim.afterClose {α β : Type} (h : Sim cfg s t) (r : Ref) {f : Unit → Handler V σ α}
    {g : Unit → Handler V σ β}
    (hnext : ∀ s', Sim cfg s' t → Closing s s' → (s'.heap r).writer = none →
      Sim cfg (after (f () s')) (after (g () t))) :
    Sim cfg (after ((cfg.closeWriter r >>= f) s)) (after ((cfg.plain.closeWriter r >>= g) t)) := by
  obtain ⟨s', hs, hsim, hgone, hother⟩ := h.closeWriter hv r
  rw [bind_ok hs, bind_ok (h.plain_closeWriter r)]
  exact hnext s' hsim (Closing.of_one hgone hother) hgone

include hv in
theorem Sim.make (h : Sim cfg s t) (cid dfid : ℕ) (name : Utf16) (c : Path → Call)
    (hclear : ∀ r path, ref s cid dfid = some r → joinName (s.heap r).path name = .ok path →
      ∀ p ∈ (c path).replaced, ∀ r' q, WriterAt s r' (s.heap r).vfs q → ¬ p <+: q) :
    Sim cfg (after (cfg.make cid dfid name c s)) (after (cfg.plain.make cid dfid name c t)) := by
  refine h.afterGetFid cid dfid fun r hr => ?_
  rw [bind_ok (fidAt_eq r s), bind_ok (fidAt_eq r t), ← h.path r, ← h.vfs r]
  cases hjoin : joinName (s.heap r).path name with
  | error e => exact h
  | ok path =>
    rw [bind_ok (lift_ok path s), bind_ok (lift_ok path t)]
    refine h.afterCall hv (s.heap r).vfs (c path) (hclear r path hr hjoin) fun d d' hsim => ?_
    exact hsim.of_coreFixed
      (coreFixed_bind (coreFixed_stat cfg _ _) fun _ =>
        coreFixed_bind (coreFixed_created _) fun _ => coreFixed_qidOf _)
      (coreFixed_bind (coreFixed_stat cfg.plain _ _) fun _ =>
        coreFixed_bind (coreFixed_created _) fun _ => coreFixed_qidOf _)

include hv in
theorem Sim.tunlinkat (h : Sim cfg s t) (cid dirfid : ℕ) (name : Utf16)
    (hclear : ∀ r path, ref s cid dirfid = some r → joinName (s.heap r).path name = .ok path →
      clearOf s (s.heap r).vfs path none = true) :
    Sim cfg (after (cfg.tunlinkat cid dirfid name s))
      (after (cfg.plain.tunlinkat cid dirfid name t)) := by
  refine h.afterGetFid cid dirfid fun r hr => ?_
  rw [bind_ok (fidAt_eq r s), bind_ok (fidAt_eq r t), ← h.path r, ← h.vfs r]
  cases hjoin : joinName (s.heap r).path name with
  | error e => exact h
  | ok path =>
    rw [bind_ok (lift_ok path s), bind_ok (lift_ok path t)]
    refine h.afterCall hv (s.heap r).vfs (.remove path) ?_ fun d d' hsim => hsim
    intro p hp r' q hat
    obtain rfl : p = path := by simpa [Call.replaced] using hp
    exact clearOf_spec h (hclear r p hr hjoin) (by simp) hat

include hv in
theorem Sim.trenameat (h : Sim cfg s t) (cid olddirfid : ℕ) (oldname : Utf16) (newdirfid : ℕ)
    (newname : Utf16)
    (hclear : ∀ od nd src dst, ref s cid olddirfid = some od → ref s cid newdirfid = some nd →
      joinName (s.heap od).path oldname = .ok src → joinName (s.heap nd).path newname = .ok dst →
      clearOf s (s.heap od).vfs src none = true ∧ clearOf s (s.heap od).vfs dst none = true) :
    Sim cfg (after (cfg.trenameat cid olddirfid oldname newdirfid newname s))
      (after (cfg.plain.trenameat cid olddirfid oldname newdirfid newname t)) := by
  refine h.afterGetFid cid olddirfid fun od hod => ?_
  rw [bind_ok (fidAt_eq od s), bind_ok (fidAt_eq od t)]
  refine h.afterGetFid cid newdirfid fun nd hnd => ?_
  rw [bind_ok (fidAt_eq nd s), bind_ok (fidAt_eq nd t), ← h.path od, ← h.vfs od, ← h.path nd]
  cases hsrc : joinName (s.heap od).path oldname with
  | error e => exact h
  | ok src =>
    rw [bind_ok (lift_ok src s), bind_ok (lift_ok src t)]
    cases hdst : joinName (s.heap nd).path newname with
    | error e => exact h
    | ok dst =>
      rw [bind_ok (lift_ok dst s), bind_ok (lift_ok dst t)]
      refine h.afterCall hv (s.heap od).vfs (.move src dst) ?_ fun d d' hsim => hsim
      obtain ⟨hclearSrc, hclearDst⟩ := hclear od nd src dst hod hnd hsrc hdst
      intro p hp r' q hat
      simp only [Call.replaced, List.mem_cons, List.not_mem_nil, or_false] at hp
      rcases hp with rfl | rfl
      · exact clearOf_spec h hclearSrc (by simp) hat
      · exact clearOf_spec h hclearDst (by simp) hat

omit [DecidableEq V] in
theorem Sim.ref_eq (h : Sim cfg s t) (cid fid : ℕ) : ref s cid fid = ref t cid fid := by
  unfold ref
  rw [h.conns]

include hv in
theorem Sim.tclunk (h : Sim cfg s t) (cid fid : ℕ) :
    Sim cfg (after (cfg.tclunk cid fid s)) (after (cfg.plain.tclunk cid fid t)) := by
  refine h.afterGetFid cid fid fun r hr => h.afterClose hv r fun s' hsim _ hgone => ?_
  obtain ⟨s'', t'', hs, ht, hsim'⟩ := hsim.dropFid cid fid fun r' hr' => by
    rw [hsim.ref_eq, ← h.ref_eq, hr] at hr'
    cases hr'
    exact hgone
  rw [bind_ok hs, bind_ok ht]
  exact hsim'

omit [DecidableEq V] in
/-- The writers that are left are other fids'. -/
theorem ne_of_writerAt {w : World V σ} {r r' : Ref} {v : V} {p : Path}
    (h : (w.heap r).writer = none) (hat : WriterAt w r' v p) : r' ≠ r := by
  rintro rfl
  obtain ⟨wr, hw, -⟩ := hat
  rw [h] at hw
  cases hw

include hv in
theorem Sim.tremove (h : Sim cfg s t) (cid fid : ℕ)
    (hclear : ∀ r, ref s cid fid = some r →
      clearOf s (s.heap r).vfs (s.heap r).path (some r) = true) :
    Sim cfg (after (cfg.tremove cid fid s)) (after (cfg.plain.tremove cid fid t)) := by
  refine h.afterGetFid cid fid fun r hr => h.afterClose hv r fun s' hsim hclosing hgone => ?_
  rw [bind_ok (fidAt_eq r s'), bind_ok (fidAt_eq r t), hsim.path r, hsim.vfs r]
  have hclear' := hclear r hr
  rw [h.path r, h.vfs r] at hclear'
  refine hsim.afterCall hv (t.heap r).vfs (.remove (t.heap r).path) ?_ fun d d' hsim' => ?_
  · intro p hp r' q hat
    obtain rfl : p = (t.heap r).path := by simpa [Call.replaced] using hp
    have hne := ne_of_writerAt hgone hat
    exact clearOf_spec h hclear' (by simpa using hne) (hclosing.writerAt hat)
  · obtain ⟨s'', t'', hs, ht, hsim''⟩ := hsim'.dropFid cid fid fun r' hr' => by
      have hr'' : ref t cid fid = some r' := (hsim'.ref_eq cid fid).symm.trans hr'
      rw [← h.ref_eq, hr] at hr''
      cases hr''
      exact hgone
    rw [bind_ok hs, bind_ok ht]
    exact hsim''

def World.setPath (w : World V σ) (r : Ref) (p : Path) : World V σ :=
  { w with heap := Function.update w.heap r { w.heap r with path := p } }

omit [DecidableEq V] in
/-- A fid without a writer goes to another path, on both sides. -/
theorem Sim.setPath (h : Sim cfg s t) {r : Ref} (hgone : (s.heap r).writer = none) (p : Path) :
    Sim cfg (s.setPath r p) (t.setPath r p) := by
  have hcell : ∀ (w : World V σ) r', ((w.setPath r p).heap r').vfs = (w.heap r').vfs ∧
      ((w.setPath r p).heap r').writer = (w.heap r').writer ∧
      ((w.setPath r p).heap r').writerPath = (w.heap r').writerPath := by
    intro w r'
    by_cases hr : r' = r
    · subst hr
      simp [World.setPath]
    · simp [World.setPath, Function.update_of_ne hr]
  have hwriterAt : ∀ r' v q, WriterAt (s.setPath r p) r' v q ↔ WriterAt s r' v q := by
    intro r' v q
    simp only [WriterAt, hcell s r']
  exact
    { conns := h.conns
      next := h.next
      path := fun r' => by
        by_cases hr : r' = r
        · subst hr
          simp [World.setPath]
        · simpa [World.setPath, Function.update_of_ne hr] using h.path r'
      vfs := fun r' => by
        rw [(hcell s r').1, (hcell t r').1]
        exact h.vfs r'
      plain := fun r' => by
        rw [(hcell t r').2.1, (hcell t r').2.2]
        exact h.plain r'
      unowned := h.unowned
      fresh := fun r' hr' => by
        rw [(hcell s r').2.1]
        exact h.fresh r' hr'
      allocated := h.allocated
      idle := fun r' hr' => by
        rw [(hcell s r').2.1] at hr'
        rw [(hcell s r').2.2]
        exact h.idle r' hr'
      owned := fun r' wr hw => by
        rw [(hcell s r').2.1] at hw
        have hne : r' ≠ r := by
          rintro rfl
          rw [hgone] at hw
          cases hw
        simpa [World.setPath, Function.update_of_ne hne] using h.owned r' wr hw
      owner := fun v q r' ho => (hwriterAt r' v q).mpr (h.owner v q r' ho)
      bound := fun r' wr hw => by
        rw [(hcell s r').2.1] at hw
        exact h.bound r' wr hw
      streams := fun r' wr hw => by
        rw [(hcell s r').2.1] at hw
        rw [(hcell s r').1]
        exact h.streams r' wr hw
      holds := fun r' wr hw => by
        rw [(hcell s r').2.1] at hw
        rw [(hcell s r').1]
        exact h.holds r' wr hw
      same := fun v q hq => h.same v q fun r' hr' => hq r' ((hwriterAt r' v q).mpr hr') }

include hv in
theorem Sim.trename (h : Sim cfg s t) (cid fid dfid : ℕ) (name : Utf16)
    (hclear : ∀ r d dst, ref s cid fid = some r → ref s cid dfid = some d →
      joinName (s.heap d).path name = .ok dst →
      clearOf s (s.heap r).vfs (s.heap r).path (some r) = true ∧
        clearOf s (s.heap r).vfs dst (some r) = true) :
    Sim cfg (after (cfg.trename cid fid dfid name s))
      (after (cfg.plain.trename cid fid dfid name t)) := by
  refine h.afterGetFid cid fid fun r hr => h.afterGetFid cid dfid fun d hd => ?_
  rw [bind_ok (fidAt_eq d s), bind_ok (fidAt_eq d t), ← h.path d]
  cases hdst : joinName (s.heap d).path name with
  | error e => exact h
  | ok dst =>
    rw [bind_ok (lift_ok dst s), bind_ok (lift_ok dst t)]
    refine h.afterClose hv r fun s' hsim hclosing hgone => ?_
    rw [bind_ok (fidAt_eq r s'), bind_ok (fidAt_eq r t), hsim.path r, hsim.vfs r]
    obtain ⟨hclearSrc, hclearDst⟩ := hclear r d dst hr hd hdst
    rw [h.vfs r] at hclearSrc hclearDst
    rw [h.path r] at hclearSrc
    refine hsim.afterCall hv (t.heap r).vfs (.move (t.heap r).path dst) ?_ fun e e' hsim' => ?_
    · intro p hp r' q hat
      have hne := ne_of_writerAt hgone hat
      simp only [Call.replaced, List.mem_cons, List.not_mem_nil, or_false] at hp
      rcases hp with rfl | rfl
      · exact clearOf_spec h hclearSrc (by simpa using hne) (hclosing.writerAt hat)
      · exact clearOf_spec h hclearDst (by simpa using hne) (hclosing.writerAt hat)
    · exact hsim'.setPath hgone dst

include hv in
theorem Sim.tfsync (h : Sim cfg s t) (cid fid : ℕ) :
    Sim cfg (after (cfg.tfsync cid fid s)) (after (cfg.plain.tfsync cid fid t)) := by
  refine h.afterGetFid cid fid fun r _ => ?_
  rw [bind_ok (fidAt_eq r s), bind_ok (fidAt_eq r t), (h.plain r).1]
  cases hw : (s.heap r).writer with
  | none => exact h
  | some wr =>
    obtain ⟨s', hsim, hrun⟩ := h.flush hv hw
    simp only [bind_ok hrun]
    exact hsim

include hv in
theorem Sim.closeAll (refs : List Ref) : ∀ {s : World V σ}, Sim cfg s t →
    ∃ s', cfg.closeAll refs s = .ok () s' ∧ Sim cfg s' t ∧ Closing s s' ∧
      ∀ r ∈ refs, (s'.heap r).writer = none := by
  induction refs with
  | nil =>
    intro s h
    exact ⟨s, rfl, h, Closing.refl s, by simp⟩
  | cons r refs ih =>
    intro s h
    obtain ⟨s₁, hclose, hsim₁, hgone, hother⟩ := h.closeWriter hv r
    obtain ⟨s₂, hrest, hsim₂, hclosing, hall⟩ := ih hsim₁
    have htry : (tryCatch (do cfg.closeWriter r; return none) fun e => return some e :
        Handler V σ (Option Fault)) s = .ok none s₁ := catch_ok (bind_ok hclose)
    refine ⟨s₂, ?_, hsim₂, ?_, ?_⟩
    · unfold Config.closeAll
      rw [bind_ok htry, bind_ok hrest]
      rfl
    · intro r'
      rcases hclosing r' with heq | hnone
      · rw [heq]
        exact Closing.of_one hgone hother r'
      · exact Or.inr hnone
    · intro r' hr'
      rcases List.mem_cons.mp hr' with rfl | hmem
      · rcases hclosing r' with heq | hnone
        · rw [heq]
          exact hgone
        · exact hnone
      · exact hall r' hmem

theorem Sim.plain_closeAll (h : Sim cfg s t) (refs : List Ref) :
    cfg.plain.closeAll refs t = .ok () t := by
  induction refs with
  | nil => rfl
  | cons r refs ih =>
    have htry : (tryCatch (do cfg.plain.closeWriter r; return none) fun e => return some e :
        Handler V σ (Option Fault)) t = .ok none t := catch_ok (bind_ok (h.plain_closeWriter r))
    unfold Config.closeAll
    rw [bind_ok htry, bind_ok ih]
    rfl

omit [DecidableEq V] in
theorem setConn_eq (cid : ℕ) (c : Conn) (w : World V σ) :
    (Config.setConn cid c : Handler V σ Unit) w =
    .ok () (w.setConns (w.conns.set cid c)) := rfl

include hv in
theorem Sim.tversion (h : Sim cfg s t) (cid msize : ℕ) (version : Utf16) :
    Sim cfg (after (cfg.tversion cid msize version s))
      (after (cfg.plain.tversion cid msize version t)) := by
  obtain ⟨c, s₁, t₁, hs, ht, hsim, hc, -, -, -, -⟩ := h.conn cid
  have hmax : cfg.plain.maxMsize = cfg.maxMsize := rfl
  unfold Config.tversion
  rw [bind_ok hs, bind_ok ht, hmax]
  generalize min (if msize = 0 then 8192 else msize) cfg.maxMsize = agreed
  have hagreed := hsim.setFids (k := ⟨agreed, c.fids⟩) hc
    (fun fid r wr hfid _ => ⟨fid, hfid⟩) (fun fid r hfid => hsim.allocated cid c fid r hc hfid)
  obtain ⟨s₂, hclose, hsim₂, -, hall⟩ := hagreed.closeAll hv c.fids.values
  have hc₂ : s₂.conns.get cid = some ⟨agreed, c.fids⟩ := by
    rw [hsim₂.conns]
    exact JsMap.get_set_self ..
  have hreset := hsim₂.setFids (k := ⟨agreed, JsMap.empty⟩) hc₂ ?_ ?_
  · rw [bind_ok (setConn_eq cid _ s₁), bind_ok (setConn_eq cid _ t₁), bind_ok hclose,
      bind_ok (hagreed.plain_closeAll c.fids.values), bind_ok (setConn_eq cid _ s₂),
      bind_ok (setConn_eq cid _ _)]
    exact hreset.of_sameCore ⟨rfl, rfl, rfl, rfl, fun _ => rfl, fun _ => rfl, fun _ => rfl,
      fun _ => rfl⟩ ⟨rfl, rfl, rfl, rfl, fun _ => rfl, fun _ => rfl, fun _ => rfl, fun _ => rfl⟩
  · intro fid r wr hfid hw
    rw [hall r (JsMap.mem_values_of_get hfid)] at hw
    cases hw
  · intro fid r hfid
    simp at hfid

omit [DecidableEq V] in
theorem readBytes_run (k : Config V σ) (v : V) (p : Path) (w : World V σ) :
    k.readBytes v p w = .ok ((k.backend v).readBytes (w.disk v) p) w := rfl

include hv in
omit [DecidableEq V] in
/-- Where no fid has a writer both sides read the same bytes. -/
theorem Sim.readBytes_eq (h : Sim cfg s t) {v : V} {p : Path} (hfree : ∀ r, ¬ WriterAt s r v p) :
    (cfg.backend v).readBytes (s.disk v) p = (cfg.plain.backend v).readBytes (t.disk v) p :=
  Backend.readBytes_congr (hv v) (h.same v p hfree)

include hv in
omit [DecidableEq V] in
/-- The plain side reads what the fid's writer holds. -/
theorem Sim.readBytes_writer (h : Sim cfg s t) {r : Ref} {wr : Writer}
    (hw : (s.heap r).writer = some wr) :
    (cfg.plain.backend (s.heap r).vfs).readBytes (t.disk (s.heap r).vfs) (s.heap r).path =
      wr.bytes := by
  obtain ⟨n, hlook, -, hbytes, -⟩ := (h.holds r wr hw).shows
  rw [(h.owned r wr hw).1] at hlook
  rw [← hbytes]
  exact Backend.readBytes_of_look (hv _) hlook

include hv in
omit [DecidableEq V] in
/-- Nothing lies below a file, so no writer does. -/
theorem Sim.no_writer_below_leaf (h : Sim cfg s t) {v : V} {p q : Path} {r : Ref}
    (hleaf : (cfg.backend v).isLeaf (t.disk v) p = true) (hat : WriterAt s r v q) (hq : q ≠ p) :
    ¬ p <+: q := by
  intro hprefix
  obtain ⟨n, hlook, -⟩ := (Backend.isLeaf_iff _ _).mp (h.leaf_plain hat).2
  obtain ⟨m, hlook', hm⟩ := (Backend.isLeaf_iff _ _).mp hleaf
  have hfolder := (hv v).below_folder (t.disk v) p q n hprefix (Ne.symm hq) hlook
  rw [hlook'] at hfolder
  cases hfolder
  cases hm

omit [DecidableEq V] in
/-- No fid has a writer at the path, and only other fids have writers below it. -/
theorem clear_write {w : World V σ} {v : V} {p : Path} {bytes : List UInt8}
    (hfree : ∀ r, ¬ WriterAt w r v p) (hbelow : ∀ r q, WriterAt w r v q → q ≠ p → ¬ p <+: q) :
    ∀ p' ∈ (Call.write p (.file bytes)).replaced, ∀ r q, WriterAt w r v q → ¬ p' <+: q := by
  intro p' hp' r q hat
  obtain rfl : p' = p := by simpa [Call.replaced] using hp'
  by_cases hq : q = p'
  · subst hq
    exact absurd hat (hfree r)
  · exact hbelow r q hat hq

include hv in
theorem Sim.resize (h : Sim cfg s t) (r : Ref) (size : ℕ)
    (hclear : clearOf s (s.heap r).vfs (s.heap r).path (some r) = true) :
    Sim cfg (after (Config.tsetattr.resize cfg r (s.heap r) size s))
      (after (Config.tsetattr.resize cfg.plain r (t.heap r) size t)) := by
  refine h.afterClose hv r fun s' hsim hclosing hgone => ?_
  have hfree : ∀ r' q, WriterAt s' r' (s.heap r).vfs q → ¬ (s.heap r).path <+: q := by
    intro r' q hat
    have hne := ne_of_writerAt hgone hat
    exact clearOf_spec h hclear (by simpa using hne) (hclosing.writerAt hat)
  rw [← h.path r, ← h.vfs r]
  refine hsim.afterStat _ _ hsim fun rec rec' hs ht hkind => ?_
  simp only [hkind]
  split
  · exact hsim
  · have hnone : ∀ r', ¬ WriterAt s' r' (s.heap r).vfs (s.heap r).path :=
      fun r' hat => hfree r' _ hat (List.prefix_refl _)
    rw [bind_ok (readBytes_run cfg _ _ s'), bind_ok (readBytes_run cfg.plain _ _ t),
      hsim.readBytes_eq hv hnone]
    refine hsim.afterCall hv _ _ ?_ fun d d' hsim' => hsim'
    exact clear_write hnone fun r' q hat _ => hfree r' q hat

theorem resized_of_le {bytes : List UInt8} {size : ℕ} (h : size ≤ bytes.length) :
    Config.resized bytes size = bytes.take size := by
  have hzero : size - bytes.length = 0 := by omega
  simp [Config.resized, hzero]

include hv in
theorem Sim.tsetattr (h : Sim cfg s t) (cid fid valid size : ℕ)
    (hclear : valid &&& setattrSize ≠ 0 → ∀ r, ref s cid fid = some r →
      clearOf s (s.heap r).vfs (s.heap r).path (some r) = true) :
    Sim cfg (after (cfg.tsetattr cid fid valid size s))
      (after (cfg.plain.tsetattr cid fid valid size t)) := by
  refine h.afterGetFid cid fid fun r hr => ?_
  by_cases hvalid : valid &&& setattrSize = 0
  · rw [if_pos hvalid, if_pos hvalid]
    exact h
  · rw [if_neg hvalid, if_neg hvalid, bind_ok (fidAt_eq r s), bind_ok (fidAt_eq r t),
      (h.plain r).1]
    cases hw : (s.heap r).writer with
    | none => exact h.resize hv r size (hclear hvalid r hr)
    | some wr =>
      by_cases hsize : size ≤ wr.bytes.length
      · simp only [hsize, if_true]
        obtain ⟨s', t', hsim, hs, ht⟩ := h.replaceBytes hv hw (wr.bytes.take size)
        have hat : WriterAt s r (s.heap r).vfs (s.heap r).path :=
          ⟨wr, hw, rfl, (h.owned r wr hw).1⟩
        obtain ⟨rec, hstat, hkind⟩ := Backend.stat_of_isLeaf (h.leaf_plain hat).2
        have hplain : Config.tsetattr.resize cfg.plain r (t.heap r) size t = .ok .rsetattr t' := by
          unfold Config.tsetattr.resize
          rw [bind_ok (h.plain_closeWriter r), ← h.path r, ← h.vfs r,
            bind_ok (stat_ok cfg.plain hstat)]
          simp only [hkind, if_false]
          rw [bind_ok (readBytes_run cfg.plain _ _ t), h.readBytes_writer hv hw,
            resized_of_le hsize, bind_ok ht]
          rfl
        rw [bind_ok hs, hplain]
        exact hsim
      · simp only [hsize, if_false]
        exact h.resize hv r size (hclear hvalid r hr)

theorem Sim.plain_openWriter (cfg : Config V σ) (r : Ref) (append : Bool) (t : World V σ) :
    cfg.plain.openWriter r append t = .ok false t := rfl

theorem openWriter_unoffered {r : Ref} (append : Bool)
    (h : cfg.openWrite (s.heap r).vfs = false) : cfg.openWriter r append s = .ok false s := by
  unfold Config.openWriter
  rw [bind_ok (fidAt_eq r s), h]
  rfl

omit [DecidableEq V] in
/-- A backend without `openWrite` has no writers. -/
theorem Sim.no_writer_unoffered (h : Sim cfg s t) {v : V} (hoffers : cfg.openWrite v = false)
    (r : Ref) (p : Path) : ¬ WriterAt s r v p := by
  rintro ⟨wr, hw, rfl, -⟩
  rw [h.streams r wr hw] at hoffers
  cases hoffers

include hv in
/-- Emptying the fid's file, through a new writer or at once. -/
theorem Sim.emptyFile (h : Sim cfg s t) {r : Ref} (hr : Bound s r)
    (hshown : (s.heap r).path ≠ [] ∨
      (cfg.backend (s.heap r).vfs).isLeaf (t.disk (s.heap r).vfs) (s.heap r).path = true)
    (hbelow : ∀ r' q, r' ≠ r → WriterAt s r' (s.heap r).vfs q → q ≠ (s.heap r).path →
      ¬ (s.heap r).path <+: q) (v : V) (p : Path) (hvfs : (s.heap r).vfs = v)
    (hp : (s.heap r).path = p) :
    ∃ s' t', Sim cfg s' t' ∧
      ((cfg.emptyFile r v p s = .ok () s' ∧ cfg.plain.emptyFile r v p t = .ok () t') ∨
        ∃ e e', cfg.emptyFile r v p s = .error e s' ∧
          cfg.plain.emptyFile r v p t = .error e' t') := by
  subst hvfs hp
  unfold Config.emptyFile
  rw [bind_ok (Sim.plain_openWriter cfg r false t)]
  cases hoffers : cfg.openWrite (s.heap r).vfs with
  | true =>
    obtain ⟨s', t', hsim, ⟨hs, ht⟩ | ⟨e, e', hs, ht⟩⟩ :=
      h.openWriter_truncate hv hr hoffers hshown hbelow
    · exact ⟨s', t', hsim, Or.inl ⟨bind_ok hs, ht⟩⟩
    · exact ⟨s', t', hsim, Or.inr ⟨e, e', bind_error hs, ht⟩⟩
  | false =>
    rw [bind_ok (openWriter_unoffered false hoffers)]
    rcases h.call hv (s.heap r).vfs (.write (s.heap r).path (.file []))
        (fun _ _ r' q hat => absurd hat (h.no_writer_unoffered hoffers r' q)) with
      ⟨e, e', hs, ht⟩ | ⟨d, d', hs, ht, hsim⟩
    · exact ⟨s, t, h, Or.inr ⟨e, e', call_error hs, call_error ht⟩⟩
    · exact ⟨_, _, hsim, Or.inl ⟨call_ok hs, call_ok ht⟩⟩

include hv in
theorem Sim.tlopen (h : Sim cfg s t) (cid fid flags : ℕ) :
    Sim cfg (after (cfg.tlopen cid fid flags s)) (after (cfg.plain.tlopen cid fid flags t)) := by
  refine h.afterGetFid cid fid fun r hr => ?_
  have hbound := bound_of_ref hr
  rw [bind_ok (fidAt_eq r s), bind_ok (fidAt_eq r t), ← h.path r, ← h.vfs r]
  refine h.afterStat _ _ h fun rec rec' hs ht hkind => ?_
  simp only [hkind]
  by_cases hfolder : rec'.type = .folder
  · simp only [hfolder, if_true]
    refine h.of_coreFixed ?_ ?_ <;>
      exact coreFixed_bind (coreFixed_modifyFid _ _ fun _ => ⟨rfl, rfl, rfl, rfl⟩) fun _ =>
        coreFixed_bind (coreFixed_loadDirents _ _ _) fun _ =>
          coreFixed_bind (coreFixed_modifyFid _ _ fun _ => ⟨rfl, rfl, rfl, rfl⟩) fun _ =>
            coreFixed_bind (coreFixed_qidOf _) fun _ => coreFixed_pure _
  · simp only [hfolder, if_false]
    have hleaf : (cfg.backend (s.heap r).vfs).isLeaf (t.disk (s.heap r).vfs) (s.heap r).path =
        true := by
      rw [Backend.isLeaf_of_stat ht]
      simpa using hfolder
    -- whatever the opening does, the rest only reads
    have hrest : ∀ {x y : Handler V σ Unit} {s' t' : World V σ}, x s = .ok () s' →
        y t = .ok () t' → Sim cfg s' t' →
        Sim cfg
          (after ((do
            x
            Config.modifyFid r fun f => { f with opened := true, dirents := none }
            return Body.rlopen (← Config.qidOf rec) 0 : Handler V σ Body) s))
          (after ((do
            y
            Config.modifyFid r fun f => { f with opened := true, dirents := none }
            return Body.rlopen (← Config.qidOf rec') 0 : Handler V σ Body) t)) := by
      intro x y s' t' hx hy hsim
      rw [bind_ok hx, bind_ok hy]
      refine hsim.of_coreFixed ?_ ?_ <;>
        exact coreFixed_bind (coreFixed_modifyFid _ _ fun _ => ⟨rfl, rfl, rfl, rfl⟩) fun _ =>
          coreFixed_bind (coreFixed_qidOf _) fun _ => coreFixed_pure _
    by_cases hflags : flags &&& oTrunc = 0
    · simp only [hflags, if_true]
      have hplain : (discard (cfg.plain.openWriter r true) : Handler V σ Unit) t = .ok () t := rfl
      cases hoffers : cfg.openWrite (s.heap r).vfs with
      | true =>
        obtain ⟨s', hsim, -, ⟨wr, hopen, -⟩ | ⟨e, hopen, -⟩⟩ :=
          h.openWriter_append hv hbound hoffers
        · have hdiscard : (discard (cfg.openWriter r true) : Handler V σ Unit) s = .ok () s' :=
            bind_ok hopen
          exact hrest (catch_ok hdiscard) (catch_ok hplain) hsim
        · have hdiscard : (discard (cfg.openWriter r true) : Handler V σ Unit) s = .error e s' :=
            bind_error hopen
          exact hrest (catch_error hdiscard) (catch_ok hplain) hsim
      | false =>
        have hdiscard : (discard (cfg.openWriter r true) : Handler V σ Unit) s = .ok () s :=
          bind_ok (openWriter_unoffered true hoffers)
        exact hrest (catch_ok hdiscard) (catch_ok hplain) h
    · simp only [hflags, if_false]
      obtain ⟨s', t', hsim, ⟨hs', ht'⟩ | ⟨e, e', hs', ht'⟩⟩ := h.emptyFile hv hbound (Or.inr hleaf)
        (fun r' q _ hat hq => h.no_writer_below_leaf hv hleaf hat hq) _ _ rfl rfl
      · exact hrest (catch_ok hs') (catch_ok ht') hsim
      · exact hrest (catch_error hs') (catch_error ht') hsim

include hv in
theorem Sim.tlcreate (h : Sim cfg s t) (cid fid : ℕ) (name : Utf16)
    (hclear : ∀ r p, ref s cid fid = some r → joinName (s.heap r).path name = .ok p →
      p ≠ [] ∧ clearBelow s (s.heap r).vfs p (some r) = true) :
    Sim cfg (after (cfg.tlcreate cid fid name s)) (after (cfg.plain.tlcreate cid fid name t)) := by
  refine h.afterGetFid cid fid fun r hr => ?_
  rw [bind_ok (fidAt_eq r s), bind_ok (fidAt_eq r t), ← h.path r, ← h.vfs r]
  cases hjoin : joinName (s.heap r).path name with
  | error e => exact h
  | ok p =>
    rw [bind_ok (lift_ok p s), bind_ok (lift_ok p t)]
    obtain ⟨hroot, hbelow⟩ := hclear r p hr hjoin
    refine h.afterClose hv r fun s₁ hsim hclosing hgone => ?_
    have hpath : (Config.modifyFid r fun f => { f with path := p } : Handler V σ Unit) s₁ =
        .ok () (s₁.setPath r p) := rfl
    have hpath' : (Config.modifyFid r fun f => { f with path := p } : Handler V σ Unit) t =
        .ok () (t.setPath r p) := rfl
    rw [bind_ok hpath, bind_ok hpath']
    have hsim₂ := hsim.setPath hgone p
    have hcell : ((s₁.setPath r p).heap r).path = p ∧
        ((s₁.setPath r p).heap r).vfs = (s.heap r).vfs := by
      refine ⟨by simp [World.setPath], ?_⟩
      simp only [World.setPath, Function.update_self]
      exact (hsim.vfs r).trans (h.vfs r).symm
    have hbound : Bound (s₁.setPath r p) r :=
      h.bound_of_conns hsim (bound_of_ref hr)
    have hother : ∀ r' q, r' ≠ r → WriterAt (s₁.setPath r p) r' ((s₁.setPath r p).heap r).vfs q →
        q ≠ ((s₁.setPath r p).heap r).path → ¬ ((s₁.setPath r p).heap r).path <+: q := by
      intro r' q hne hat hq
      rw [hcell.1] at hq ⊢
      rw [hcell.2] at hat
      have hat₁ : WriterAt s₁ r' (s.heap r).vfs q :=
        (writerAt_congr (Function.update_of_ne hne ..) _ _).mp hat
      exact clearBelow_spec h hbelow (by simpa using hne) (hclosing.writerAt hat₁) hq
    have hrest : ∀ k : Config V σ, ∀ v, CoreFixed (do
        let found ← k.stat v p
        Config.modifyFid r fun f => { f with opened := true, dirents := none }
        return Body.rlcreate (← Config.qidOf (← Config.created found)) 0 : Handler V σ Body) :=
      fun k v => coreFixed_bind (coreFixed_stat k v p) fun _ =>
        coreFixed_bind (coreFixed_modifyFid _ _ fun _ => ⟨rfl, rfl, rfl, rfl⟩) fun _ =>
          coreFixed_bind (coreFixed_created _) fun _ =>
            coreFixed_bind (coreFixed_qidOf _) fun _ => coreFixed_pure _
    obtain ⟨s', t', hsim', ⟨hs, ht⟩ | ⟨e, e', hs, ht⟩⟩ := hsim₂.emptyFile hv hbound
      (Or.inl (by rw [hcell.1]; exact hroot)) hother (s.heap r).vfs p hcell.2 hcell.1
    · rw [bind_ok hs, bind_ok ht]
      exact hsim'.of_coreFixed (hrest cfg _) (hrest cfg.plain _)
    · rw [bind_error hs, bind_error ht]
      exact hsim'

omit [DecidableEq V] in
theorem sizeOf_run (cfg : Config V σ) (v : V) (rec : VfsRecord) (w : World V σ) :
    ∃ n, cfg.sizeOf v rec w = .ok n w ∧ (rec.type = .folder → n = 0) := by
  unfold Config.sizeOf
  rcases hkind : rec.type
  · exact ⟨0, rfl, fun _ => rfl⟩
  · exact ⟨_, rfl, by simp⟩
  · cases hsize : rec.size with
    | some n => exact ⟨n, rfl, by simp⟩
    | none => exact ⟨_, rfl, by simp⟩

theorem overlay_at_end (cur data : List UInt8) :
    Config.overlay cur cur.length data = cur ++ data := by
  have hdrop : cur.drop (cur.length + data.length) = [] := List.drop_eq_nil_of_le (by omega)
  simp [Config.overlay, resized_of_le (le_refl cur.length), hdrop]

include hv in
/-- Both sides read the file and write it back; only other files' writers are open. -/
theorem Sim.readModifyWrite (h : Sim cfg s t) (r : Ref) (offset : ℕ) (data : List UInt8)
    (f : Fid V) (hf : f.path = (t.heap r).path ∧ f.vfs = (t.heap r).vfs)
    (hfree : ∀ r', r' ≠ r → ¬ WriterAt s r' (t.heap r).vfs (t.heap r).path)
    (hbelow : ∀ r' q, r' ≠ r → WriterAt s r' (t.heap r).vfs q → q ≠ (t.heap r).path →
      ¬ (t.heap r).path <+: q) :
    Sim cfg (after (Config.twrite.readModifyWrite cfg offset data r f s))
      (after (Config.twrite.readModifyWrite cfg.plain offset data r (t.heap r) t)) := by
  refine h.afterClose hv r fun s' hsim hclosing hgone => ?_
  have hnone : ∀ r', ¬ WriterAt s' r' (t.heap r).vfs (t.heap r).path := fun r' hat =>
    hfree r' (ne_of_writerAt hgone hat) (hclosing.writerAt hat)
  rw [hf.1, hf.2, bind_ok (readBytes_run cfg _ _ s'), bind_ok (readBytes_run cfg.plain _ _ t),
    hsim.readBytes_eq hv hnone]
  refine hsim.afterCall hv _ _ ?_ fun d d' hsim' => hsim'
  exact clear_write hnone fun r' q hat hq =>
    hbelow r' q (ne_of_writerAt hgone hat) (hclosing.writerAt hat) hq

include hv in
/-- Reopening may give the fid a writer; when it throws, the plain write is refused. -/
theorem Sim.reopen (h : Sim cfg s t) {r : Ref} (hr : Bound s r) (offset : ℕ)
    (hleaf : offset = 0 → cfg.openWrite (t.heap r).vfs = true →
      (cfg.backend (t.heap r).vfs).isLeaf (t.disk (t.heap r).vfs) (t.heap r).path = true) :
    ∃ s', Sim cfg s' t ∧
      (∀ r', r' ≠ r → s'.heap r' = s.heap r' ∨ (s'.heap r').writer = none) ∧
      (Config.twrite.reopen cfg offset r (s.heap r) s = .ok () s' ∨
        ∃ e, Config.twrite.reopen cfg offset r (s.heap r) s = .error e s' ∧
          (cfg.backend (t.heap r).vfs).isWritablePath (t.heap r).path = false) := by
  unfold Config.twrite.reopen
  by_cases hopen : (s.heap r).writer.isNone = true ∧ cfg.openWrite (s.heap r).vfs = true
  · rw [if_pos hopen]
    obtain ⟨found, hstat⟩ := (hv (s.heap r).vfs).stat_found (s.disk (s.heap r).vfs) (s.heap r).path
    -- the size looked up is 0 unless the path is a file
    have hsize : ∃ n, Config.twrite.sizeOrZero cfg (s.heap r).vfs found s = .ok n s ∧
        ((cfg.backend (s.heap r).vfs).isLeaf (s.disk (s.heap r).vfs) (s.heap r).path = false →
          n = 0) := by
      cases found with
      | none => exact ⟨0, rfl, fun _ => rfl⟩
      | some rec =>
        obtain ⟨n, hn, hzero⟩ := sizeOf_run cfg (s.heap r).vfs rec s
        refine ⟨n, hn, fun hnot => hzero ?_⟩
        rw [Backend.isLeaf_of_stat hstat] at hnot
        simpa using hnot
    obtain ⟨n, hn, hzero⟩ := hsize
    rw [bind_ok (stat_ok cfg hstat), bind_ok hn]
    by_cases hoffset : offset = n
    · rw [if_pos hoffset]
      obtain ⟨s', hsim, hother, ⟨wr, hrun, -⟩ | ⟨e, hrun, -, hwhy⟩⟩ :=
        h.openWriter_append hv hr hopen.2
      · exact ⟨s', hsim, hother, Or.inl (bind_ok hrun)⟩
      · refine ⟨s', hsim, hother, Or.inr ⟨e, bind_error hrun, ?_⟩⟩
        rw [h.path r, h.vfs r] at hwhy
        rcases hwhy with hrefused | hnot
        · exact hrefused
        · rw [hsim.isLeaf_eq] at hnot
          have hnot' := hnot
          rw [← h.path r, ← h.vfs r, ← h.isLeaf_eq] at hnot'
          rw [hleaf (hoffset.trans (hzero hnot')) (h.vfs r ▸ hopen.2)] at hnot
          cases hnot
    · rw [if_neg hoffset]
      exact ⟨s, h, fun r' _ => Or.inl rfl, Or.inl rfl⟩
  · rw [if_neg hopen]
    exact ⟨s, h, fun r' _ => Or.inl rfl, Or.inl rfl⟩

include hv in
theorem Sim.twrite (h : Sim cfg s t) (cid fid offset : ℕ) (data : List UInt8)
    (hadmits : ∀ r, ref s cid fid = some r →
      clearBelow s (s.heap r).vfs (s.heap r).path (some r) = true ∧
        (offset = 0 → cfg.openWrite (s.heap r).vfs = true →
          (cfg.backend (s.heap r).vfs).isLeaf (s.disk (s.heap r).vfs) (s.heap r).path = true)) :
    Sim cfg (after (cfg.twrite cid fid offset data s))
      (after (cfg.plain.twrite cid fid offset data t)) := by
  refine h.afterGetFid cid fid fun r hr => ?_
  obtain ⟨hclear, hleaf⟩ := hadmits r hr
  rw [h.isLeaf_eq, h.path r, h.vfs r] at hleaf
  rw [h.path r, h.vfs r] at hclear
  obtain ⟨s₁, hconflict, hsim₁, hclosing₁, hcell₁, hfree₁⟩ := h.closeConflictingWriter hv r
  rw [h.path r, h.vfs r] at hfree₁
  have hconflict' : cfg.plain.closeConflictingWriter r t = .ok () t := by
    change (match t.owners ((t.heap r).vfs, (t.heap r).path) with
      | none => pure ()
      | some owner => if owner ≠ r then cfg.plain.closeWriter owner else pure () :
        Handler V σ Unit) t = _
    rw [h.unowned]
    rfl
  have hreopen' : Config.twrite.reopen cfg.plain offset r (t.heap r) t = .ok () t := by
    unfold Config.twrite.reopen
    rw [if_neg (by simp [Config.plain])]
    rfl
  rw [bind_ok hconflict, bind_ok hconflict', bind_ok (fidAt_eq r s₁), bind_ok (fidAt_eq r t),
    bind_ok hreopen']
  have hbound : Bound s₁ r := h.bound_of_conns hsim₁ (bound_of_ref hr)
  obtain ⟨s₂, hsim₂, hother₂, hrun | ⟨e, hrun, hrefused⟩⟩ := hsim₁.reopen hv hbound offset hleaf
  · have hwriters : ∀ r' v p, r' ≠ r → WriterAt s₂ r' v p → WriterAt s₁ r' v p := by
      intro r' v p hne hat
      rcases hother₂ r' hne with heq | hgone
      · exact (writerAt_congr heq v p).mp hat
      · obtain ⟨wr, hw, -⟩ := hat
        rw [hgone] at hw
        cases hw
    have hrmw := hsim₂.readModifyWrite hv r offset data (s₁.heap r) ⟨hsim₁.path r, hsim₁.vfs r⟩
      (fun r' hne hat => hfree₁ r' hne (hwriters r' _ _ hne hat))
      (fun r' q hne hat hq => clearBelow_spec h hclear (by simpa using hne)
        (hclosing₁.writerAt (hwriters r' _ _ hne hat)) hq)
    rw [bind_ok hrun, bind_ok (fidAt_eq r s₂)]
    cases hw : (s₂.heap r).writer with
    | none =>
      rw [bind_ok (fidAt_eq r t), (h.plain r).1]
      exact hrmw
    | some wr =>
      rw [bind_ok (fidAt_eq r t), (h.plain r).1]
      by_cases hend : offset = wr.bytes.length
      · simp only [hend, if_true]
        obtain ⟨s₃, t₃, hsim₃, hs₃, ht₃⟩ := hsim₂.replaceBytes hv hw (wr.bytes ++ data)
        rw [(hsim₂.vfs r).trans (hsim₁.vfs r).symm] at hs₃
        rw [hsim₂.vfs r, hsim₂.path r] at ht₃
        have hread := hsim₂.readBytes_writer hv hw
        rw [hsim₂.vfs r, hsim₂.path r] at hread
        have hwrite : Config.twrite.readModifyWrite cfg.plain wr.bytes.length data r (t.heap r) t =
            .ok (.rwrite data.length) t₃ := by
          unfold Config.twrite.readModifyWrite
          rw [bind_ok (h.plain_closeWriter r), bind_ok (readBytes_run cfg.plain _ _ t), hread,
            overlay_at_end, bind_ok ht₃]
          rfl
        rw [bind_ok hs₃, hwrite]
        exact hsim₃
      · simp only [hend, if_false]
        exact hrmw
  · rw [bind_error hrun, bind_ok (fidAt_eq r t), (h.plain r).1]
    have hwrite : Sim cfg s₂ (after (Config.twrite.readModifyWrite cfg.plain offset data r
        (t.heap r) t)) := by
      unfold Config.twrite.readModifyWrite
      rw [bind_ok (h.plain_closeWriter r), bind_ok (readBytes_run cfg.plain _ _ t)]
      obtain ⟨e', hrefused'⟩ := (hv (t.heap r).vfs).write_refused (t.disk (t.heap r).vfs)
        (t.heap r).path (Config.overlay ((cfg.plain.backend (t.heap r).vfs).readBytes
          (t.disk (t.heap r).vfs) (t.heap r).path) offset data) hrefused
      have hcall : cfg.plain.writeBytes (t.heap r).vfs (t.heap r).path (Config.overlay
          ((cfg.plain.backend (t.heap r).vfs).readBytes (t.disk (t.heap r).vfs) (t.heap r).path)
          offset data) t = .error e' t := call_error hrefused'
      rw [bind_error hcall]
      exact hsim₂
    exact hwrite

include hv in
/-- Every admitted request keeps the two worlds related. -/
theorem Sim.dispatch (h : Sim cfg s t) (cid : ℕ) (body : Body)
    (hadmits : admits cfg s cid body = true) :
    Sim cfg (after (cfg.dispatch cid body s)) (after (cfg.plain.dispatch cid body t)) := by
  cases body with
  | tversion msize version => exact h.tversion hv cid msize version
  | tattach fid afid uname aname nUname =>
    exact h.tattach cid fid aname fun hattaches => by simpa [admits, hattaches] using hadmits
  | twalk fid newfid wnames =>
    refine h.twalk cid fid newfid wnames fun r hr harrives => ?_
    simpa [harrives] using onFid_spec hadmits hr
  | tsetattr fid valid mode uid gid size _ _ _ _ =>
    refine h.tsetattr hv cid fid valid size fun hvalid r hr => ?_
    have hfid : onFid s cid fid (fun r => clearOf s (s.heap r).vfs (s.heap r).path (some r)) =
        true := by simpa [admits, hvalid] using hadmits
    exact onFid_spec hfid hr
  | tlopen fid flags => exact h.tlopen hv cid fid flags
  | tlcreate fid name flags mode gid =>
    refine h.tlcreate hv cid fid name fun r p hr hp => ?_
    have hname := onName_spec (onFid_spec hadmits hr) hp
    simpa using hname
  | tmkdir dfid name mode gid =>
    change Sim cfg (after ((cfg.make cid dfid name Call.mkdir >>= fun q => pure (Body.rmkdir q)) s))
      (after ((cfg.plain.make cid dfid name Call.mkdir >>= fun q => pure (Body.rmkdir q)) t))
    rw [after_map, after_map]
    exact h.make hv cid dfid name Call.mkdir fun _ _ _ _ p hp => by simp [Call.replaced] at hp
  | tsymlink fid name symtgt gid =>
    change Sim cfg
      (after ((cfg.make cid fid name (.write · (.alias symtgt)) >>= fun q =>
        pure (Body.rsymlink q)) s))
      (after ((cfg.plain.make cid fid name (.write · (.alias symtgt)) >>=
        fun q => pure (Body.rsymlink q)) t))
    rw [after_map, after_map]
    refine h.make hv cid fid name _ fun r path hr hpath p hp r' q hat => ?_
    obtain rfl : p = path := by simpa [Call.replaced] using hp
    exact clearOf_spec h (onName_spec (onFid_spec hadmits hr) hpath) (by simp) hat
  | twrite fid offset data =>
    refine h.twrite hv cid fid offset data fun r hr => ?_
    have hfid := onFid_spec hadmits hr
    simp only [Bool.and_eq_true, Bool.or_eq_true, decide_eq_true_eq, Bool.not_eq_true'] at hfid
    obtain ⟨hclear, hstream⟩ := hfid
    refine ⟨hclear, fun hoffset hoffers => ?_⟩
    simpa [hoffset, hoffers] using hstream
  | tclunk fid => exact h.tclunk hv cid fid
  | tremove fid => exact h.tremove hv cid fid fun r hr => onFid_spec hadmits hr
  | tunlinkat dirfid name flags =>
    exact h.tunlinkat hv cid dirfid name fun r path hr hpath =>
      onName_spec (onFid_spec hadmits hr) hpath
  | trename fid dfid name =>
    refine h.trename hv cid fid dfid name fun r d dst hr hd hdst => ?_
    have hboth := onName_spec (onFid_spec (onFid_spec hadmits hr) hd) hdst
    simpa using hboth
  | trenameat olddirfid oldname newdirfid newname =>
    refine h.trenameat hv cid olddirfid oldname newdirfid newname
      fun od nd src dst hod hnd hsrc hdst => ?_
    have hboth := onName_spec (onName_spec (onFid_spec (onFid_spec hadmits hod) hnd) hsrc) hdst
    simpa using hboth
  | tfsync fid datasync => exact h.tfsync hv cid fid
  | tgetattr fid requestMask => exact h.tgetattr cid fid
  | treadlink fid => exact h.treadlink cid fid
  | tread fid offset count => exact h.tread cid fid offset count
  | treaddir fid offset count => exact h.treaddir cid fid offset count
  | tstatfs fid =>
    exact h.reading cid fid (fun _ => coreFixed_pure _) fun _ => coreFixed_pure _
  | tlock fid locktype flags start length procId clientId =>
    exact h.reading cid fid (fun _ => coreFixed_pure _) fun _ => coreFixed_pure _
  | tgetlock fid locktype start length procId clientId =>
    exact h.reading cid fid (fun _ => coreFixed_pure _) fun _ => coreFixed_pure _
  | _ => exact h

end Handlers

end NixWasm.NinepServer
