import NixWasm.MemVfsBackend
import NixWasm.NinepConfine

/-!
Export confinement over whole runs. The server resolves ".." by dropping the last
component and looks the parent of every listed directory up, without regard to the root
of the export, and a rename applies the target's path to the source's backend. A run in
which no request does this at the root of an export other than "/" stays inside.
-/
namespace NixWasm.NinepServer

open Unicode Vfs NinepCodec Effects Runs

variable {V σ : Type} [DecidableEq V]

section Inside

variable (cfg : Config V σ)

/-- The export of the fid object that a request may make. -/
def Config.source (w : World V σ) (o : Origins V) (cid : ℕ) : Body → Option (Export V)
  | .tattach _ _ _ aname _ => cfg.attachExport aname
  | .twalk fid _ _ => (ref w cid fid).bind o
  | _ => none

/-- The server with the exports of its fid objects. -/
def Config.track (s : World V σ × Origins V) (request : ℕ × List UInt8) : World V σ × Origins V :=
  (cfg.serve s.1 request,
    match decode request.2 with
    | none => s.2
    | some m => Function.update s.2 s.1.next (cfg.source s.1 s.2 request.1 m.body))

omit [DecidableEq V] in
def onExport (o : Origins V) (r : Ref) (k : Path → Bool) : Bool :=
  match o r with
  | none => true
  | some e => k e.root

omit [DecidableEq V] in
/-- A name below a directory fid, as seen from the root of some object's export. -/
def nameInside (o : Origins V) (r : Ref) (base : Path) (name : Utf16) : Bool :=
  onExport o r fun root => onName base name fun p => root.isPrefixOf p

omit [DecidableEq V] in
/-- The directory is missing, or its parent is inside too. -/
def parentInside (w : World V σ) (o : Origins V) (r : Ref) (listed : VfsRecord → Bool) : Bool :=
  onExport o r fun root =>
    match (cfg.backend (w.heap r).vfs).stat (w.disk (w.heap r).vfs) (w.heap r).path with
    | .ok (some rec) => !listed rec || root.isPrefixOf (parentOf (w.heap r).path)
    | _ => true

/-- The request does not step out of an export: no ".." at its root, no listing of a
root that has a parent, and no rename to a path outside. -/
def Config.inside (w : World V σ) (o : Origins V) (cid : ℕ) : Body → Bool
  | .tattach _ _ _ aname _ =>
    match cfg.attachExport aname, cfg.resolveAttach aname with
    | some e, .ok (_, p) => e.root.isPrefixOf p
    | _, _ => true
  | .twalk fid _ wnames => onFid w cid fid fun r => onExport o r fun root =>
      walkInside (cfg.backend (w.heap r).vfs) (w.disk (w.heap r).vfs) root (w.heap r).path wnames
  | .tlopen fid _ => onFid w cid fid fun r =>
      parentInside cfg w o r fun rec => decide (rec.type = .folder)
  | .treaddir fid offset _ => onFid w cid fid fun r =>
      (w.heap r).dirents.isSome && decide (offset ≠ 0) || parentInside cfg w o r fun _ => true
  | .tlcreate fid name _ _ _ => onFid w cid fid fun r => nameInside o r (w.heap r).path name
  | .tmkdir dfid name _ _ => onFid w cid dfid fun r => nameInside o r (w.heap r).path name
  | .tsymlink fid name _ _ => onFid w cid fid fun r => nameInside o r (w.heap r).path name
  | .tunlinkat dirfid name _ => onFid w cid dirfid fun r => nameInside o r (w.heap r).path name
  | .trename fid dfid name => onFid w cid fid fun r => onFid w cid dfid fun d =>
      nameInside o r (w.heap d).path name
  | .trenameat olddirfid oldname newdirfid newname =>
    onFid w cid olddirfid fun od => onFid w cid newdirfid fun nd => onExport o od fun root =>
      onName (w.heap od).path oldname fun src => onName (w.heap nd).path newname fun dst =>
        root.isPrefixOf src && root.isPrefixOf dst
  | _ => true

/-- The condition on the state before a frame. -/
def Config.Stays (s : World V σ × Origins V) (request : ℕ × List UInt8) : Prop :=
  match decode request.2 with
  | none => True
  | some m => cfg.inside s.1 s.2 request.1 m.body = true

instance (s : World V σ × Origins V) (request : ℕ × List UInt8) :
    Decidable (cfg.Stays s request) :=
  decidable_of_iff (((decode request.2).all fun m =>
      cfg.inside s.1 s.2 request.1 m.body) = true) <| by
    unfold Config.Stays
    cases decode request.2 <;> simp

end Inside

section Dispatch

variable {cfg : Config V σ} {A : V → Path → Prop} {b : V → Backend σ}
  {o : Origins V} {n : ℕ} {w : World V σ} {cid : ℕ}

omit [DecidableEq V] in
theorem onExport_spec {r : Ref} {k : Path → Bool} (h : onExport o r k = true) {e : Export V}
    (he : o r = some e) : k e.root = true := by
  unfold onExport at h
  rwa [he] at h

omit [DecidableEq V] in
theorem nameInside_spec {r : Ref} {base : Path} {name : Utf16}
    (h : nameInside o r base name = true) {e : Export V} (he : o r = some e) {p : Path}
    (hp : joinName base name = .ok p) : e.root <+: p :=
  List.isPrefixOf_iff_prefix.mp (onName_spec (onExport_spec h he) hp)

omit [DecidableEq V] in
theorem parentInside_spec {r : Ref} {listed : VfsRecord → Bool}
    (h : parentInside cfg w o r listed = true) {e : Export V} (he : o r = some e) {rec : VfsRecord}
    (hrec : (cfg.backend (w.heap r).vfs).stat (w.disk (w.heap r).vfs) (w.heap r).path =
      .ok (some rec)) (hlisted : listed rec = true) : e.root <+: parentOf (w.heap r).path := by
  have hroot := onExport_spec h he
  rw [hrec] at hroot
  exact List.isPrefixOf_iff_prefix.mp (by simpa [hlisted] using hroot)

/-- The export a request attaches to. -/
def Config.attaches (cfg : Config V σ) : Body → Option (Export V)
  | .tattach _ _ _ aname _ => cfg.attachExport aname
  | _ => none

omit [DecidableEq V] in
/-- A request whose handler keeps the objects confined, with a reply made from its result. -/
theorem Confined.replying {α : Type} {x y : Handler V σ α} (f : α → Body)
    (h : Alike x y (fun _ => Confined o n) (fun _ => Confined o n) w) :
    Alike (do return f (← x) : Handler V σ Body) (do return f (← y))
      (fun _ w' => ∃ m, Confined o m w') (fun _ => Confined o n) w :=
  h.bind fun _ _ hw => alike_pure ⟨n, hw⟩

/-- One request that stays inside: the handler depends on allowed paths only and leaves
every object with its export. `o` is as before the request. -/
theorem Confined.dispatch (hb : AgreeOn A cfg.backend b)
    (hreports : ∀ v, Reports (cfg.backend v)) {o' : Origins V} (h : Confined o' n w)
    (hold : ∀ r, r < n → o' r = o r) (hreach : Reachable A o' w cid) (body : Body)
    (hattach : ∀ e, cfg.attaches body = some e → Allows A e)
    (hnew : o' n = cfg.source w o cid body) (hinside : cfg.inside w o cid body = true) :
    Alike (cfg.dispatch cid body) ((cfg.over b).dispatch cid body)
      (fun _ w' => ∃ m, Confined o' m w') (fun _ => Confined o' n) w := by
  have hsame : ∀ {x y : Handler V σ Body},
      Alike x y (fun _ => Confined o' n) (fun _ => Confined o' n) w →
      Alike x y (fun _ w' => ∃ m, Confined o' m w') (fun _ => Confined o' n) w :=
    fun hx => hx.mono (fun _ _ hw => ⟨n, hw⟩) fun _ _ hw => hw
  have hbefore : ∀ {fid r e}, ref w cid fid = some r → o' r = some e → o r = some e :=
    fun hr he => hold _ (h.bound_ref hr) ▸ he
  have hname : ∀ {fid name}, onFid w cid fid (fun r => nameInside o r (w.heap r).path name) = true →
      ∀ r e p, ref w cid fid = some r → o' r = some e → joinName (w.heap r).path name = .ok p →
      e.root <+: p :=
    fun hfid r e p hr he hp => nameInside_spec (onFid_spec hfid hr) (hbefore hr he) hp
  have hparent : ∀ {r e}, r < n → o' r = some e → e.root <+: parentOf (w.heap r).path →
      Allows A e → A (w.heap r).vfs (parentOf (w.heap r).path) :=
    fun hlt he hroot hallows => (h.kept_of hlt he).vfs ▸ hallows _ hroot
  have hallows : ∀ {fid r}, ref w cid fid = some r → ∃ e, r < n ∧ o' r = some e ∧ Allows A e := by
    intro fid r hr
    obtain ⟨e, he, -⟩ := h.kept r (h.bound_ref hr)
    obtain ⟨c, hc, hfid⟩ := Option.bind_eq_some_iff.mp hr
    exact ⟨e, h.bound_ref hr, he, hreach c hc r (JsMap.mem_values_of_get hfid) e he⟩
  cases body with
  | tversion msize version => exact hsame (h.tversion hb hreach msize version)
  | tattach fid afid uname aname nUname =>
    refine h.tattach hb fid aname hattach (fun e he => hnew.trans he) fun e v p he hp => ?_
    have hroot := hinside
    simp only [Config.inside, he, hp] at hroot
    exact List.isPrefixOf_iff_prefix.mp hroot
  | twalk fid newfid wnames =>
    refine h.twalk hb hreach fid newfid wnames (fun r e hr he => ?_) fun r e hr he => ?_
    · rw [hnew, Config.source, hr]
      exact hbefore hr he
    · exact onExport_spec (onFid_spec hinside hr) (hbefore hr he)
  | tgetattr fid requestMask => exact hsame (h.tgetattr hb hreports hreach fid)
  | tsetattr fid valid mode uid gid size _ _ _ _ =>
    exact hsame (h.tsetattr hb hreach fid valid size)
  | tlopen fid flags =>
    refine hsame (h.tlopen hb hreach fid flags fun r hr rec hrec hfolder => ?_)
    obtain ⟨e, hlt, he, hall⟩ := hallows hr
    have hroot := parentInside_spec (onFid_spec hinside hr) (hbefore hr he) hrec
      (by simpa using hfolder)
    exact hparent hlt he hroot hall
  | tlcreate fid name flags mode gid => exact hsame (h.tlcreate hb hreach fid name (hname hinside))
  | tmkdir dfid name mode gid =>
    exact Confined.replying _ (h.make hb hreach dfid name Call.mkdir (fun _ => rfl) (hname hinside))
  | tsymlink fid name symtgt gid =>
    exact Confined.replying _ (h.make hb hreach fid name _ (fun _ => rfl) (hname hinside))
  | treadlink fid => exact hsame (h.treadlink hb hreach fid)
  | tread fid offset count => exact hsame (h.tread hb hreach fid offset count)
  | twrite fid offset data => exact hsame (h.twrite hb hreports hreach fid offset data)
  | treaddir fid offset count =>
    refine hsame (h.treaddir hb hreach fid offset count fun r hr hload rec hrec => ?_)
    obtain ⟨e, hlt, he, hall⟩ := hallows hr
    have hfid := onFid_spec hinside hr
    rw [Bool.or_eq_true] at hfid
    rcases hfid with hkept | hroot
    · rcases hload with hnone | hzero
      · simp [hnone] at hkept
      · simp [hzero] at hkept
    · exact hparent hlt he (parentInside_spec hroot (hbefore hr he) hrec rfl) hall
  | tclunk fid => exact hsame (h.tclunk hb hreach fid)
  | tremove fid => exact hsame (h.tremove hb hreach fid)
  | tunlinkat dirfid name flags => exact hsame (h.tunlinkat hb hreach dirfid name (hname hinside))
  | trename fid dfid name =>
    refine hsame (h.trename hb hreach fid dfid name fun r d e p hr hd he hp => ?_)
    exact nameInside_spec (onFid_spec (onFid_spec hinside hr) hd) (hbefore hr he) hp
  | trenameat olddirfid oldname newdirfid newname =>
    refine hsame (h.trenameat hb hreach olddirfid oldname newdirfid newname
      fun od nd e src dst hod hnd he hsrc hdst => ?_)
    have hexport := onExport_spec (onFid_spec (onFid_spec hinside hod) hnd) (hbefore hod he)
    have hboth := onName_spec (onName_spec hexport hsrc) hdst
    rw [Bool.and_eq_true, List.isPrefixOf_iff_prefix, List.isPrefixOf_iff_prefix] at hboth
    exact hboth
  | tfsync fid datasync => exact hsame (h.tfsync hb hreach fid)
  | tstatfs fid =>
    exact hsame (h.getFid hreach fid fun _ _ _ _ _ _ _ => alike_pure h)
  | tlock fid locktype flags start length procId clientId =>
    exact hsame (h.getFid hreach fid fun _ _ _ _ _ _ _ => alike_pure h)
  | tgetlock fid locktype start length procId clientId =>
    exact hsame (h.getFid hreach fid fun _ _ _ _ _ _ _ => alike_pure h)
  | tflush oldtag => exact alike_pure ⟨n, h⟩
  | _ => exact alike_throw h

end Dispatch

section Exports

variable (cfg : Config V σ)

/-- Every fid lies at or below the root of the export it was attached through. -/
def FidsInside (s : World V σ × Origins V) : Prop :=
  ∀ cid fid r, ref s.1 cid fid = some r →
    ∃ e, s.2 r = some e ∧ (s.1.heap r).vfs = e.vfs ∧ e.root <+: (s.1.heap r).path

/-- The exports of the connection's fids, and the one the request attaches to. -/
def Config.Reaches (s : World V σ × Origins V) (request : ℕ × List UInt8) (e : Export V) : Prop :=
  (∃ c, s.1.conns.get request.1 = some c ∧ ∃ r ∈ c.fids.values, s.2 r = some e) ∨
    ∃ m, decode request.2 = some m ∧ cfg.attaches m.body = some e

/-- A request depends on the backends at and below the roots of its exports only. -/
def Config.CallsInside (s : World V σ × Origins V) (request : ℕ × List UInt8) : Prop :=
  ∀ v p, cfg.Consults s.1 request v p → ∃ e, cfg.Reaches s request e ∧ e.vfs = v ∧ e.root <+: p

variable {cfg} {o : Origins V} {n : ℕ} {w : World V σ} {request : ℕ × List UInt8}

omit [DecidableEq V] in
theorem Confined.congr {o' : Origins V} (h : Confined o n w) (hold : ∀ r, r < n → o' r = o r) :
    Confined o' n w := by
  refine ⟨h.next, h.bound, fun r hr => ?_, h.owner⟩
  obtain ⟨e, he, hkept⟩ := h.kept r hr
  exact ⟨e, (hold r hr).trans he, hkept⟩

/-- A frame that stays inside, over its own and over other backends. -/
theorem Confined.handle (hreports : ∀ v, Reports (cfg.backend v)) (h : Confined o n w)
    (hstays : cfg.Stays (w, o) request) {b : V → Backend σ}
    (hb : AgreeOn (fun v p => ∃ e, cfg.Reaches (w, o) request e ∧ e.vfs = v ∧ e.root <+: p)
      cfg.backend b) :
    (cfg.over b).handle request.1 request.2 w = cfg.handle request.1 request.2 w ∧
      ∃ m, Confined (cfg.track (w, o) request).2 m (cfg.track (w, o) request).1 := by
  obtain ⟨cid, frame⟩ := request
  unfold Config.track Config.serve Config.handle
  unfold Config.Stays at hstays
  simp only at hstays ⊢
  cases hdecode : decode frame with
  | none => exact ⟨rfl, n, h⟩
  | some m =>
    rw [hdecode] at hstays
    have hold : ∀ r, r < n → Function.update o w.next (cfg.source w o cid m.body) r = o r :=
      fun r hr => Function.update_of_ne (h.next ▸ Nat.ne_of_lt hr) ..
    have hrun := (h.congr hold).dispatch hb hreports hold
      (fun c hc r hr e he p hp => ?_) m.body (fun e he p hp => ?_)
      (by rw [← h.next, Function.update_self]) hstays
    · obtain ⟨heq, hwp⟩ := hrun
      simp only [EStateM.run, heq]
      refine ⟨trivial, ?_⟩
      unfold Wp at hwp
      cases hd : cfg.dispatch cid m.body w with
      | ok reply w' =>
        rw [hd] at hwp
        exact hwp
      | error e w' =>
        rw [hd] at hwp
        exact ⟨n, hwp⟩
    · have hr' := h.bound cid c hc r hr
      rw [hold r hr'] at he
      exact ⟨e, .inl ⟨c, hc, r, hr, he⟩, rfl, hp⟩
    · exact ⟨e, .inr ⟨m, hdecode, he⟩, rfl, hp⟩

theorem Confined.track (hreports : ∀ v, Reports (cfg.backend v)) (h : Confined o n w)
    (hstays : cfg.Stays (w, o) request) :
    ∃ m, Confined (cfg.track (w, o) request).2 m (cfg.track (w, o) request).1 :=
  (h.handle hreports hstays ⟨fun _ _ _ _ => rfl, fun _ _ _ _ => rfl, fun _ _ _ _ => rfl,
    fun _ _ _ _ => rfl, fun _ _ _ => rfl⟩).2

theorem Confined.callsInside (hreports : ∀ v, Reports (cfg.backend v)) (h : Confined o n w)
    (hstays : cfg.Stays (w, o) request) : cfg.CallsInside (w, o) request := by
  rintro v p ⟨b, hb, hdiffers⟩
  by_contra hout
  -- a backend that differs outside only is not told apart
  have hother : ∀ u q, (∃ e, cfg.Reaches (w, o) request e ∧ e.vfs = u ∧ e.root <+: q) →
      ¬ (u = v ∧ q = p) := by
    rintro u q hreach ⟨rfl, rfl⟩
    exact hout hreach
  refine hdiffers (h.handle hreports hstays ?_).1
  exact ⟨fun u q hq => hb.stat u q (hother u q hq), fun u q hq => hb.list u q (hother u q hq),
    fun u q hq => hb.readBlob u q (hother u q hq),
    fun u c hc => hb.apply u c fun q hq => hother u q (hc q hq),
    fun u q hq => hb.isWritablePath u q (hother u q hq)⟩

/-- A server before its first request. -/
structure Started (w : World V σ) : Prop where
  conns : w.conns = JsMap.empty
  next : w.next = 0
  owners : ∀ k, w.owners k = none

omit [DecidableEq V] in
theorem Started.confined (h : Started w) : Confined (fun _ => none) 0 w := by
  refine ⟨h.next, fun cid c hc => ?_, fun r hr => absurd hr (Nat.not_lt_zero r), fun v p r ho => ?_⟩
  · rw [h.conns] at hc
    cases hc
  · rw [h.owners] at ho
    cases ho

/-- In a run that never steps out of an export, every fid stays inside its export and no
request depends on anything outside. -/
theorem exports_confined (cfg : Config V σ) (hreports : ∀ v, Reports (cfg.backend v))
    (w : World V σ) (hw : Started w) (requests : List (ℕ × List UInt8))
    (hstays : Along cfg.Stays cfg.track (w, fun _ => none) requests) :
    FidsInside (run cfg.track (w, fun _ => none) requests) ∧
      ∀ before request after, requests = before ++ request :: after →
        cfg.CallsInside (run cfg.track (w, fun _ => none) before) request := by
  have hinv : ∀ reqs, Along cfg.Stays cfg.track (w, fun _ => none) reqs →
      ∃ n, Confined (run cfg.track (w, fun _ => none) reqs).2 n
        (run cfg.track (w, fun _ => none) reqs).1 := fun reqs halong =>
    run_along (fun s => ∃ n, Confined s.2 n s.1)
      (fun _ _ ⟨_, hs⟩ hstay => hs.track hreports hstay) reqs ⟨0, hw.confined⟩ halong
  constructor
  · obtain ⟨n, hn⟩ := hinv requests hstays
    intro cid fid r hr
    obtain ⟨e, he, hkept⟩ := hn.kept r (hn.bound_ref hr)
    exact ⟨e, he, hkept.vfs, hkept.path⟩
  · rintro before request after rfl
    obtain ⟨hbefore, hstay, -⟩ := along_append.mp hstays
    obtain ⟨n, hn⟩ := hinv before hbefore
    exact hn.callsInside hreports hstay

end Exports

theorem mounted_reports (o : MemVfs.Options) : Reports (MemVfs.mounted o) := by
  intro s p rec hstat
  obtain ⟨i, node, -, -, rfl⟩ := MemVfs.mounted_stat_some.mp hstat
  exact MemVfs.pathOf_normalize p

section Home

def home : Path := [⟨ofString "home", by decide⟩]

def folderRecord (p : Path) : VfsRecord :=
  ⟨none, .folder, (p.map Subtype.val).getLastD [], p, none, none, none⟩

/-- A read-only backend with the one folder "/home". -/
def readOnlyHome : Backend Unit where
  stat _ p := .ok (if p = [] ∨ p = home then some (folderRecord p) else none)
  list _ p :=
    if p = [] then .ok [folderRecord home] else if p = home then .ok [] else .error (.code .enoent)
  readBlob _ _ := .error (.code .eisdir)
  write _ _ _ := .error (.code .erofs)
  mkdir _ _ := .error (.code .erofs)
  remove _ _ := .error (.code .erofs)
  move _ _ _ := .error (.code .erofs)
  isWritablePath _ := false

theorem readOnlyHome_reports : Reports readOnlyHome := by
  intro s p rec h
  simp only [readOnlyHome, Except.ok.injEq] at h
  split at h
  · cases h
    rfl
  · cases h

/-- The export is rooted at "/home". -/
def homeExport : Config Unit Unit :=
  ⟨65536, 0, 0, [(ofString "/", ⟨(), home⟩)], fun _ => readOnlyHome, fun _ =>
    false, fun _ _ => false⟩

def homeWorld : World Unit Unit :=
  ⟨JsMap.empty, fun _ => ⟨[], (), false, none, none, none⟩, 0, fun _ => none, fun _ => none, 1,
    65536, fun _ => ()⟩

/-- Fid 0 is attached to "/home" and fid 1 is a clone of it. -/
def cloneRun : List (ℕ × List UInt8) :=
  [frame (.tattach 0 0xffffffff (ofString "u") (ofString "/") 0), frame (.twalk 0 1 [ofString "."])]

theorem exports_confined_clone :
    FidsInside (run homeExport.track (homeWorld, fun _ => none) cloneRun) :=
  (exports_confined homeExport (fun _ => readOnlyHome_reports) homeWorld ⟨rfl, rfl, fun _ => rfl⟩
    cloneRun (by decide +kernel)).1

/-- Fid 1 walks to the parent of "/home". -/
def escapeRun : List (ℕ × List UInt8) :=
  [frame (.tattach 0 0xffffffff (ofString "u") (ofString "/") 0),
  frame (.twalk 0 1 [ofString ".."])]

theorem walk_leaves_export :
    ref (run homeExport.track (homeWorld, fun _ => none) escapeRun).1 0 1 = some 1 ∧
      ((run homeExport.track (homeWorld, fun _ => none) escapeRun).2 1).map Export.root =
        some home ∧
      ((run homeExport.track (homeWorld, fun _ => none) escapeRun).1.heap 1).path = [] ∧
      ¬ home <+: [] ∧
      ¬ FidsInside (run homeExport.track (homeWorld, fun _ => none) escapeRun) := by
  have hbound : ref (run homeExport.track (homeWorld, fun _ => none) escapeRun).1 0 1 = some 1 := by
    decide +kernel
  have horigin : ((run homeExport.track (homeWorld, fun _ => none) escapeRun).2 1).map Export.root =
      some home := by decide +kernel
  have hpath : ((run homeExport.track (homeWorld, fun _ => none) escapeRun).1.heap 1).path =
      [] := by
    decide +kernel
  have hout : ¬ home <+: [] := by decide
  refine ⟨hbound, horigin, hpath, hout, fun hinside => ?_⟩
  obtain ⟨e, he, -, hprefix⟩ := hinside 0 1 1 hbound
  rw [he] at horigin
  rw [hpath, Option.some.inj horigin] at hprefix
  exact hout hprefix

end Home

end NixWasm.NinepServer
