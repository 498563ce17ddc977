import NixWasm.Effects
import NixWasm.NinepStreaming

/-!
Weakest preconditions of the steps the 9P handlers are made of. Each rule says where a
step may leave the world when it returns and when it throws.
-/
namespace NixWasm.NinepServer

open Unicode Vfs NinepCodec Effects

variable {V σ : Type} {w : World V σ}

/-- The world with one fid object replaced. -/
def World.setFid (w : World V σ) (r : Ref) (f : Fid V) : World V σ :=
  { w with heap := Function.update w.heap r f }

@[simp] theorem setFid_heap_self (w : World V σ) (r : Ref) (f : Fid V) :
    (w.setFid r f).heap r = f :=
  Function.update_self ..

theorem setFid_heap_of_ne (w : World V σ) {r r' : Ref} (f : Fid V) (h : r' ≠ r) :
    (w.setFid r f).heap r' = w.heap r' :=
  Function.update_of_ne h ..

section Primitives

variable {R : Fault → World V σ → Prop}

theorem wp_stat (cfg : Config V σ) (v : V) (p : Path) {Q : Option VfsRecord → World V σ → Prop}
    (hok : ∀ found, (cfg.backend v).stat (w.disk v) p = .ok found → Q found w)
    (herror : ∀ e, (cfg.backend v).stat (w.disk v) p = .error e → R e w) :
    Wp (cfg.stat v p) Q R w := by
  unfold Wp
  cases h : (cfg.backend v).stat (w.disk v) p with
  | ok found =>
    rw [stat_ok cfg h]
    exact hok found h
  | error e =>
    rw [stat_error cfg h]
    exact herror e h

theorem wp_list (cfg : Config V σ) (v : V) (p : Path) {Q : List VfsRecord → World V σ → Prop}
    (hok : ∀ kids, (cfg.backend v).list (w.disk v) p = .ok kids → Q kids w)
    (herror : ∀ e, (cfg.backend v).list (w.disk v) p = .error e → R e w) :
    Wp (cfg.list v p) Q R w := by
  unfold Config.list
  rw [wp_bind, wp_get]
  cases h : (cfg.backend v).list (w.disk v) p with
  | ok kids => exact hok kids h
  | error e => exact herror e h

theorem wp_readBlob (cfg : Config V σ) (v : V) (p : Path) {Q : List UInt8 → World V σ → Prop}
    (hok : ∀ bytes, (cfg.backend v).readBlob (w.disk v) p = .ok bytes → Q bytes w)
    (herror : ∀ e, (cfg.backend v).readBlob (w.disk v) p = .error e → R e w) :
    Wp (cfg.readBlob v p) Q R w := by
  unfold Config.readBlob
  rw [wp_bind, wp_get]
  cases h : (cfg.backend v).readBlob (w.disk v) p with
  | ok bytes => exact hok bytes h
  | error e => exact herror e h

@[simp] theorem wp_readBytes (cfg : Config V σ) (v : V) (p : Path)
    {Q : List UInt8 → World V σ → Prop} :
    Wp (cfg.readBytes v p) Q R w ↔ Q ((cfg.backend v).readBytes (w.disk v) p) w := Iff.rfl

@[simp] theorem wp_fidAt (r : Ref) {Q : Fid V → World V σ → Prop} :
    Wp (Config.fidAt r) Q R w ↔ Q (w.heap r) w := Iff.rfl

@[simp] theorem wp_modifyFid (r : Ref) (f : Fid V → Fid V) {Q : Unit → World V σ → Prop} :
    Wp (Config.modifyFid r f) Q R w ↔ Q () (w.setFid r (f (w.heap r))) := Iff.rfl

@[simp] theorem wp_setConn (cid : ℕ) (c : Conn) {Q : Unit → World V σ → Prop} :
    Wp (Config.setConn cid c) Q R w ↔ Q () { w with conns := w.conns.set cid c } := Iff.rfl

theorem alike_fidAt_bind {α : Type} {r : Ref} {f g : Fid V → Handler V σ α}
    {Q : α → World V σ → Prop} (h : Alike (f (w.heap r)) (g (w.heap r)) Q R w) :
    Alike (Config.fidAt r >>= f) (Config.fidAt r >>= g) Q R w := h

theorem alike_modifyFid_bind {α : Type} {r : Ref} {k : Fid V → Fid V} {f g : Unit → Handler V σ α}
    {Q : α → World V σ → Prop} (h : Alike (f ()) (g ()) Q R (w.setFid r (k (w.heap r)))) :
    Alike (Config.modifyFid r k >>= f) (Config.modifyFid r k >>= g) Q R w := h

theorem wp_lift {α : Type} (x : Except Fault α) {Q : α → World V σ → Prop}
    (hok : ∀ a, x = .ok a → Q a w) (herror : ∀ e, x = .error e → R e w) :
    Wp (Config.lift x) Q R w := by
  cases x with
  | ok a => exact hok a rfl
  | error e => exact herror e rfl

theorem wp_created (found : Option VfsRecord) {Q : VfsRecord → World V σ → Prop}
    (hok : ∀ rec, found = some rec → Q rec w) (herror : found = none → R .plain w) :
    Wp (Config.created found) Q R w := by
  cases found with
  | none => exact herror rfl
  | some rec => exact hok rec rfl

/-- Interning never fails and moves nothing else. -/
theorem wp_qidOf (rec : VfsRecord) {Q : Qid → World V σ → Prop}
    (h : ∀ qid paths seq, Q qid { w with qidPaths := paths, qidSeq := seq }) :
    Wp (Config.qidOf rec) Q R w := by
  have hpath : ∀ (inode : Utf16) {P : ℕ → World V σ → Prop},
      (∀ n paths seq, P n { w with qidPaths := paths, qidSeq := seq }) →
      Wp (Config.qidPathFor inode) P R w := by
    intro inode P hP
    unfold Config.qidPathFor
    rw [wp_bind, wp_get]
    cases hq : w.qidPaths inode with
    | some n => exact hP n w.qidPaths w.qidSeq
    | none => exact hP w.qidSeq _ _
  unfold Config.qidOf
  rw [wp_bind]
  exact hpath _ fun n paths seq => h _ paths seq

variable [DecidableEq V]

theorem wp_call (cfg : Config V σ) (v : V) (c : Call) {Q : Unit → World V σ → Prop}
    (hok : ∀ d, (cfg.backend v).apply (w.disk v) c = .ok d → Q () (w.setDisk v d))
    (herror : ∀ e, (cfg.backend v).apply (w.disk v) c = .error e → R e w) :
    Wp (cfg.call v c) Q R w := by
  unfold Wp
  cases h : (cfg.backend v).apply (w.disk v) c with
  | ok d =>
    rw [call_ok h]
    exact hok d h
  | error e =>
    rw [call_error h]
    exact herror e h

end Primitives

section Tables

variable (cfg : Config V σ) {R : Fault → World V σ → Prop}

/-- The connection of a request, made when it is new. -/
def Config.touch (w : World V σ) (cid : ℕ) : World V σ :=
  match w.conns.get cid with
  | some _ => w
  | none => { w with conns := w.conns.set cid ⟨cfg.maxMsize, JsMap.empty⟩ }

theorem wp_conn (cid : ℕ) {Q : Conn → World V σ → Prop}
    (h : ∀ c, (cfg.touch w cid).conns.get cid = some c →
      (∀ r ∈ c.fids.values, ∃ c', w.conns.get cid = some c' ∧ r ∈ c'.fids.values) →
      (∀ fid, c.fids.get fid = ref w cid fid) → Q c (cfg.touch w cid)) :
    Wp (cfg.conn cid) Q R w := by
  unfold Config.conn
  rw [wp_bind, wp_get]
  unfold Config.touch at h
  cases hc : w.conns.get cid with
  | some c =>
    simp only [hc] at h
    exact h c rfl (fun r hr => ⟨c, rfl, hr⟩) fun fid => by simp [ref, hc]
  | none =>
    simp only [hc] at h
    refine h _ (JsMap.get_set_self ..) (fun r hr => ?_) fun fid => by simp [ref, hc]
    simp [JsMap.values, JsMap.empty] at hr

theorem wp_getFid (cid fid : ℕ) {Q : Ref → World V σ → Prop}
    (hok : ∀ r, ref w cid fid = some r → Q r w)
    (herror : ref w cid fid = none → R (.p9errno E.badf) (cfg.touch w cid)) :
    Wp (cfg.getFid cid fid) Q R w := by
  unfold Config.getFid
  rw [wp_bind]
  refine wp_conn cfg cid fun c hc _ hfids => ?_
  rw [hfids fid]
  cases hr : ref w cid fid with
  | none => exact herror hr
  | some r =>
    obtain ⟨c', hc', -⟩ := Option.bind_eq_some_iff.mp hr
    have htouch : cfg.touch w cid = w := by simp only [Config.touch, hc']
    rw [wp_pure, htouch]
    exact hok r hr

end Tables

section Reading

variable (cfg : Config V σ) {I : World V σ → Prop}

/-- The invariant does not see interned qids. -/
def Interns (I : World V σ → Prop) : Prop :=
  ∀ w paths seq, I w → I { w with qidPaths := paths, qidSeq := seq }

theorem keeps_stat (v : V) (p : Path) : Keeps I (cfg.stat v p) :=
  fun _ h => wp_stat cfg v p (fun _ _ => h) fun _ _ => h

theorem keeps_list (v : V) (p : Path) : Keeps I (cfg.list v p) :=
  fun _ h => wp_list cfg v p (fun _ _ => h) fun _ _ => h

theorem keeps_readBlob (v : V) (p : Path) : Keeps I (cfg.readBlob v p) :=
  fun _ h => wp_readBlob cfg v p (fun _ _ => h) fun _ _ => h

theorem keeps_readBytes (v : V) (p : Path) : Keeps I (cfg.readBytes v p) := fun _ h => h

theorem keeps_fidAt (r : Ref) : Keeps I (Config.fidAt r : Handler V σ (Fid V)) := fun _ h => h

theorem keeps_lift {α : Type} (x : Except Fault α) : Keeps I (Config.lift x : Handler V σ α) :=
  fun _ h => wp_lift x (fun _ _ => h) fun _ _ => h

theorem keeps_sizeOf (v : V) (rec : VfsRecord) : Keeps I (cfg.sizeOf v rec) := by
  unfold Config.sizeOf
  split
  · exact keeps_pure _
  · exact keeps_pure _
  · split
    · exact keeps_pure _
    · exact keeps_bind keeps_get fun _ => keeps_pure _

variable (hI : Interns I)

include hI

theorem keeps_qidOf (rec : VfsRecord) : Keeps I (Config.qidOf rec : Handler V σ Qid) :=
  fun _ h => wp_qidOf rec fun _ paths seq => hI _ paths seq h

theorem keeps_loadDirents (v : V) (dir : Path) : Keeps I (cfg.loadDirents v dir) := by
  refine keeps_bind (keeps_stat cfg v dir) fun found => ?_
  cases found with
  | none => exact keeps_throw _
  | some self =>
    refine keeps_bind (keeps_stat cfg v _) fun _ => keeps_bind (keeps_list cfg v dir) fun _ => ?_
    exact keeps_mapM (fun _ => keeps_bind (keeps_qidOf hI _) fun _ => keeps_pure _) _

theorem keeps_walk (v : V) (names : List Utf16) :
    ∀ first cur, Keeps I (cfg.walk v first cur names) := by
  induction names with
  | nil => exact fun _ _ => keeps_pure _
  | cons name names ih =>
    intro first cur
    refine keeps_bind (keeps_lift _) fun next => keeps_bind (keeps_stat cfg v next) fun found => ?_
    cases found with
    | none => exact keeps_ite (keeps_throw _) (keeps_pure _)
    | some rec =>
      exact keeps_bind (keeps_qidOf hI rec) fun _ =>
        keeps_bind (ih false next) fun _ => keeps_pure _

end Reading

section Writers

variable [DecidableEq V] (cfg : Config V σ) {R : Fault → World V σ → Prop}

/-- The world in which a fid has given its writer up. -/
def World.release (w : World V σ) (r : Ref) : World V σ :=
  { w with
    heap := Function.update w.heap r { w.heap r with writer := none, writerPath := none }
    owners := match (w.heap r).writerPath with
      | none => w.owners
      | some path =>
        if w.owners ((w.heap r).vfs, path) = some r then
          Function.update w.owners ((w.heap r).vfs, path) none
        else w.owners }

theorem release_heap_self (w : World V σ) (r : Ref) :
    (w.release r).heap r = { w.heap r with writer := none, writerPath := none } :=
  Function.update_self ..

theorem release_heap_of_ne (w : World V σ) {r r' : Ref} (h : r' ≠ r) :
    (w.release r).heap r' = w.heap r' :=
  Function.update_of_ne h ..

theorem release_path (w : World V σ) (r r' : Ref) :
    ((w.release r).heap r').path = (w.heap r').path := by
  by_cases heq : r' = r
  · rw [heq, release_heap_self]
  · rw [release_heap_of_ne w heq]

theorem release_vfs (w : World V σ) (r r' : Ref) :
    ((w.release r).heap r').vfs = (w.heap r').vfs := by
  by_cases heq : r' = r
  · rw [heq, release_heap_self]
  · rw [release_heap_of_ne w heq]

/-- Nobody owns a file any more that was not owned before. -/
theorem release_owners {w : World V σ} {r r' : Ref} {k : V × Path}
    (h : (w.release r).owners k = some r') :
    w.owners k = some r' ∧ ((w.heap r).writerPath = some k.2 → (w.heap r).vfs = k.1 → r' ≠ r) := by
  obtain ⟨v, p⟩ := k
  unfold World.release at h
  simp only at h
  cases hp : (w.heap r).writerPath with
  | none =>
    rw [hp] at h
    exact ⟨h, fun hfalse => by cases hfalse⟩
  | some path =>
    rw [hp] at h
    simp only at h
    split at h
    · by_cases hk : (v, p) = ((w.heap r).vfs, path)
      · rw [hk, Function.update_self] at h
        cases h
      · rw [Function.update_of_ne hk] at h
        refine ⟨h, fun hpath hvfs => absurd ?_ hk⟩
        cases hpath
        rw [hvfs]
    · rename_i hnot
      refine ⟨h, fun hpath hvfs heq => hnot ?_⟩
      cases hpath
      simp only at hvfs
      rw [hvfs, h, heq]

/-- Closing gives the writer up first and then writes what it holds. -/
theorem closeWriter_eq (r : Ref) (w : World V σ) :
    cfg.closeWriter r w = (match (w.heap r).writer with
      | none => pure ()
      | some wr => if wr.dirty then cfg.writeBytes (w.heap r).vfs wr.path wr.bytes else pure () :
        Handler V σ Unit) (w.release r) := by
  unfold Config.closeWriter
  rw [bind_ok (fidAt_eq r w), bind_ok (modifyFid_eq r _ w)]
  unfold World.release
  cases hp : (w.heap r).writerPath with
  | none => cases (w.heap r).writer <;> rfl
  | some path =>
    change (if w.owners ((w.heap r).vfs, path) = some r then _ else _ : Handler V σ Unit) _ = _
    by_cases ho : w.owners ((w.heap r).vfs, path) = some r
    · simp only [if_pos ho]
      cases (w.heap r).writer <;> rfl
    · simp only [if_neg ho] <;> cases (w.heap r).writer <;> rfl

theorem wp_closeWriter (r : Ref) {Q : Unit → World V σ → Prop}
    (hclean : (∀ wr, (w.heap r).writer = some wr → wr.dirty = false) → Q () (w.release r))
    (hdirty : ∀ wr, (w.heap r).writer = some wr → wr.dirty = true →
      Wp (cfg.writeBytes (w.heap r).vfs wr.path wr.bytes) Q R (w.release r)) :
    Wp (cfg.closeWriter r) Q R w := by
  unfold Wp
  rw [closeWriter_eq]
  cases hw : (w.heap r).writer with
  | none => exact hclean fun wr hwr => by rw [hw] at hwr; cases hwr
  | some wr =>
    by_cases hd : wr.dirty = true
    · simp only [if_pos hd]
      exact hdirty wr hw hd
    · simp only [if_neg hd]
      refine hclean fun wr' hwr => ?_
      rw [hw] at hwr
      cases hwr
      exact Bool.not_eq_true _ ▸ hd

end Writers

section Fids

variable {w₀ : World V σ} {r : Ref}

/-- The fids are bound as they were. -/
structure SameFids (w w' : World V σ) : Prop where
  conns : w'.conns = w.conns
  next : w'.next = w.next
  vfs : ∀ r, (w'.heap r).vfs = (w.heap r).vfs
  path : ∀ r, (w'.heap r).path = (w.heap r).path

theorem SameFids.refl (w : World V σ) : SameFids w w := ⟨rfl, rfl, fun _ => rfl, fun _ => rfl⟩

theorem SameFids.ref_eq (h : SameFids w₀ w) (cid fid : ℕ) : ref w cid fid = ref w₀ cid fid := by
  unfold ref
  rw [h.conns]

theorem SameFids.release [DecidableEq V] (h : SameFids w₀ w) (r : Ref) :
    SameFids w₀ (w.release r) := ⟨h.conns, h.next, fun r' => (release_vfs w r r').trans (h.vfs r'),
    fun r' => (release_path w r r').trans (h.path r')⟩

theorem SameFids.setDisk [DecidableEq V] (h : SameFids w₀ w) (u : V) (d : σ) :
    SameFids w₀ (w.setDisk u d) := ⟨h.conns, h.next, h.vfs, h.path⟩

theorem SameFids.setFid (h : SameFids w₀ w) {f : Fid V} (hvfs : f.vfs = (w.heap r).vfs)
    (hpath : f.path = (w.heap r).path) : SameFids w₀ (w.setFid r f) := by
  refine ⟨h.conns, h.next, fun r' => ?_, fun r' => ?_⟩
  · by_cases heq : r' = r
    · subst heq
      rw [setFid_heap_self, hvfs, h.vfs]
    · rw [setFid_heap_of_ne w f heq, h.vfs]
  · by_cases heq : r' = r
    · subst heq
      rw [setFid_heap_self, hpath, h.path]
    · rw [setFid_heap_of_ne w f heq, h.path]

end Fids

end NixWasm.NinepServer
