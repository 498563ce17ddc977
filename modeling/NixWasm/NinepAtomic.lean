import NixWasm.NinepExports
import NixWasm.NinepRoundTrip

/-!
What an Rlerror leaves behind. A handler that fails leaves every fid with its path and
its open state, and the backends with at most some pending writes made durable, except
in four handlers: Tlcreate moves the fid before the file is made, Tlopen opens a
directory fid before its entries are read, and Tlcreate, Tmkdir and Tsymlink report an
error when the new file is not found afterwards.
-/
namespace NixWasm.NinepServer

open Unicode Vfs NinepCodec Effects Runs

variable {V σ : Type} [DecidableEq V]

section Unchanged

/-- The backends after some of the writes pending in `w` were made durable. -/
inductive Saved (cfg : Config V σ) (w : World V σ) : (V → σ) → Prop
  | start : Saved cfg w w.disk
  | save {disk : V → σ} {r : Ref} {wr : Writer} {d : σ} (h : Saved cfg w disk)
      (hwr : (w.heap r).writer = some wr) (hdirty : wr.dirty = true)
      (hwrite : (cfg.backend (w.heap r).vfs).write (disk (w.heap r).vfs) wr.path (.file wr.bytes) =
        .ok d) : Saved cfg w (Function.update disk (w.heap r).vfs d)

/-- The same fids with the same paths, open or not, and the same backends but for
acknowledged writes. -/
structure Unchanged (cfg : Config V σ) (w w' : World V σ) : Prop where
  fids : ∀ cid fid, ref w' cid fid = ref w cid fid
  path : ∀ r, (w'.heap r).path = (w.heap r).path
  opened : ∀ r, (w'.heap r).opened = (w.heap r).opened
  saved : Saved cfg w w'.disk

/-- What holds while a handler can still fail: no write is pending that was not before. -/
structure Since (cfg : Config V σ) (w w' : World V σ) : Prop extends Unchanged cfg w w' where
  vfs : ∀ r, (w'.heap r).vfs = (w.heap r).vfs
  pending : ∀ r wr, (w'.heap r).writer = some wr → wr.dirty = true → (w.heap r).writer = some wr

variable {cfg : Config V σ} {w₀ w : World V σ}

theorem Since.refl (w : World V σ) : Since cfg w w :=
  ⟨⟨fun _ _ => rfl, fun _ => rfl, fun _ => rfl, .start⟩, fun _ => rfl, fun _ _ h _ => h⟩

theorem since_interns : Interns (Since cfg w₀) :=
  fun _ _ _ h => ⟨⟨h.fids, h.path, h.opened, h.saved⟩, h.vfs, h.pending⟩

omit [DecidableEq V] in
theorem ref_setConn {w : World V σ} {cid : ℕ} {c : Conn}
    (h : ∀ fid, c.fids.get fid = ref w cid fid) (cid' fid : ℕ) :
    ref { w with conns := w.conns.set cid c } cid' fid = ref w cid' fid := by
  by_cases hcid : cid' = cid
  · subst hcid
    simpa [ref, JsMap.get_set_self] using h fid
  · simp [ref, JsMap.get_set_of_ne _ _ hcid]

omit [DecidableEq V] in
theorem ref_touch (cfg : Config V σ) (w : World V σ) (cid cid' fid : ℕ) :
    ref (cfg.touch w cid) cid' fid = ref w cid' fid := by
  unfold Config.touch
  cases hc : w.conns.get cid with
  | some c => rfl
  | none => exact ref_setConn (fun fid => by simp [ref, hc]) cid' fid

theorem Since.setConn (h : Since cfg w₀ w) {cid : ℕ} {c : Conn}
    (hc : ∀ fid, c.fids.get fid = ref w cid fid) :
    Since cfg w₀ { w with conns := w.conns.set cid c } :=
  ⟨⟨fun cid' fid => (ref_setConn hc cid' fid).trans (h.fids cid' fid), h.path, h.opened, h.saved⟩,
    h.vfs, h.pending⟩

omit [DecidableEq V] in
theorem touch_fields (cfg : Config V σ) (w : World V σ) (cid : ℕ) :
    (cfg.touch w cid).heap = w.heap ∧ (cfg.touch w cid).disk = w.disk := by
  unfold Config.touch
  split <;> exact ⟨rfl, rfl⟩

theorem Since.touch (h : Since cfg w₀ w) (cid : ℕ) : Since cfg w₀ (cfg.touch w cid) := by
  obtain ⟨hheap, hdisk⟩ := touch_fields cfg w cid
  refine ⟨⟨fun cid' fid => (ref_touch cfg w cid cid' fid).trans (h.fids cid' fid), ?_, ?_, ?_⟩,
    ?_, ?_⟩
  · rw [hheap]
    exact h.path
  · rw [hheap]
    exact h.opened
  · rw [hdisk]
    exact h.saved
  · rw [hheap]
    exact h.vfs
  · rw [hheap]
    exact h.pending

/-- A fid object changes in what the table does not show. -/
theorem Since.setFid (h : Since cfg w₀ w) (r : Ref) {f : Fid V} (hpath : f.path = (w.heap r).path)
    (hopened : f.opened = (w.heap r).opened) (hvfs : f.vfs = (w.heap r).vfs)
    (hpending : ∀ wr, f.writer = some wr → wr.dirty = true → (w.heap r).writer = some wr) :
    Since cfg w₀ (w.setFid r f) := by
  have hcell : ∀ r', r' = r ∧ (w.setFid r f).heap r' = f ∨ (w.setFid r f).heap r' = w.heap r' := by
    intro r'
    by_cases heq : r' = r
    · exact .inl ⟨heq, heq ▸ setFid_heap_self w r f⟩
    · exact .inr (setFid_heap_of_ne w f heq)
  refine ⟨⟨h.fids, fun r' => ?_, fun r' => ?_, h.saved⟩, fun r' => ?_, fun r' wr hwr hd => ?_⟩
  · rcases hcell r' with ⟨rfl, hnew⟩ | hold
    · rw [hnew, hpath, h.path]
    · rw [hold, h.path]
  · rcases hcell r' with ⟨rfl, hnew⟩ | hold
    · rw [hnew, hopened, h.opened]
    · rw [hold, h.opened]
  · rcases hcell r' with ⟨rfl, hnew⟩ | hold
    · rw [hnew, hvfs, h.vfs]
    · rw [hold, h.vfs]
  · rcases hcell r' with ⟨rfl, hnew⟩ | hold
    · rw [hnew] at hwr
      exact h.pending r' wr (hpending wr hwr hd) hd
    · rw [hold] at hwr
      exact h.pending r' wr hwr hd

theorem Since.release (h : Since cfg w₀ w) (r : Ref) : Since cfg w₀ (w.release r) := by
  have hset := h.setFid r (f := { w.heap r with writer := none, writerPath := none }) rfl rfl rfl
    fun wr hwr => by cases hwr
  exact ⟨⟨hset.fids, hset.path, hset.opened, hset.saved⟩, hset.vfs, hset.pending⟩

end Unchanged

section Keeping

variable (cfg : Config V σ) (w₀ : World V σ)

theorem keeps_getFid (cid fid : ℕ) : Keeps (Since cfg w₀) (cfg.getFid cid fid) :=
  fun _ h => wp_getFid cfg cid fid (fun _ _ => h) fun _ => h.touch cid

/-- Closing a writer makes acknowledged writes durable, and nothing else. -/
theorem keeps_closeWriter (r : Ref) : Keeps (Since cfg w₀) (cfg.closeWriter r) := by
  intro w h
  have hreleased := h.release r
  refine wp_closeWriter cfg r (fun _ => hreleased) fun wr hwr hdirty => ?_
  refine wp_call cfg _ _ (fun d hd => ?_) fun _ _ => hreleased
  have hsaved : Saved cfg w₀ (Function.update w.disk (w.heap r).vfs d) := by
    rw [h.vfs r] at hd ⊢
    exact h.saved.save (h.pending r wr hwr hdirty) hdirty hd
  exact ⟨⟨hreleased.fids, hreleased.path, hreleased.opened, hsaved⟩, hreleased.vfs,
    hreleased.pending⟩

theorem keeps_closeConflictingWriter (r : Ref) :
    Keeps (Since cfg w₀) (cfg.closeConflictingWriter r) := by
  refine keeps_bind (keeps_fidAt r) fun f => keeps_bind keeps_get fun w => ?_
  split
  · exact keeps_pure _
  · exact keeps_ite (keeps_closeWriter cfg w₀ _) (keeps_pure _)

/-- A writer just opened has nothing pending. -/
theorem Since.adopt {cfg : Config V σ} {w₀ w : World V σ} (h : Since cfg w₀ w) (r : Ref)
    (k : V × Path) {wr : Writer} (hclean : wr.dirty = false) :
    Since cfg w₀ { w.setFid r { w.heap r with
        writer := some wr, writerPath := some (w.heap r).path } with
      owners := Function.update w.owners k (some r) } := by
  have hset := h.setFid r (f := { w.heap r with
    writer := some wr, writerPath := some (w.heap r).path }) rfl rfl rfl fun wr' hwr' hd => by
      cases hwr'
      rw [hclean] at hd
      cases hd
  exact ⟨⟨hset.fids, hset.path, hset.opened, hset.saved⟩, hset.vfs, hset.pending⟩

theorem keeps_openWriter_append (r : Ref) : Keeps (Since cfg w₀) (cfg.openWriter r true) := by
  refine keeps_bind (keeps_fidAt r) fun f => keeps_ite ?_ (keeps_pure _)
  refine keeps_bind (keeps_closeConflictingWriter cfg w₀ r) fun _ =>
    keeps_bind (keeps_closeWriter cfg w₀ r) fun _ => ?_
  intro w h
  rw [wp_bind]
  unfold Config.openWriteAt
  simp only [if_true]
  rw [wp_ite]
  refine ⟨fun _ => ?_, fun _ => h⟩
  rw [wp_bind]
  refine wp_readBlob cfg _ _ (fun bytes _ => ?_) fun _ _ => h
  rw [wp_pure, wp_bind, wp_modifyFid, wp_bind, wp_modify, wp_pure]
  exact h.adopt r (f.vfs, f.path) rfl

theorem keeps_closeAll (refs : List Ref) : Keeps (Since cfg w₀) (cfg.closeAll refs) := by
  induction refs with
  | nil => exact keeps_pure _
  | cons r refs ih =>
    refine keeps_bind ?_ fun failed => keeps_bind ih fun _ => ?_
    · intro w h
      rw [wp_tryCatch, wp_bind]
      exact (keeps_closeWriter cfg w₀ r w h).mono (fun _ _ hw => hw) fun _ _ hw => hw
    · cases failed with
      | none => exact keeps_pure _
      | some e => exact keeps_throw e

end Keeping

section Failing

variable (cfg : Config V σ) (w₀ : World V σ)

/-- A reply other than Rlerror. -/
def Answer (body : Body) : Prop := body.type ≠ .rlerror

/-- If the handler throws, nothing is changed; if it returns, it does not reply Rlerror. -/
def Atomic (x : Handler V σ Body) : Prop :=
  Spares (Since cfg w₀) (Unchanged cfg w₀) Answer x

variable {cfg w₀}

theorem atomic_pure {body : Body} (h : Answer body) : Atomic cfg w₀ (pure body) := spares_pure h

theorem atomic_throw (e : Fault) : Atomic cfg w₀ (throw e) := spares_throw fun _ h => h.toUnchanged

theorem atomic_bind {α : Type} {x : Handler V σ α} {f : α → Handler V σ Body}
    (hx : Keeps (Since cfg w₀) x) (hf : ∀ a, Atomic cfg w₀ (f a)) : Atomic cfg w₀ (x >>= f) :=
  hx.spares_bind (fun _ h => h.toUnchanged) hf

omit [DecidableEq V] in
theorem quiet_reply (rec : VfsRecord) {f : Qid → Body} (hf : ∀ qid, Answer (f qid)) :
    Quiet Answer (do return f (← Config.qidOf rec) : Handler V σ Body) := by
  intro w _
  rw [wp_bind]
  exact wp_qidOf rec fun qid _ _ => hf qid

theorem atomic_reply (rec : VfsRecord) {f : Qid → Body} (hf : ∀ qid, Answer (f qid)) :
    Atomic cfg w₀ (do return f (← Config.qidOf rec)) :=
  (quiet_reply rec hf).spares

/-- A mutating call that is rejected changed nothing. -/
theorem spares_call (v : V) (c : Call) :
    Spares (Since cfg w₀) (Unchanged cfg w₀) (fun _ => True) (cfg.call v c) :=
  fun _ h => wp_call cfg v c (fun _ _ => trivial) fun _ _ => h.toUnchanged

omit [DecidableEq V] in
theorem quiet_dropFid (cid fid : ℕ) : Quiet (fun _ => True) (cfg.dropFid cid fid) := by
  intro w _
  unfold Config.dropFid
  rw [wp_bind]
  exact wp_conn cfg cid fun _ _ _ _ => trivial

omit [DecidableEq V] in
theorem quiet_bindFid (cid fid : ℕ) (v : V) (p : Path) :
    Quiet (fun _ => True) (cfg.bindFid cid fid v p) := by
  intro w _
  unfold Config.bindFid
  rw [wp_bind]
  exact wp_conn cfg cid fun _ _ _ _ => trivial

/-- Nothing after a bound fid can fail. -/
theorem atomic_bindFid (cid fid : ℕ) (v : V) (p : Path) {f : Unit → Handler V σ Body}
    (hf : Quiet Answer (f ())) : Atomic cfg w₀ (cfg.bindFid cid fid v p >>= f) :=
  (quiet_bindFid cid fid v p).spares.bind_quiet fun _ => hf

omit [DecidableEq V] in
theorem quiet_drop_reply (cid fid : ℕ) (body : Body) (h : Answer body) :
    Quiet Answer (do cfg.dropFid cid fid; return body) :=
  (quiet_dropFid cid fid).bind_quiet fun _ => spares_pure h

theorem atomic_tversion (cid msize : ℕ) (version : Utf16) :
    Atomic cfg w₀ (cfg.tversion cid msize version) := by
  intro w h
  unfold Config.tversion
  rw [wp_bind]
  refine wp_conn cfg cid fun c hc _ hfids => ?_
  rw [wp_bind, wp_setConn]
  have hkept : ∀ fid, (Conn.mk (min (if msize = 0 then 8192 else msize) cfg.maxMsize)
      c.fids).fids.get fid = ref (cfg.touch w cid) cid fid :=
    fun fid => (hfids fid).trans (ref_touch cfg w cid cid fid).symm
  have hset := (h.touch cid).setConn hkept
  rw [wp_bind]
  refine (keeps_closeAll cfg w₀ c.fids.values _ hset).mono (fun _ w' _ => ?_)
    fun _ _ h' => h'.toUnchanged
  rw [wp_bind, wp_setConn, wp_bind, wp_modify, wp_pure]
  exact P9.noConfusion

theorem atomic_tattach (cid fid : ℕ) (aname : Utf16) :
    Atomic cfg w₀ (cfg.tattach cid fid aname) := by
  refine atomic_bind (keeps_lift _) fun found => ?_
  refine atomic_bind (keeps_stat cfg _ _) fun rec => ?_
  cases rec with
  | none => exact atomic_throw _
  | some rec => exact atomic_bindFid cid fid _ _ (quiet_reply rec fun _ => P9.noConfusion)

theorem atomic_twalk (cid fid newfid : ℕ) (wnames : List Utf16) :
    Atomic cfg w₀ (cfg.twalk cid fid newfid wnames) := by
  refine atomic_bind (keeps_getFid cfg w₀ cid fid) fun r => atomic_bind (keeps_fidAt r) fun f => ?_
  refine atomic_bind (keeps_walk cfg since_interns _ wnames _ _) fun found => ?_
  obtain ⟨qids, cur⟩ := found
  by_cases hfull : qids.length = wnames.length
  · simp only [if_pos hfull]
    exact atomic_bindFid cid newfid _ cur (spares_pure P9.noConfusion)
  · simp only [if_neg hfull]
    exact atomic_pure P9.noConfusion

theorem atomic_tgetattr (cid fid : ℕ) : Atomic cfg w₀ (cfg.tgetattr cid fid) := by
  refine atomic_bind (keeps_getFid cfg w₀ cid fid) fun r => atomic_bind (keeps_fidAt r) fun f => ?_
  refine atomic_bind (keeps_stat cfg _ _) fun rec => ?_
  cases rec with
  | none => exact atomic_throw _
  | some rec =>
    exact atomic_bind (keeps_sizeOf cfg _ rec) fun size => atomic_reply rec fun _ => P9.noConfusion

theorem atomic_writeBytes (v : V) (p : Path) (bytes : List UInt8) {body : Body} (h : Answer body) :
    Atomic cfg w₀ (do cfg.writeBytes v p bytes; return body) :=
  (spares_call v _).bind_quiet fun _ => spares_pure h

/-- The writer's new bytes are not acknowledged before they are saved. -/
theorem atomic_replaceBytes (r : Ref) (v : V) (wr : Writer) (bytes : List UInt8) {body : Body}
    (h : Answer body) : Atomic cfg w₀ (do cfg.replaceBytes r v wr bytes; return body) := by
  refine Spares.bind_quiet ?_ fun _ => spares_pure h
  intro w hs
  unfold Config.replaceBytes
  rw [wp_bind, wp_modifyFid, wp_ite]
  refine ⟨fun _ => ?_, fun _ => trivial⟩
  have hset := (hs.setFid r (f := { w.heap r with writer := none }) rfl rfl rfl
    fun wr hwr => by cases hwr).toUnchanged
  have hgrown : Unchanged cfg w₀
      (w.setFid r { w.heap r with writer := some ⟨wr.path, bytes, true⟩ }) := by
    refine ⟨hset.fids, fun r' => ?_, fun r' => ?_, hset.saved⟩
    · rw [← hset.path r']
      by_cases heq : r' = r
      · rw [heq, setFid_heap_self, setFid_heap_self]
      · rw [setFid_heap_of_ne w _ heq, setFid_heap_of_ne w _ heq]
    · rw [← hset.opened r']
      by_cases heq : r' = r
      · rw [heq, setFid_heap_self, setFid_heap_self]
      · rw [setFid_heap_of_ne w _ heq, setFid_heap_of_ne w _ heq]
  unfold Config.save
  rw [wp_bind]
  exact wp_call cfg v _ (fun _ _ => trivial) fun _ _ => hgrown

theorem atomic_resize (r : Ref) (f : Fid V) (size : ℕ) :
    Atomic cfg w₀ (Config.tsetattr.resize cfg r f size) := by
  refine atomic_bind (keeps_closeWriter cfg w₀ r) fun _ => atomic_bind (keeps_stat cfg _ _)
    fun rec => ?_
  cases rec with
  | none => exact atomic_pure P9.noConfusion
  | some rec =>
    by_cases hfolder : rec.type = .folder
    · simp only [if_pos hfolder]
      exact atomic_pure P9.noConfusion
    · simp only [if_neg hfolder]
      exact atomic_bind (keeps_readBytes cfg _ _) fun cur => atomic_writeBytes _ _ _ P9.noConfusion

theorem atomic_tsetattr (cid fid valid size : ℕ) :
    Atomic cfg w₀ (cfg.tsetattr cid fid valid size) := by
  refine atomic_bind (keeps_getFid cfg w₀ cid fid) fun r => ?_
  by_cases hvalid : valid &&& setattrSize = 0
  · simp only [if_pos hvalid]
    exact atomic_pure P9.noConfusion
  · simp only [if_neg hvalid]
    refine atomic_bind (keeps_fidAt r) fun f => ?_
    cases f.writer with
    | none => exact atomic_resize r f size
    | some wr =>
      by_cases hsize : size ≤ wr.bytes.length
      · simp only [if_pos hsize]
        exact atomic_replaceBytes r _ wr _ P9.noConfusion
      · simp only [if_neg hsize]
        exact atomic_resize r f size

theorem atomic_treadlink (cid fid : ℕ) : Atomic cfg w₀ (cfg.treadlink cid fid) := by
  refine atomic_bind (keeps_getFid cfg w₀ cid fid) fun r => atomic_bind (keeps_fidAt r) fun f => ?_
  refine atomic_bind (keeps_stat cfg _ _) fun rec => ?_
  cases rec with
  | none => exact atomic_throw _
  | some rec =>
    by_cases halias : rec.type = .alias
    · simp only [if_pos halias]
      exact atomic_pure P9.noConfusion
    · simp only [if_neg halias]
      exact atomic_throw _

theorem atomic_tread (cid fid offset count : ℕ) :
    Atomic cfg w₀ (cfg.tread cid fid offset count) := by
  refine atomic_bind (keeps_getFid cfg w₀ cid fid) fun r => atomic_bind (keeps_fidAt r) fun f => ?_
  refine atomic_bind (keeps_stat cfg _ _) fun rec => ?_
  cases rec with
  | none => exact atomic_throw _
  | some rec =>
    by_cases hfolder : rec.type = .folder
    · simp only [if_pos hfolder]
      exact atomic_throw _
    · simp only [if_neg hfolder]
      exact atomic_bind (keeps_readBytes cfg _ _) fun buf => atomic_pure P9.noConfusion

theorem keeps_reopen (offset : ℕ) (r : Ref) (f : Fid V) :
    Keeps (Since cfg w₀) (Config.twrite.reopen cfg offset r f) := by
  refine keeps_ite ?_ (keeps_pure _)
  refine keeps_bind (keeps_stat cfg _ _) fun rec => keeps_bind ?_ fun size => ?_
  · cases rec with
    | none => exact keeps_pure 0
    | some rec => exact keeps_sizeOf cfg _ rec
  · exact keeps_ite (keeps_bind (keeps_openWriter_append cfg w₀ r) fun _ => keeps_pure _)
      (keeps_pure _)

theorem atomic_readModifyWrite (offset : ℕ) (data : List UInt8) (r : Ref) (f : Fid V) :
    Atomic cfg w₀ (Config.twrite.readModifyWrite cfg offset data r f) :=
  atomic_bind (keeps_closeWriter cfg w₀ r) fun _ =>
    atomic_bind (keeps_readBytes cfg _ _) fun _ => atomic_writeBytes _ _ _ P9.noConfusion

theorem atomic_twrite (cid fid offset : ℕ) (data : List UInt8) :
    Atomic cfg w₀ (cfg.twrite cid fid offset data) := by
  refine atomic_bind (keeps_getFid cfg w₀ cid fid) fun r => ?_
  refine atomic_bind (keeps_closeConflictingWriter cfg w₀ r) fun _ =>
    atomic_bind (keeps_fidAt r) fun f => ?_
  refine atomic_bind (keeps_reopen offset r f) fun _ => atomic_bind (keeps_fidAt r) fun f' => ?_
  cases f'.writer with
  | none => exact atomic_readModifyWrite offset data r f
  | some wr =>
    by_cases hoffset : offset = wr.bytes.length
    · simp only [if_pos hoffset]
      exact atomic_replaceBytes r _ wr _ P9.noConfusion
    · simp only [if_neg hoffset]
      exact atomic_readModifyWrite offset data r f

theorem atomic_treaddir (cid fid offset count : ℕ) :
    Atomic cfg w₀ (cfg.treaddir cid fid offset count) := by
  refine atomic_bind (keeps_getFid cfg w₀ cid fid) fun r => atomic_bind (keeps_fidAt r) fun f => ?_
  have hreload : Atomic cfg w₀ (Config.treaddir.reload cfg offset count r f) :=
    atomic_bind (keeps_loadDirents cfg since_interns _ _) fun dirents w _ => P9.noConfusion
  cases f.dirents with
  | none => exact hreload
  | some dirents =>
    by_cases hoffset : offset = 0
    · simp only [if_pos hoffset]
      exact hreload
    · simp only [if_neg hoffset]
      exact atomic_pure P9.noConfusion

theorem atomic_tclunk (cid fid : ℕ) : Atomic cfg w₀ (cfg.tclunk cid fid) :=
  atomic_bind (keeps_getFid cfg w₀ cid fid) fun r =>
    atomic_bind (keeps_closeWriter cfg w₀ r) fun _ =>
      (quiet_drop_reply cid fid .rclunk P9.noConfusion).spares

theorem atomic_tremove (cid fid : ℕ) : Atomic cfg w₀ (cfg.tremove cid fid) :=
  atomic_bind (keeps_getFid cfg w₀ cid fid) fun r =>
    atomic_bind (keeps_closeWriter cfg w₀ r) fun _ => atomic_bind (keeps_fidAt r) fun _ =>
      (spares_call _ _).bind_quiet fun _ => quiet_drop_reply cid fid .rremove P9.noConfusion

theorem atomic_tunlinkat (cid dirfid : ℕ) (name : Utf16) :
    Atomic cfg w₀ (cfg.tunlinkat cid dirfid name) :=
  atomic_bind (keeps_getFid cfg w₀ cid dirfid) fun r => atomic_bind (keeps_fidAt r) fun _ =>
    atomic_bind (keeps_lift _) fun _ =>
      (spares_call _ _).bind_quiet fun _ => spares_pure P9.noConfusion

theorem atomic_trename (cid fid dfid : ℕ) (name : Utf16) :
    Atomic cfg w₀ (cfg.trename cid fid dfid name) := by
  refine atomic_bind (keeps_getFid cfg w₀ cid fid) fun r =>
    atomic_bind (keeps_getFid cfg w₀ cid dfid) fun d => atomic_bind (keeps_fidAt d) fun _ => ?_
  refine atomic_bind (keeps_lift _) fun dst => atomic_bind (keeps_closeWriter cfg w₀ r) fun _ =>
    atomic_bind (keeps_fidAt r) fun _ => ?_
  -- the fid takes the new path once the move is done
  exact (spares_call _ _).bind_quiet fun _ w _ => P9.noConfusion

theorem atomic_trenameat (cid olddirfid : ℕ) (oldname : Utf16) (newdirfid : ℕ) (newname : Utf16) :
    Atomic cfg w₀ (cfg.trenameat cid olddirfid oldname newdirfid newname) := by
  refine atomic_bind (keeps_getFid cfg w₀ cid olddirfid) fun r =>
    atomic_bind (keeps_fidAt r) fun _ => ?_
  refine atomic_bind (keeps_getFid cfg w₀ cid newdirfid) fun r' =>
    atomic_bind (keeps_fidAt r') fun _ => ?_
  exact atomic_bind (keeps_lift _) fun _ => atomic_bind (keeps_lift _) fun _ =>
    (spares_call _ _).bind_quiet fun _ => spares_pure P9.noConfusion

theorem atomic_tfsync (cid fid : ℕ) : Atomic cfg w₀ (cfg.tfsync cid fid) := by
  refine atomic_bind (keeps_getFid cfg w₀ cid fid) fun r => atomic_bind (keeps_fidAt r) fun f => ?_
  cases f.writer with
  | none => exact atomic_pure P9.noConfusion
  | some wr =>
    refine Spares.bind_quiet ?_ fun _ => spares_pure P9.noConfusion
    unfold Config.flush
    by_cases hdirty : wr.dirty = true
    · simp only [if_pos hdirty]
      exact (spares_call _ _).bind_quiet fun _ _ _ => trivial
    · simp only [if_neg hdirty]
      exact spares_pure trivial

end Failing

section Settled

variable (cfg : Config V σ)

omit [DecidableEq V] in
/-- The path is found. -/
def found (v : V) (d : σ) (p : Path) : Bool :=
  match (cfg.backend v).stat d p with
  | .ok (some _) => true
  | _ => false

omit [DecidableEq V] in
/-- The entries of a directory can be read. -/
def listable (v : V) (d : σ) (dir : Path) : Bool :=
  (cfg.backend v).stat d (parentOf dir) matches .ok _ && (cfg.backend v).list d dir matches .ok _

/-- A call on a name below a directory fid is rejected, or its path is found afterwards. -/
def made (w : World V σ) (cid fid : ℕ) (name : Utf16) (c : Path → Call) : Bool :=
  onFid w cid fid fun r => onName (w.heap r).path name fun p =>
    match (cfg.backend (w.heap r).vfs).apply (w.disk (w.heap r).vfs) (c p) with
    | .error _ => true
    | .ok d => found cfg (w.heap r).vfs d p

/-- The request cannot fail half-way: an unopened directory fid is only opened when its
entries can be read, and what is created is found. Tlcreate may also fail by the fid's
own writer, or without moving the fid. -/
def Config.settles (w : World V σ) (cid : ℕ) : Body → Bool
  | .tlopen fid _ => onFid w cid fid fun r => (w.heap r).opened ||
      match (cfg.backend (w.heap r).vfs).stat (w.disk (w.heap r).vfs) (w.heap r).path with
      | .ok (some rec) => decide (rec.type ≠ .folder) ||
        listable cfg (w.heap r).vfs (w.disk (w.heap r).vfs) (w.heap r).path
      | _ => true
  | .tlcreate fid name _ _ _ => onFid w cid fid fun r => onName (w.heap r).path name fun p =>
      match cfg.closeWriter r w with
      | .error _ _ => true
      | .ok _ w₁ =>
        match cfg.emptyFile r (w.heap r).vfs p (w₁.setFid r { w₁.heap r with path := p }) with
        | .error _ _ => decide (p = (w.heap r).path)
        | .ok _ w₂ => found cfg (w.heap r).vfs (w₂.disk (w.heap r).vfs) p
  | .tmkdir dfid name _ _ => made cfg w cid dfid name .mkdir
  | .tsymlink fid name symtgt _ => made cfg w cid fid name fun p => .write p (.alias symtgt)
  | _ => true

end Settled

section Frames

variable {cfg : Config V σ} {w : World V σ}

/-- On failure the world is unchanged, on success the reply is not Rlerror. -/
abbrev Settles (cfg : Config V σ) (w : World V σ) (x : Handler V σ Body) : Prop :=
  Wp x (fun body _ => Answer body) (fun _ => Unchanged cfg w) w

theorem Atomic.settles {x : Handler V σ Body} (h : Atomic cfg w x) : Settles cfg w x :=
  h w (Since.refl w)

omit [DecidableEq V] in
theorem found_spec {v : V} {d : σ} {p : Path} (h : found cfg v d p = true) :
    ∃ rec, (cfg.backend v).stat d p = .ok (some rec) := by
  unfold found at h
  split at h
  · exact ⟨_, ‹_›⟩
  · cases h

omit [DecidableEq V] in
/-- The entries are read without a throw. -/
theorem wp_loadDirents {v : V} {dir : Path} {R : Fault → World V σ → Prop}
    (hself : ∃ rec, (cfg.backend v).stat (w.disk v) dir = .ok (some rec))
    (h : listable cfg v (w.disk v) dir = true) :
    Wp (cfg.loadDirents v dir) (fun _ _ => True) R w := by
  obtain ⟨rec, hrec⟩ := hself
  unfold listable at h
  rw [Bool.and_eq_true] at h
  unfold Config.loadDirents
  rw [wp_bind]
  refine wp_stat cfg v dir (fun found hfound => ?_) fun e he => ?_
  · rw [hrec] at hfound
    cases hfound
    simp only
    rw [wp_bind]
    refine wp_stat cfg v _ (fun parent _ => ?_) fun e he => ?_
    · rw [wp_bind]
      refine wp_list cfg v dir (fun kids _ => ?_) fun e he => ?_
      · refine (quiet_mapM (fun e => ?_) _).wp w
        intro w' _
        rw [wp_bind]
        exact wp_qidOf _ fun _ _ _ => trivial
      · rw [he] at h
        simp at h
    · rw [he] at h
      simp at h
  · rw [hrec] at he
    cases he

theorem settles_tlopen {cid fid flags : ℕ} (h : cfg.settles w cid (.tlopen fid flags) = true) :
    Settles cfg w (cfg.tlopen cid fid flags) := by
  have hs : Since cfg w w := Since.refl w
  unfold Config.tlopen
  rw [Settles, wp_bind]
  refine wp_getFid cfg cid fid (fun r hr => ?_) fun _ => (hs.touch cid).toUnchanged
  rw [wp_bind, wp_fidAt, wp_bind]
  refine wp_stat cfg _ _ (fun rec hrec => ?_) fun _ _ => hs.toUnchanged
  cases rec with
  | none => exact hs.toUnchanged
  | some rec =>
    by_cases hfolder : rec.type = .folder
    · simp only [if_pos hfolder]
      rw [wp_bind, wp_modifyFid, wp_bind]
      have hafter : ∀ dirents w', Wp (do
          Config.modifyFid r fun f => { f with dirents := some dirents }
          return Body.rlopen (← Config.qidOf rec) 0 : Handler V σ Body)
          (fun body _ => Answer body) (fun _ => Unchanged cfg w) w' := by
        intro dirents w'
        rw [wp_bind, wp_modifyFid]
        exact (quiet_reply rec (f := fun qid => .rlopen qid 0) fun _ => P9.noConfusion).wp _
      have hcond := onFid_spec h hr
      rw [Bool.or_eq_true, hrec] at hcond
      rcases hcond with hopened | hlist
      · -- a fid that was open stays open
        have hset := hs.setFid r (f := { w.heap r with opened := true }) rfl hopened.symm rfl
          fun _ hwr _ => hwr
        exact (keeps_loadDirents cfg since_interns _ _ _ hset).mono (fun dirents w' _ =>
          hafter dirents w')
          fun _ _ hw => hw.toUnchanged
      · rw [Bool.or_eq_true] at hlist
        rcases hlist with hfile | hlist
        · exact absurd hfolder (by simpa using hfile)
        · have hload := wp_loadDirents (w := w.setFid r { w.heap r with opened := true })
            (R := fun _ => Unchanged cfg w) ⟨rec, hrec⟩ hlist
          exact hload.mono (fun dirents w' _ => hafter dirents w') fun _ _ hw => hw
    · simp only [if_neg hfolder]
      have hlast : ∀ w', Wp (do
          Config.modifyFid r fun f => { f with opened := true, dirents := none }
          return Body.rlopen (← Config.qidOf rec) 0 : Handler V σ Body)
          (fun body _ => Answer body) (fun _ => Unchanged cfg w) w' := by
        intro w'
        rw [wp_bind, wp_modifyFid]
        exact (quiet_reply rec (f := fun qid => .rlopen qid 0) fun _ => P9.noConfusion).wp _
      -- a failure to open a writer is caught
      have hcaught : ∀ x : Handler V σ Unit, Wp (tryCatch x fun _ => pure ())
          (fun _ _ => True) (fun _ => Unchanged cfg w) w := by
        intro x
        rw [wp_tryCatch]
        unfold Wp
        cases x w <;> trivial
      by_cases hflags : flags &&& oTrunc = 0
      · simp only [if_pos hflags]
        rw [wp_bind]
        exact (hcaught _).mono (fun _ w' _ => hlast w') fun _ _ hw => hw
      · simp only [if_neg hflags]
        rw [wp_bind]
        exact (hcaught _).mono (fun _ w' _ => hlast w') fun _ _ hw => hw

theorem settles_make {cid fid : ℕ} {name : Utf16} {c : Path → Call} {f : Qid → Body}
    (hf : ∀ qid, Answer (f qid)) (h : made cfg w cid fid name c = true) :
    Settles cfg w (do return f (← cfg.make cid fid name c)) := by
  have hs : Since cfg w w := Since.refl w
  unfold Config.make
  rw [Settles, wp_bind, wp_bind]
  refine wp_getFid cfg cid fid (fun r hr => ?_) fun _ => (hs.touch cid).toUnchanged
  rw [wp_bind, wp_fidAt, wp_bind]
  refine wp_lift _ (fun p hp => ?_) fun _ _ => hs.toUnchanged
  have hmade := onName_spec (onFid_spec h hr) hp
  rw [wp_bind]
  refine wp_call cfg _ _ (fun d hd => ?_) fun _ _ => hs.toUnchanged
  rw [hd] at hmade
  obtain ⟨rec, hrec⟩ := found_spec hmade
  have hdisk : (w.setDisk (w.heap r).vfs d).disk (w.heap r).vfs = d := Function.update_self ..
  rw [wp_bind]
  refine wp_stat cfg _ _ (fun found hfound => ?_) fun e he => ?_
  · rw [hdisk, hrec] at hfound
    cases hfound
    exact wp_qidOf rec fun qid _ _ => hf qid
  · rw [hdisk, hrec] at he
    cases he

/-- Opening a writer fails without a trace, and a backend that does not stream keeps all. -/
theorem wp_openWriter {w' : World V σ} (h : Since cfg w w') (r : Ref) (append : Bool) :
    Wp (cfg.openWriter r append) (fun streamed w'' => streamed = true ∨ Since cfg w w'')
      (fun _ => Unchanged cfg w) w' := by
  unfold Config.openWriter
  rw [wp_bind, wp_fidAt, wp_ite]
  refine ⟨fun _ => ?_, fun _ => .inr h⟩
  rw [wp_bind]
  refine (keeps_closeConflictingWriter cfg w r w' h).mono (fun _ w₁ h₁ => ?_)
    fun _ _ he => he.toUnchanged
  rw [wp_bind]
  refine (keeps_closeWriter cfg w r w₁ h₁).mono (fun _ w₂ h₂ => ?_) fun _ _ he => he.toUnchanged
  rw [wp_bind]
  have hopen : Wp (cfg.openWriteAt (w'.heap r).vfs (w'.heap r).path append) (fun _ _ => True)
      (fun _ => Unchanged cfg w) w₂ := by
    unfold Config.openWriteAt
    cases append with
    | true =>
      simp only [if_true]
      rw [wp_ite]
      refine ⟨fun _ => ?_, fun _ => h₂.toUnchanged⟩
      rw [wp_bind]
      exact wp_readBlob cfg _ _ (fun _ _ => trivial) fun _ _ => h₂.toUnchanged
    | false =>
      exact ((spares_call _ _).bind_quiet fun _ => spares_pure trivial : Spares _ _ _ _) w₂ h₂
  exact hopen.mono (fun wr w₃ _ => .inl rfl) fun _ _ he => he

/-- A file that cannot be emptied or made stays as it is. -/
theorem spares_emptyFile (r : Ref) (v : V) (p : Path) :
    Spares (Since cfg w) (Unchanged cfg w) (fun _ => True) (cfg.emptyFile r v p) := by
  intro w' h
  unfold Config.emptyFile
  rw [wp_bind]
  refine (wp_openWriter h r false).mono (fun streamed w'' hw => ?_) fun _ _ he => he
  cases streamed with
  | true => trivial
  | false =>
    rcases hw with hfalse | hsince
    · cases hfalse
    · exact spares_call _ _ w'' hsince

theorem settles_tlcreate {cid fid flags mode gid : ℕ} {name : Utf16}
    (h : cfg.settles w cid (.tlcreate fid name flags mode gid) = true) :
    Settles cfg w (cfg.tlcreate cid fid name) := by
  have hs : Since cfg w w := Since.refl w
  unfold Config.tlcreate
  rw [Settles, wp_bind]
  refine wp_getFid cfg cid fid (fun r hr => ?_) fun _ => (hs.touch cid).toUnchanged
  rw [wp_bind, wp_fidAt, wp_bind]
  refine wp_lift _ (fun p hp => ?_) fun _ _ => hs.toUnchanged
  have hcond := onName_spec (onFid_spec h hr) hp
  have hclosed := keeps_closeWriter cfg w r w hs
  rw [wp_bind]
  unfold Wp at hclosed ⊢
  cases hclose : cfg.closeWriter r w with
  | error e w₁ =>
    rw [hclose] at hclosed
    exact hclosed.toUnchanged
  | ok u w₁ =>
    rw [hclose] at hclosed hcond
    simp only at hclosed hcond ⊢
    change Wp _ _ _ w₁
    rw [wp_bind, wp_modifyFid, wp_bind]
    unfold Wp
    cases hempty : cfg.emptyFile r (w.heap r).vfs p (w₁.setFid r { w₁.heap r with path := p }) with
    | error e w₂ =>
      rw [hempty] at hcond
      have hsame : p = (w₁.heap r).path := (of_decide_eq_true hcond).trans (hclosed.path r).symm
      have hset := hclosed.setFid r (f := { w₁.heap r with path := p }) hsame rfl rfl
        fun _ hwr _ => hwr
      have hspares : Spares (Since cfg w) (Unchanged cfg w) (fun _ => True)
          (cfg.emptyFile r (w.heap r).vfs p) := spares_emptyFile r _ p
      have hspared := hspares _ hset
      rw [Wp, hempty] at hspared
      exact hspared
    | ok u₂ w₂ =>
      rw [hempty] at hcond
      obtain ⟨rec, hrec⟩ := found_spec hcond
      simp only
      change Wp _ _ _ w₂
      rw [wp_bind]
      refine wp_stat cfg _ _ (fun found hfound => ?_) fun e he => ?_
      · rw [hrec] at hfound
        cases hfound
        rw [wp_bind, wp_modifyFid]
        exact (quiet_reply rec (f := fun qid => .rlcreate qid 0) fun _ => P9.noConfusion).wp _
      · rw [hrec] at he
        cases he

/-- Every handler, under the condition. -/
theorem settles_dispatch {cid : ℕ} {body : Body} (h : cfg.settles w cid body = true) :
    Settles cfg w (cfg.dispatch cid body) := by
  have hfid : ∀ {fid : ℕ} {reply : Body}, Answer reply →
      Settles cfg w (do let _ ← cfg.getFid cid fid; return reply) := fun hreply =>
    Atomic.settles (atomic_bind (keeps_getFid cfg w cid _) fun _ => atomic_pure hreply)
  cases body with
  | tversion msize version => exact (atomic_tversion cid msize version).settles
  | tattach fid afid uname aname nUname => exact (atomic_tattach cid fid aname).settles
  | twalk fid newfid wnames => exact (atomic_twalk cid fid newfid wnames).settles
  | tgetattr fid requestMask => exact (atomic_tgetattr cid fid).settles
  | tsetattr fid valid mode uid gid size _ _ _ _ =>
    exact (atomic_tsetattr cid fid valid size).settles
  | tlopen fid flags => exact settles_tlopen h
  | tlcreate fid name flags mode gid => exact settles_tlcreate h
  | tmkdir dfid name mode gid => exact settles_make (fun _ => P9.noConfusion) h
  | tsymlink fid name symtgt gid => exact settles_make (fun _ => P9.noConfusion) h
  | treadlink fid => exact (atomic_treadlink cid fid).settles
  | tread fid offset count => exact (atomic_tread cid fid offset count).settles
  | twrite fid offset data => exact (atomic_twrite cid fid offset data).settles
  | treaddir fid offset count => exact (atomic_treaddir cid fid offset count).settles
  | tclunk fid => exact (atomic_tclunk cid fid).settles
  | tremove fid => exact (atomic_tremove cid fid).settles
  | tunlinkat dirfid name flags => exact (atomic_tunlinkat cid dirfid name).settles
  | trename fid dfid name => exact (atomic_trename cid fid dfid name).settles
  | trenameat olddirfid oldname newdirfid newname =>
    exact (atomic_trenameat cid olddirfid oldname newdirfid newname).settles
  | tfsync fid datasync => exact (atomic_tfsync cid fid).settles
  | tstatfs fid => exact hfid P9.noConfusion
  | tlock fid locktype flags start length procId clientId => exact hfid P9.noConfusion
  | tgetlock fid locktype start length procId clientId => exact hfid P9.noConfusion
  | tflush oldtag => exact P9.noConfusion
  | _ => exact (Since.refl w).toUnchanged

/-- The frame is an Rlerror. -/
def IsRlerror (reply : List UInt8) : Prop := ∃ tag ecode, reply = encode ⟨tag, .rlerror ecode⟩

omit [DecidableEq V] in
/-- A frame tells the type of its message. -/
theorem type_of_encode_eq {m m' : P9Message} (h : encode m = encode m') :
    m.body.type = m'.body.type := by
  have hbyte : ∀ m : P9Message, (encode m)[4]? = some (UInt8.ofNat m.body.type.code) := by
    intro m
    have hsize : (Write.u32 m.wireSize).length = 4 := Bytes.leBytes_length 4 _
    rw [encode_eq, List.getElem?_append_right (by omega), hsize]
    rfl
  have hcode := Option.some.inj ((hbyte m).symm.trans ((congrArg (·[4]?) h).trans (hbyte m')))
  have hnat : m.body.type.code = m'.body.type.code := by
    have hmod := congrArg UInt8.toNat hcode
    rwa [UInt8.toNat_ofNat_of_lt' (code_lt _), UInt8.toNat_ofNat_of_lt' (code_lt _)] at hmod
  have htype := congrArg P9.ofCode hnat
  rw [ofCode_code, ofCode_code] at htype
  exact Option.some.inj htype

/-- The condition on the state before a frame. -/
def Config.Settled (cfg : Config V σ) (w : World V σ) (request : ℕ × List UInt8) : Prop :=
  match decode request.2 with
  | none => True
  | some m => cfg.settles w request.1 m.body = true

instance (cfg : Config V σ) (w : World V σ) (request : ℕ × List UInt8) :
    Decidable (cfg.Settled w request) :=
  decidable_of_iff (((decode request.2).all fun m => cfg.settles w request.1 m.body) = true) <| by
    unfold Config.Settled
    cases decode request.2 <;> simp

theorem unchanged_of_isRlerror {request : ℕ × List UInt8} (hsettled : cfg.Settled w request)
    (herror : IsRlerror (cfg.handle request.1 request.2 w).1) :
    Unchanged cfg w (cfg.serve w request) := by
  obtain ⟨cid, frame⟩ := request
  unfold Config.serve
  unfold Config.Settled at hsettled
  unfold Config.handle at herror ⊢
  cases hdecode : decode frame with
  | none => exact (Since.refl w).toUnchanged
  | some m =>
    simp only [hdecode] at hsettled herror ⊢
    have hwp := settles_dispatch hsettled
    unfold Settles Wp at hwp
    simp only [EStateM.run] at herror ⊢
    cases hd : cfg.dispatch cid m.body w with
    | error e w' =>
      rw [hd] at hwp
      exact hwp
    | ok reply w' =>
      rw [hd] at hwp herror
      obtain ⟨tag, ecode, heq⟩ := herror
      exact absurd (type_of_encode_eq heq) hwp

/-- In every state a run reaches, a request that cannot fail half-way and is answered by
Rlerror leaves the fids and the backends as they were, up to acknowledged writes. -/
theorem errors_atomic (cfg : Config V σ) (w : World V σ) (before : List (ℕ × List UInt8))
    (request : ℕ × List UInt8) (hsettled : cfg.Settled (run cfg.serve w before) request)
    (herror : IsRlerror (cfg.handle request.1 request.2 (run cfg.serve w before)).1) :
    Unchanged cfg (run cfg.serve w before) (cfg.serve (run cfg.serve w before) request) :=
  unchanged_of_isRlerror hsettled herror

end Frames

section ReadOnly

/-- Fid 0 is attached to the read-only folder "/home". -/
def attachRun : List (ℕ × List UInt8) :=
  [frame (.tattach 0 0xffffffff (ofString "u") (ofString "/") 0)]

theorem errors_atomic_mkdir :
    Unchanged homeExport (run homeExport.serve homeWorld attachRun)
      (homeExport.serve (run homeExport.serve homeWorld attachRun)
        (frame (.tmkdir 0 (ofString "x") 0o755 0))) :=
  errors_atomic homeExport homeWorld attachRun (frame (.tmkdir 0 (ofString "x") 0o755 0))
    (by decide +kernel) ⟨some 1, E.rofs, by decide +kernel⟩

/-- A create that is refused moves the fid to the file that was not made. -/
theorem refused_create_moves_fid :
    IsRlerror (homeExport.handle 0 (frame (.tlcreate 0 (ofString "x") 0 0o644 0)).2
        (run homeExport.serve homeWorld attachRun)).1 ∧
      ref (run homeExport.serve homeWorld attachRun) 0 0 = some 0 ∧
      ((run homeExport.serve homeWorld attachRun).heap 0).path = home ∧
      ((homeExport.serve (run homeExport.serve homeWorld attachRun)
        (frame (.tlcreate 0 (ofString "x") 0 0o644 0))).heap 0).path =
          home ++ [⟨ofString "x", by decide⟩] ∧
      ¬ Unchanged homeExport (run homeExport.serve homeWorld attachRun)
        (homeExport.serve (run homeExport.serve homeWorld attachRun)
          (frame (.tlcreate 0 (ofString "x") 0 0o644 0))) := by
  have hbefore : ((run homeExport.serve homeWorld attachRun).heap 0).path = home := by
    decide +kernel
  have hafter : ((homeExport.serve (run homeExport.serve homeWorld attachRun)
      (frame (.tlcreate 0 (ofString "x") 0 0o644 0))).heap 0).path =
        home ++ [⟨ofString "x", by decide⟩] := by
    decide +kernel
  refine ⟨⟨some 1, E.rofs, by decide +kernel⟩, by decide +kernel, hbefore, hafter, fun h => ?_⟩
  have hpath := h.path 0
  rw [hbefore, hafter] at hpath
  exact absurd hpath (by decide)

end ReadOnly

end NixWasm.NinepServer
