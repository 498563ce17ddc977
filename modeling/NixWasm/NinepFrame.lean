import NixWasm.NinepReadBack

/-!
What a request may touch. A handler reaches the server's tables through a few steps:
it interns qids, calls a backend, changes fid objects and the owners of writers, and
binds fids of its own connection. An invariant that survives these steps survives every
request, as long as a writer the request closes in another fid may be touched as well.
-/
namespace NixWasm.NinepServer

open Unicode Vfs NinepCodec Effects Runs

variable {V σ : Type} [DecidableEq V]

/-- The invariant survives the steps of a handler that serves the connection and only
changes fid objects in `free`. -/
structure Permits (cfg : Config V σ) (cid : ℕ) (free : Ref → Prop) (I : World V σ → Prop) :
    Prop where
  intern : ∀ w inode, I w → w.qidPaths inode = none → I { w with
    qidSeq := w.qidSeq + 1, qidPaths := Function.update w.qidPaths inode (some w.qidSeq) }
  disk : ∀ w v d, I w → I (w.setDisk v d)
  fid : ∀ w r f, free r → I w → I (w.setFid r f)
  owners : ∀ w k x, (∀ r, w.owners k = some r → free r) → (∀ r, x = some r → free r) → I w →
    I { w with owners := Function.update w.owners k x }
  bound : ∀ w c r, I w → w.conns.get cid = some c → r ∈ c.fids.values → free r
  touch : ∀ w, I w → w.conns.get cid = none →
    I { w with conns := w.conns.set cid ⟨cfg.maxMsize, JsMap.empty⟩ }
  bind : ∀ w c fid f, I w → w.conns.get cid = some c → I { w with
    heap := Function.update w.heap w.next f, next := w.next + 1,
    conns := w.conns.set cid { c with fids := c.fids.set fid w.next } }
  unbind : ∀ w c fid, I w → w.conns.get cid = some c →
    I { w with conns := w.conns.set cid { c with fids := c.fids.delete fid } }

/-- The file at which a request may close the writer of another fid. -/
def conflict (w : World V σ) (cid : ℕ) : Body → Option (V × Path)
  | .tlopen fid _ => (ref w cid fid).map fun r => ((w.heap r).vfs, (w.heap r).path)
  | .twrite fid _ _ => (ref w cid fid).map fun r => ((w.heap r).vfs, (w.heap r).path)
  | .tlcreate fid name _ _ _ => (ref w cid fid).bind fun r =>
    (joinName (w.heap r).path name).toOption.map fun p => ((w.heap r).vfs, p)
  | _ => none

namespace Permits

variable {cfg : Config V σ} {cid : ℕ} {free : Ref → Prop} {I : World V σ → Prop} {w : World V σ}

section Interning

omit [DecidableEq V]

/-- A step of a handler that keeps the invariant at both ends. -/
abbrev Preserves {α : Type} (I : World V σ → Prop) (x : Handler V σ α) (w : World V σ) : Prop :=
  Wp x (fun _ => I) (fun _ => I) w

theorem keeps_intern (hI : ∀ w inode, I w → w.qidPaths inode = none → I { w with
      qidSeq := w.qidSeq + 1, qidPaths := Function.update w.qidPaths inode (some w.qidSeq) })
    (rec : VfsRecord) : Keeps I (Config.qidOf rec : Handler V σ Qid) := by
  intro w h
  unfold Config.qidOf Config.qidPathFor
  rw [wp_bind, wp_bind, wp_get]
  split
  · exact h
  · rename_i hnone
    exact hI w _ h hnone

end Interning

section Steps

variable (h : Permits cfg cid free I)

include h

theorem qidOf (rec : VfsRecord) : Keeps I (Config.qidOf rec : Handler V σ Qid) :=
  keeps_intern h.intern rec

theorem call (v : V) (c : Call) : Keeps I (cfg.call v c) :=
  fun _ hw => wp_call cfg v c (fun d _ => h.disk _ v d hw) fun _ _ => hw

theorem loadDirents (v : V) (dir : Path) : Keeps I (cfg.loadDirents v dir) := by
  refine keeps_bind (keeps_stat cfg v dir) fun found => ?_
  cases found with
  | none => exact keeps_throw _
  | some self =>
    refine keeps_bind (keeps_stat cfg v _) fun _ => keeps_bind (keeps_list cfg v dir) fun _ => ?_
    exact keeps_mapM (fun _ => keeps_bind (h.qidOf _) fun _ => keeps_pure _) _

theorem walk (v : V) (names : List Utf16) : ∀ first cur, Keeps I (cfg.walk v first cur names) := by
  induction names with
  | nil => exact fun _ _ => keeps_pure _
  | cons name names ih =>
    intro first cur
    refine keeps_bind (keeps_lift _) fun next => keeps_bind (keeps_stat cfg v next) fun found => ?_
    cases found with
    | none => exact keeps_ite (keeps_throw _) (keeps_pure _)
    | some rec =>
      exact keeps_bind (h.qidOf rec) fun _ => keeps_bind (ih false next) fun _ => keeps_pure _

theorem modifyFid {r : Ref} (hr : free r) (f : Fid V → Fid V) :
    Keeps I (Config.modifyFid r f : Handler V σ Unit) := by
  intro w hw
  rw [wp_modifyFid]
  exact h.fid w r _ hr hw

theorem touched (hw : I w) : I (cfg.touch w cid) := by
  unfold Config.touch
  split
  · exact hw
  · rename_i hnone
    exact h.touch w hw hnone

theorem free_of_ref (hw : I w) {fid : ℕ} {r : Ref} (hr : ref w cid fid = some r) : free r := by
  obtain ⟨c, hc, hget⟩ := Option.bind_eq_some_iff.mp hr
  exact h.bound w c r hw hc (JsMap.mem_values_of_get hget)

theorem getFid {α : Type} {f : Ref → Handler V σ α} {fid : ℕ} (hw : I w)
    (hf : ∀ r, ref w cid fid = some r → free r → Preserves I (f r) w) :
    Preserves I (cfg.getFid cid fid >>= f) w := by
  rw [Preserves, wp_bind]
  exact wp_getFid cfg cid fid (fun r hr => hf r hr (h.free_of_ref hw hr)) fun _ => h.touched hw

theorem bindFid (fid : ℕ) (v : V) (path : Path) : Keeps I (cfg.bindFid cid fid v path) := by
  intro w hw
  unfold Config.bindFid
  rw [wp_bind]
  refine wp_conn cfg cid fun c hc _ _ => ?_
  rw [wp_bind, wp_get, wp_bind, wp_modify, wp_setConn]
  exact h.bind _ c fid _ (h.touched hw) hc

theorem dropFid (fid : ℕ) : Keeps I (cfg.dropFid cid fid) := by
  intro w hw
  unfold Config.dropFid
  rw [wp_bind]
  refine wp_conn cfg cid fun c hc _ _ => ?_
  rw [wp_setConn]
  exact h.unbind _ c fid (h.touched hw) hc

theorem released {r : Ref} (hr : free r) (hw : I w) : I (w.release r) := by
  have hset := h.fid w r { w.heap r with writer := none, writerPath := none } hr hw
  unfold World.release
  split
  · exact hset
  · rename_i path hpath
    by_cases ho : w.owners ((w.heap r).vfs, path) = some r
    · rw [if_pos ho]
      refine h.owners _ ((w.heap r).vfs, path) none (fun r' hr' => ?_)
        (fun _ hr' => by cases hr') hset
      cases ho.symm.trans hr'
      exact hr
    · rw [if_neg ho]
      exact hset

end Steps

/-- The owner of one file is free as well. -/
theorem guard (h : Permits cfg cid free I) (k : V × Path) :
    Permits cfg cid free fun w => I w ∧ ∀ r, w.owners k = some r → free r where
  intern w inode hw hnone := ⟨h.intern w inode hw.1 hnone, hw.2⟩
  disk w v d hw := ⟨h.disk w v d hw.1, hw.2⟩
  fid w r f hr hw := ⟨h.fid w r f hr hw.1, hw.2⟩
  owners w k' x hold hx hw := by
    refine ⟨h.owners w k' x hold hx hw.1, fun r hr => ?_⟩
    change Function.update w.owners k' x k = some r at hr
    by_cases heq : k = k'
    · subst heq
      rw [Function.update_self] at hr
      exact hx r hr
    · rw [Function.update_of_ne heq] at hr
      exact hw.2 r hr
  bound w c r hw hc hr := h.bound w c r hw.1 hc hr
  touch w hw hc := ⟨h.touch w hw.1 hc, hw.2⟩
  bind w c fid f hw hc := ⟨h.bind w c fid f hw.1 hc, hw.2⟩
  unbind w c fid hw hc := ⟨h.unbind w c fid hw.1 hc, hw.2⟩

section Writers

variable (h : Permits cfg cid free I)

include h

theorem closeWriter {r : Ref} (hr : free r) : Keeps I (cfg.closeWriter r) := by
  intro w hw
  have hreleased := h.released hr hw
  exact wp_closeWriter cfg r (fun _ => hreleased) fun wr _ _ => h.call _ _ _ hreleased

theorem closeConflictingWriter {r : Ref} (hw : I w)
    (hk : ∀ r', w.owners ((w.heap r).vfs, (w.heap r).path) = some r' → free r') :
    Preserves I (cfg.closeConflictingWriter r) w := by
  unfold Config.closeConflictingWriter
  refine wp_fidAt_bind ?_
  rw [wp_bind, wp_get]
  split
  · exact hw
  · rename_i owner howner
    rw [wp_ite]
    exact ⟨fun _ => h.closeWriter (hk owner howner) w hw, fun _ => hw⟩

theorem openWriteAt (v : V) (p : Path) (append : Bool) : Keeps I (cfg.openWriteAt v p append) := by
  unfold Config.openWriteAt
  cases append with
  | true =>
    rw [if_pos rfl]
    exact keeps_ite (keeps_bind (keeps_readBlob cfg v p) fun _ => keeps_pure _) (keeps_throw _)
  | false =>
    rw [if_neg Bool.false_ne_true]
    exact keeps_bind (h.call v _) fun _ => keeps_pure _

theorem openWriter {r : Ref} (hr : free r) (hw : I w)
    (hk : ∀ r', w.owners ((w.heap r).vfs, (w.heap r).path) = some r' → free r') (append : Bool) :
    Preserves I (cfg.openWriter r append) w := by
  have hguard := h.guard ((w.heap r).vfs, (w.heap r).path)
  unfold Config.openWriter
  refine wp_fidAt_bind ?_
  rw [wp_ite]
  refine ⟨fun _ => ?_, fun _ => hw⟩
  refine Wp.mono (?_ : Preserves (fun u => I u ∧
    ∀ r', u.owners ((w.heap r).vfs, (w.heap r).path) = some r' → free r') _ w)
    (fun _ _ hu => hu.1) fun _ _ hu => hu.1
  rw [Preserves, wp_bind]
  refine (hguard.closeConflictingWriter ⟨hw, hk⟩ hk).mono (fun _ u hu => ?_) fun _ _ hu => hu
  refine keeps_bind (hguard.closeWriter hr) (fun _ => ?_) u hu
  refine keeps_bind (hguard.openWriteAt _ _ append) fun writer => ?_
  refine keeps_bind (hguard.modifyFid hr _) fun _ => keeps_bind ?_ fun _ => keeps_pure _
  intro u hu
  exact hguard.owners u _ (some r) hu.2 (fun r' heq => by cases heq; exact hr) hu

theorem save {r : Ref} (hr : free r) (v : V) (wr : Writer) : Keeps I (cfg.save r v wr) :=
  keeps_bind (h.call v _) fun _ => h.modifyFid hr _

theorem replaceBytes {r : Ref} (hr : free r) (v : V) (wr : Writer) (bytes : List UInt8) :
    Keeps I (cfg.replaceBytes r v wr bytes) :=
  keeps_bind (h.modifyFid hr _) fun _ => keeps_ite (h.save hr v _) (keeps_pure _)

theorem emptyFile {r : Ref} (hr : free r) (hw : I w)
    (hk : ∀ r', w.owners ((w.heap r).vfs, (w.heap r).path) = some r' → free r') (v : V) (p : Path) :
    Preserves I (cfg.emptyFile r v p) w := by
  unfold Config.emptyFile
  rw [Preserves, wp_bind]
  refine (h.openWriter hr hw hk false).mono (fun opened u hu => ?_) fun _ _ hu => hu
  cases opened with
  | true => exact hu
  | false => exact h.call v _ u hu

theorem closeAll {refs : List Ref} (hrefs : ∀ r ∈ refs, free r) : Keeps I (cfg.closeAll refs) := by
  induction refs with
  | nil => exact keeps_pure _
  | cons r refs ih =>
    refine keeps_bind ?_ fun failed => keeps_bind
      (ih fun r' hr' => hrefs r' (List.mem_cons_of_mem r hr')) fun _ => ?_
    · intro w hw
      rw [wp_tryCatch, wp_bind]
      exact (h.closeWriter (hrefs r List.mem_cons_self) w hw).mono (fun _ _ hu => hu)
        fun _ _ hu => hu
    · cases failed with
      | none => exact keeps_pure _
      | some e => exact keeps_throw e

end Writers

/-- Closing a writer leaves the fids bound as they were. -/
theorem keeps_sameFids_closeWriter (cfg : Config V σ) (w₀ : World V σ) (r : Ref) :
    Keeps (SameFids w₀) (cfg.closeWriter r) := by
  intro w hw
  refine wp_closeWriter cfg r (fun _ => hw.release r) fun wr _ _ => ?_
  exact wp_call cfg _ _ (fun d _ => (hw.release r).setDisk _ d) fun _ _ => hw.release r

theorem keeps_sameFids_closeConflictingWriter (cfg : Config V σ) (w₀ : World V σ) (r : Ref) :
    Keeps (SameFids w₀) (cfg.closeConflictingWriter r) := by
  refine keeps_bind (keeps_fidAt r) fun f => keeps_bind keeps_get fun w => ?_
  split
  · exact keeps_pure _
  · exact keeps_ite (keeps_sameFids_closeWriter cfg w₀ _) (keeps_pure _)

section Handlers

variable (h : Permits cfg cid free I)

include h

theorem tattach (hw : I w) (fid : ℕ) (aname : Utf16) :
    Preserves I (cfg.tattach cid fid aname) w := by
  refine keeps_bind (keeps_lift _) (fun target => keeps_bind (keeps_stat cfg _ _)
    fun found => ?_) w hw
  cases found with
  | none => exact keeps_throw _
  | some rec =>
    exact keeps_bind (h.bindFid fid _ _) fun _ => keeps_bind (h.qidOf rec) fun _ => keeps_pure _

theorem twalk (hw : I w) (fid newfid : ℕ) (wnames : List Utf16) :
    Preserves I (cfg.twalk cid fid newfid wnames) w := by
  refine h.getFid hw fun r _ hr => wp_fidAt_bind ?_
  refine keeps_bind (h.walk _ wnames true _) (fun walked => ?_) w hw
  obtain ⟨qids, cur⟩ := walked
  by_cases hfull : qids.length = wnames.length
  · simp only [if_pos hfull]
    exact keeps_bind (h.bindFid newfid _ _) fun _ => keeps_pure _
  · simp only [if_neg hfull]
    exact keeps_pure _

theorem tgetattr (hw : I w) (fid : ℕ) : Preserves I (cfg.tgetattr cid fid) w := by
  refine h.getFid hw fun r _ hr => wp_fidAt_bind ?_
  refine keeps_bind (keeps_stat cfg _ _) (fun found => ?_) w hw
  cases found with
  | none => exact keeps_throw _
  | some rec =>
    exact keeps_bind (keeps_sizeOf cfg _ rec) fun _ =>
      keeps_bind (h.qidOf rec) fun _ => keeps_pure _

theorem resize {r : Ref} (hr : free r) (f : Fid V) (size : ℕ) :
    Keeps I (Config.tsetattr.resize cfg r f size) := by
  refine keeps_bind (h.closeWriter hr) fun _ => keeps_bind (keeps_stat cfg _ _) fun found => ?_
  cases found with
  | none => exact keeps_pure _
  | some rec =>
    exact keeps_ite (keeps_pure _) (keeps_bind (keeps_readBytes cfg _ _) fun _ =>
      keeps_bind (h.call _ _) fun _ => keeps_pure _)

theorem tsetattr (hw : I w) (fid valid size : ℕ) :
    Preserves I (cfg.tsetattr cid fid valid size) w := by
  refine h.getFid hw fun r _ hr => keeps_ite (keeps_pure _)
    (keeps_bind (keeps_fidAt r) fun f => ?_) w hw
  split
  · exact keeps_ite (keeps_bind (h.replaceBytes hr _ _ _) fun _ => keeps_pure _)
      (h.resize hr f size)
  · exact h.resize hr f size

theorem tlopen (hw : I w) (fid flags : ℕ)
    (hk : ∀ k r, conflict w cid (.tlopen fid flags) = some k → w.owners k = some r → free r) :
    Preserves I (cfg.tlopen cid fid flags) w := by
  refine h.getFid hw fun r href hr => wp_fidAt_bind ?_
  have hkey : ∀ r', w.owners ((w.heap r).vfs, (w.heap r).path) = some r' → free r' :=
    fun r' => hk _ r' (by simp only [conflict, href, Option.map_some])
  rw [wp_bind]
  refine wp_stat cfg _ _ (fun found _ => ?_) fun _ _ => hw
  cases found with
  | none => exact hw
  | some rec =>
    have hreply : Keeps I (do return Body.rlopen (← Config.qidOf rec) 0 : Handler V σ Body) :=
      keeps_bind (h.qidOf rec) fun _ => keeps_pure _
    simp only
    split
    · exact keeps_bind (h.modifyFid hr _) (fun _ => keeps_bind (h.loadDirents _ _) fun _ =>
        keeps_bind (h.modifyFid hr _) fun _ => hreply) w hw
    · have hfinish : ∀ u, I u → Preserves I (do
          Config.modifyFid r fun f => { f with opened := true, dirents := none }
          return Body.rlopen (← Config.qidOf rec) 0) u := fun u hu =>
        keeps_bind (h.modifyFid hr _) (fun _ => hreply) u hu
      split
      · rw [wp_bind, wp_tryCatch]
        rw [wp_discard]
        exact (h.openWriter hr hw hkey true).mono (fun _ u hu => hfinish u hu)
          fun _ u hu => hfinish u hu
      · rw [wp_bind, wp_tryCatch]
        exact (h.emptyFile hr hw hkey _ _).mono (fun _ u hu => hfinish u hu)
          fun _ u hu => hfinish u hu

theorem tlcreate (hw : I w) (fid : ℕ) (name : Utf16) (flags mode gid : ℕ)
    (hk : ∀ k r, conflict w cid (.tlcreate fid name flags mode gid) = some k →
      w.owners k = some r → free r) : Preserves I (cfg.tlcreate cid fid name) w := by
  refine h.getFid hw fun r href hr => wp_fidAt_bind ?_
  rw [wp_bind]
  refine wp_lift _ (fun path hpath => ?_) fun _ _ => hw
  have hguard := h.guard ((w.heap r).vfs, path)
  have hkey : ∀ r', w.owners ((w.heap r).vfs, path) = some r' → free r' := fun r' =>
    hk _ r'
      (by simp only [conflict, href, hpath, Option.bind_some, Except.toOption, Option.map_some])
  rw [wp_bind]
  refine ((hguard.closeWriter hr w ⟨hw, hkey⟩).and
    (keeps_sameFids_closeWriter cfg w r w (SameFids.refl w))).mono (fun _ u hu => ?_)
      fun _ _ hu => hu.1.1
  rw [wp_bind, wp_modifyFid, wp_bind]
  refine (h.emptyFile hr (h.fid u r _ hr hu.1.1) (fun r' hr' => ?_) _ _).mono (fun _ u' hu' => ?_)
    fun _ _ hu' => hu'
  · rw [setFid_heap_self, hu.2.vfs] at hr'
    exact hu.1.2 r' hr'
  · refine keeps_bind (keeps_stat cfg _ _) (fun found =>
      keeps_bind (h.modifyFid hr _) fun _ => ?_) u' hu'
    exact keeps_bind (fun _ hx => wp_created found (fun _ _ => hx) fun _ => hx) fun rec =>
      keeps_bind (h.qidOf rec) fun _ => keeps_pure _

theorem make (hw : I w) (dfid : ℕ) (name : Utf16) (c : Path → Call) :
    Preserves I (cfg.make cid dfid name c) w := by
  refine h.getFid hw fun r _ hr => wp_fidAt_bind ?_
  refine keeps_bind (keeps_lift _) (fun path => keeps_bind (h.call _ _) fun _ =>
    keeps_bind (keeps_stat cfg _ _) fun found => ?_) w hw
  exact keeps_bind (fun _ hx => wp_created found (fun _ _ => hx) fun _ => hx) fun rec => h.qidOf rec

theorem treadlink (hw : I w) (fid : ℕ) : Preserves I (cfg.treadlink cid fid) w := by
  refine h.getFid hw fun r _ hr => wp_fidAt_bind ?_
  refine keeps_bind (keeps_stat cfg _ _) (fun found => ?_) w hw
  cases found with
  | none => exact keeps_throw _
  | some rec => exact keeps_ite (keeps_pure _) (keeps_throw _)

theorem tread (hw : I w) (fid offset count : ℕ) :
    Preserves I (cfg.tread cid fid offset count) w := by
  refine h.getFid hw fun r _ hr => wp_fidAt_bind ?_
  refine keeps_bind (keeps_stat cfg _ _) (fun found => ?_) w hw
  cases found with
  | none => exact keeps_throw _
  | some rec =>
    exact keeps_ite (keeps_throw _) (keeps_bind (keeps_readBytes cfg _ _) fun _ => keeps_pure _)

theorem readModifyWrite {r : Ref} (hr : free r) (offset : ℕ) (data : List UInt8) (f : Fid V) :
    Keeps I (Config.twrite.readModifyWrite cfg offset data r f) :=
  keeps_bind (h.closeWriter hr) fun _ => keeps_bind (keeps_readBytes cfg _ _) fun _ =>
    keeps_bind (h.call _ _) fun _ => keeps_pure _

theorem reopen {r : Ref} (hr : free r) (hw : I w) (f : Fid V)
    (hk : ∀ r', w.owners ((w.heap r).vfs, (w.heap r).path) = some r' → free r') (offset : ℕ) :
    Preserves I (Config.twrite.reopen cfg offset r f) w := by
  unfold Config.twrite.reopen
  rw [Preserves, wp_ite]
  refine ⟨fun _ => ?_, fun _ => hw⟩
  rw [wp_bind]
  refine wp_stat cfg _ _ (fun found _ => ?_) fun _ _ => hw
  have hopen : ∀ size, Preserves I
      (if offset = size then discard (cfg.openWriter r true)
        else pure () : Handler V σ Unit) w := by
    intro size
    rw [Preserves, wp_ite, wp_discard]
    exact ⟨fun _ => h.openWriter hr hw hk true, fun _ => hw⟩
  rw [wp_bind]
  cases found with
  | none => exact hopen 0
  | some rec =>
    change Wp (cfg.sizeOf f.vfs rec) _ _ w
    unfold Config.sizeOf
    split
    · exact hopen 0
    · exact hopen _
    · split
      · exact hopen _
      · exact hopen _

theorem twrite (hw : I w) (fid offset : ℕ) (data : List UInt8)
    (hk : ∀ k r, conflict w cid (.twrite fid offset data) = some k → w.owners k = some r → free r) :
    Preserves I (cfg.twrite cid fid offset data) w := by
  refine h.getFid hw fun r href hr => ?_
  have hguard := h.guard ((w.heap r).vfs, (w.heap r).path)
  have hkey : ∀ r', w.owners ((w.heap r).vfs, (w.heap r).path) = some r' → free r' :=
    fun r' => hk _ r' (by simp only [conflict, href, Option.map_some])
  rw [Preserves, wp_bind]
  refine ((hguard.closeConflictingWriter ⟨hw, hkey⟩ hkey).and
    (keeps_sameFids_closeConflictingWriter cfg w r w (SameFids.refl w))).mono (fun _ u hu => ?_)
    fun _ _ hu => hu.1.1
  refine wp_fidAt_bind ?_
  rw [wp_bind]
  refine (h.reopen hr hu.1.1 _ (fun r' hr' => ?_) offset).mono (fun _ u' hu' => wp_fidAt_bind ?_)
    fun _ _ hu' => hu'
  · rw [hu.2.vfs, hu.2.path] at hr'
    exact hu.1.2 r' hr'
  · split
    · exact keeps_ite (keeps_bind (h.replaceBytes hr _ _ _) fun _ => keeps_pure _)
        (h.readModifyWrite hr offset data _) u' hu'
    · exact h.readModifyWrite hr offset data _ u' hu'

theorem treaddir (hw : I w) (fid offset count : ℕ) :
    Preserves I (cfg.treaddir cid fid offset count) w := by
  refine h.getFid hw fun r _ hr => wp_fidAt_bind ?_
  have hreload : Keeps I (Config.treaddir.reload cfg offset count r (w.heap r)) :=
    keeps_bind (h.loadDirents _ _) fun _ => keeps_bind (h.modifyFid hr _) fun _ => keeps_pure _
  split
  · exact keeps_ite hreload (keeps_pure _) w hw
  · exact hreload w hw

theorem tclunk (hw : I w) (fid : ℕ) : Preserves I (cfg.tclunk cid fid) w :=
  h.getFid hw fun _ _ hr =>
    keeps_bind (h.closeWriter hr) (fun _ => keeps_bind (h.dropFid fid) fun _ => keeps_pure _) w hw

theorem tremove (hw : I w) (fid : ℕ) : Preserves I (cfg.tremove cid fid) w :=
  h.getFid hw fun r _ hr =>
    keeps_bind (h.closeWriter hr) (fun _ => keeps_bind (keeps_fidAt r) fun _ =>
      keeps_bind (h.call _ _) fun _ => keeps_bind (h.dropFid fid) fun _ => keeps_pure _) w hw

theorem tunlinkat (hw : I w) (dirfid : ℕ) (name : Utf16) :
    Preserves I (cfg.tunlinkat cid dirfid name) w :=
  h.getFid hw fun r _ _ =>
    keeps_bind (keeps_fidAt r) (fun _ => keeps_bind (keeps_lift _) fun _ =>
      keeps_bind (h.call _ _) fun _ => keeps_pure _) w hw

theorem trename (hw : I w) (fid dfid : ℕ) (name : Utf16) :
    Preserves I (cfg.trename cid fid dfid name) w :=
  h.getFid hw fun r _ hr => h.getFid hw fun d _ _ =>
    keeps_bind (keeps_fidAt d) (fun _ => keeps_bind (keeps_lift _) fun _ =>
      keeps_bind (h.closeWriter hr) fun _ => keeps_bind (keeps_fidAt r) fun _ =>
        keeps_bind (h.call _ _) fun _ => keeps_bind (h.modifyFid hr _) fun _ => keeps_pure _) w hw

theorem trenameat (hw : I w) (olddirfid : ℕ) (oldname : Utf16) (newdirfid : ℕ) (newname : Utf16) :
    Preserves I (cfg.trenameat cid olddirfid oldname newdirfid newname) w :=
  h.getFid hw fun _ _ _ => wp_fidAt_bind (h.getFid hw fun d _ _ =>
    keeps_bind (keeps_fidAt d) (fun _ => keeps_bind (keeps_lift _) fun _ =>
      keeps_bind (keeps_lift _) fun _ => keeps_bind (h.call _ _) fun _ => keeps_pure _) w hw)

theorem tfsync (hw : I w) (fid : ℕ) : Preserves I (cfg.tfsync cid fid) w := by
  refine h.getFid hw fun r _ hr => wp_fidAt_bind ?_
  cases (w.heap r).writer with
  | none => exact hw
  | some wr =>
    exact keeps_bind (keeps_ite (h.save hr _ wr) (keeps_pure _)) (fun _ => keeps_pure _) w hw

/-- A Tversion replaces the connection, for invariants that do not see it. -/
theorem tversion (hset : ∀ w c, I w → I { w with conns := w.conns.set cid c })
    (hmsize : ∀ w n, I w → I { w with negotiatedMsize := n }) (hw : I w) (msize : ℕ)
    (version : Utf16) : Preserves I (cfg.tversion cid msize version) w := by
  unfold Config.tversion
  rw [Preserves, wp_bind]
  refine wp_conn cfg cid fun c hc _ _ => ?_
  have hrefs : ∀ r ∈ c.fids.values, free r := fun r => h.bound _ c r (h.touched hw) hc
  rw [wp_bind, wp_setConn]
  refine keeps_bind (h.closeAll hrefs) (fun _ => ?_) _ (hset _ _ (h.touched hw))
  intro u hu
  rw [wp_bind, wp_setConn, wp_bind, wp_modify, wp_pure]
  exact hmsize _ _ (hset u _ hu)

/-- Every request keeps the invariant, if the writer it may close in another fid is free. -/
theorem dispatch (hw : I w) (body : Body)
    (hk : ∀ k r, conflict w cid body = some k → w.owners k = some r → free r)
    (hversion : ∀ msize version, body = .tversion msize version →
      Preserves I (cfg.tversion cid msize version) w) : Preserves I (cfg.dispatch cid body) w := by
  have hgranted : ∀ (fid : ℕ) (reply : Body),
      Preserves I (do let _ ← cfg.getFid cid fid; return reply : Handler V σ Body) w :=
    fun fid reply => h.getFid hw fun _ _ _ => hw
  cases body with
  | tversion msize version => exact hversion msize version rfl
  | tattach fid afid uname aname nUname => exact h.tattach hw fid aname
  | twalk fid newfid wnames => exact h.twalk hw fid newfid wnames
  | tgetattr fid mask => exact h.tgetattr hw fid
  | tsetattr fid valid mode uid gid size _ _ _ _ => exact h.tsetattr hw fid valid size
  | tlopen fid flags => exact h.tlopen hw fid flags hk
  | tlcreate fid name flags mode gid => exact h.tlcreate hw fid name flags mode gid hk
  | tmkdir dfid name mode gid =>
    rw [Preserves, Config.dispatch, wp_bind]
    exact (h.make hw dfid name .mkdir).mono (fun _ _ hu => hu) fun _ _ hu => hu
  | tsymlink fid name symtgt gid =>
    rw [Preserves, Config.dispatch, wp_bind]
    exact (h.make hw fid name _).mono (fun _ _ hu => hu) fun _ _ hu => hu
  | treadlink fid => exact h.treadlink hw fid
  | tread fid offset count => exact h.tread hw fid offset count
  | twrite fid offset data => exact h.twrite hw fid offset data hk
  | treaddir fid offset count => exact h.treaddir hw fid offset count
  | tclunk fid => exact h.tclunk hw fid
  | tremove fid => exact h.tremove hw fid
  | tunlinkat dirfid name flags => exact h.tunlinkat hw dirfid name
  | trename fid dfid name => exact h.trename hw fid dfid name
  | trenameat olddirfid oldname newdirfid newname =>
    exact h.trenameat hw olddirfid oldname newdirfid newname
  | tstatfs fid => exact hgranted fid _
  | tflush oldtag => exact hw
  | tfsync fid datasync => exact h.tfsync hw fid
  | tlock fid => exact hgranted fid _
  | tgetlock fid => exact hgranted fid _
  | _ => exact hw

/-- The same for a frame, decoded or not. -/
theorem serve (hw : I w) (frame : List UInt8)
    (hk : ∀ tag body k r, decode frame = some ⟨tag, body⟩ → conflict w cid body = some k →
      w.owners k = some r → free r)
    (hversion : ∀ tag msize version, decode frame = some ⟨tag, .tversion msize version⟩ →
      Preserves I (cfg.tversion cid msize version) w) : I (cfg.serve w (cid, frame)) := by
  unfold Config.serve Config.handle
  cases hdecode : decode frame with
  | none => exact hw
  | some m =>
    obtain ⟨tag, body⟩ := m
    have hwp := h.dispatch hw body (fun k r => hk tag body k r hdecode)
      fun msize version heq => hversion tag msize version (heq ▸ hdecode)
    unfold Preserves Wp at hwp
    simp only [EStateM.run]
    cases hd : cfg.dispatch cid body w with
    | ok reply w' =>
      rw [hd] at hwp
      exact hwp
    | error e w' =>
      rw [hd] at hwp
      exact hwp

end Handlers

end Permits

end NixWasm.NinepServer
