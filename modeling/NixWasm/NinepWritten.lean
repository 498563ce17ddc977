import NixWasm.MemVfsBackend
import NixWasm.NinepReadBack

/-!
Read your writes. An acknowledged Twrite leaves its file stored with the written range,
if an open writer of the file could still be saved before it. From there every request
that leaves the range alone keeps it, and a Tread or Tgetattr that finds no pending bytes
shows it.
-/
namespace NixWasm.NinepServer

open Unicode Vfs NinepCodec Effects Runs

variable {V σ : Type} [DecidableEq V]

section Writing

variable {cfg : Config V σ} {v : V} {p : Path} {w w₀ : World V σ} {r : Ref}

/-- In the middle of a Twrite: writers at or above the path are on the file itself, which
is there and can be written. -/
structure Ready (b : Backend σ) (v : V) (p : Path) (w₀ w : World V σ) : Prop where
  tidy : Tidy w
  fids : SameFids w₀ w
  near : ∀ r q, WriterAt w r v q → q <+: p → q = p ∧ b.isLeaf (w.disk v) p ∧
  b.isWritablePath p = true

variable (hv : (cfg.backend v).Lawful)

include hv

theorem Ready.closeWriter (h : Ready (cfg.backend v) v p w₀ w) (hat : At v p r w₀) :
    Wp (cfg.closeWriter r) (fun _ w' => Ready (cfg.backend v) v p w₀ w' ∧
      ∀ r' u q, WriterAt w' r' u q → r' ≠ r ∧ WriterAt w r' u q) (fun _ _ => True) w := by
  have hfewer : ∀ r' u q, WriterAt (w.release r) r' u q → r' ≠ r ∧ WriterAt w r' u q :=
    fun r' u q => writerAt_release
  refine wp_closeWriter cfg r (fun _ => ⟨⟨h.tidy.release r, h.fids.release r, fun r' q hr' =>
    h.near r' q (hfewer r' v q hr').2⟩, hfewer⟩) fun wr hwr _ => ?_
  have hu : (w.heap r).vfs = v := (h.fids.vfs r).trans hat.1
  have hq : wr.path = p := by rw [(h.tidy.owned r wr hwr).1, h.fids.path, hat.2]
  obtain ⟨-, hleaf, hwritable⟩ := h.near r p ⟨wr, hwr, hu, hq⟩ (List.prefix_refl p)
  rw [hu, hq]
  refine wp_call cfg v _ (fun d hd => ⟨⟨(h.tidy.release r).setDisk v d,
    (h.fids.release r).setDisk v d, fun r' q hr' hprefix => ?_⟩, hfewer⟩) fun _ _ => trivial
  refine ⟨(h.near r' q (hfewer r' v q hr').2 hprefix).1, ?_, hwritable⟩
  rw [setDisk_disk_self]
  exact Backend.isLeaf_of_look (look_of_write hv (s := w.disk v) hleaf hd) rfl

theorem Ready.closeConflictingWriter (h : Ready (cfg.backend v) v p w₀ w) (hat : At v p r w₀) :
    Wp (cfg.closeConflictingWriter r) (fun _ w' => Ready (cfg.backend v) v p w₀ w' ∧
      ∀ r', WriterAt w' r' v p → r' = r) (fun _ _ => True) w := by
  have howner : ∀ r', WriterAt w r' v p → w.owners (v, p) = some r' := by
    rintro r' ⟨wr, hwr, hu, hq⟩
    rw [← hu, ← hq]
    exact (h.tidy.owned r' wr hwr).2.2
  unfold Config.closeConflictingWriter
  rw [wp_bind, wp_fidAt, wp_bind, wp_get, h.fids.vfs, h.fids.path, hat.1, hat.2]
  cases ho : w.owners (v, p) with
  | none =>
    refine ⟨h, fun r' hr' => ?_⟩
    rw [howner r' hr'] at ho
    cases ho
  | some owner =>
    simp only
    rw [wp_ite]
    refine ⟨fun _ => ?_, fun heq => ⟨h, fun r' hr' => ?_⟩⟩
    · obtain ⟨wr, hwr, hu, hq⟩ := h.tidy.owner v p owner ho
      have hat' : At v p owner w₀ :=
        ⟨(h.fids.vfs owner).symm.trans hu,
          (h.fids.path owner).symm.trans ((h.tidy.owned owner wr hwr).1.symm.trans hq)⟩
      refine (h.closeWriter hv hat').mono (fun _ w' hw' => ⟨hw'.1, fun r' hr' => ?_⟩)
        fun _ _ he => he
      obtain ⟨hne, hbefore⟩ := hw'.2 r' v p hr'
      rw [howner r' hbefore] at ho
      exact absurd (Option.some.inj ho) hne
    · rw [howner r' hr'] at ho
      rw [Option.some.inj ho]
      exact not_not.mp heq

theorem Ready.openWriter (h : Ready (cfg.backend v) v p w₀ w) (hat : At v p r w₀)
    (hlt : r < w₀.next)
    (honly : ∀ r', WriterAt w r' v p → r' = r) :
    Wp (cfg.openWriter r true) (fun _ w' => Ready (cfg.backend v) v p w₀ w' ∧
      ∀ r', WriterAt w' r' v p → r' = r) (fun _ _ => True) w := by
  unfold Config.openWriter
  rw [wp_bind, wp_fidAt, h.fids.vfs, h.fids.path, hat.1, hat.2, wp_ite]
  refine ⟨fun _ => ?_, fun _ => ⟨h, honly⟩⟩
  rw [wp_bind]
  refine (h.closeConflictingWriter hv hat).mono (fun _ w₁ hw₁ => ?_) fun _ _ he => he
  obtain ⟨h₁, honly₁⟩ := hw₁
  rw [wp_bind]
  refine (h₁.closeWriter hv hat).mono (fun _ w₂ hw₂ => ?_) fun _ _ he => he
  obtain ⟨h₂, hclosed⟩ := hw₂
  have hfree : ∀ r', ¬ WriterAt w₂ r' v p := by
    intro r' hr'
    obtain ⟨hne, hbefore⟩ := hclosed r' v p hr'
    exact hne (honly₁ r' hbefore)
  have hidle : (w₂.heap r).writer = none := by
    by_contra hne
    obtain ⟨wr, hwr⟩ := Option.ne_none_iff_exists'.mp hne
    exact (hclosed r _ _ ⟨wr, hwr, rfl, rfl⟩).1 rfl
  have hvfs : (w₂.heap r).vfs = v := (h₂.fids.vfs r).trans hat.1
  have hpath : (w₂.heap r).path = p := (h₂.fids.path r).trans hat.2
  have hlt' : r < w₂.next := by
    rw [h₂.fids.next]
    exact hlt
  rw [wp_bind]
  unfold Config.openWriteAt
  rw [if_pos rfl, wp_ite]
  refine ⟨fun hwritable => ?_, fun _ => trivial⟩
  rw [wp_bind]
  refine wp_readBlob cfg _ _ (fun bytes hbytes => ?_) fun _ _ => trivial
  rw [wp_pure, wp_bind, wp_modifyFid, wp_bind, wp_modify, wp_pure]
  have hleaf : (cfg.backend v).isLeaf (w₂.disk v) p := (hv.readBlob_leaf _ p).mp ⟨bytes, hbytes⟩
  have hset := h₂.fids.setFid (r := r) (f := { w₂.heap r with
    writer := some ⟨p, bytes, false⟩, writerPath := some (w₂.heap r).path }) rfl rfl
  have hkey : (v, p) = ((w₂.heap r).vfs, (w₂.heap r).path) := by rw [hvfs, hpath]
  have hwriters : ∀ r' q, WriterAt (w₂.setFid r { w₂.heap r with
      writer := some ⟨p, bytes, false⟩, writerPath := some (w₂.heap r).path }) r' v q →
      (r' = r ∧ q = p) ∨ (r' ≠ r ∧ WriterAt w₂ r' v q) := by
    intro r' q hr'
    by_cases heq : r' = r
    · obtain ⟨x, hx, -, hq⟩ := hr'
      rw [heq, setFid_heap_self] at hx
      cases hx
      exact .inl ⟨heq, hq.symm⟩
    · exact .inr ⟨heq, (writerAt_setFid_of_ne heq v q).mp hr'⟩
  refine ⟨⟨?_, ⟨hset.conns, hset.next, hset.vfs, hset.path⟩, fun r' q hr' hprefix => ?_⟩,
    fun r' hr' => ?_⟩
  · rw [hkey]
    exact h₂.tidy.adopt hlt' (by rw [hvfs, hpath]; exact hfree) hidle hpath.symm
  · rcases hwriters r' q hr' with ⟨-, hq⟩ | ⟨-, hbefore⟩
    · exact ⟨hq, hleaf, hwritable⟩
    · exact h₂.near r' q hbefore hprefix
  · rcases hwriters r' p hr' with ⟨heq, -⟩ | ⟨-, hbefore⟩
    · exact heq
    · exact absurd hbefore (hfree r')

theorem Ready.reopen (h : Ready (cfg.backend v) v p w₀ w) (hat : At v p r w₀) (hlt : r < w₀.next)
    (honly : ∀ r', WriterAt w r' v p → r' = r) (offset : ℕ) (f : Fid V) :
    Wp (Config.twrite.reopen cfg offset r f) (fun _ w' => Ready (cfg.backend v) v p w₀ w' ∧
      ∀ r', WriterAt w' r' v p → r' = r) (fun _ _ => True) w := by
  unfold Config.twrite.reopen
  rw [wp_ite]
  refine ⟨fun _ => ?_, fun _ => ⟨h, honly⟩⟩
  rw [wp_bind]
  refine wp_stat cfg _ _ (fun found _ => ?_) fun _ _ => trivial
  rw [wp_bind]
  have hsize : Keeps (fun w' => Ready (cfg.backend v) v p w₀ w' ∧ ∀ r', WriterAt w' r' v p → r' = r)
      (Config.twrite.sizeOrZero cfg f.vfs found) := by
    cases found with
    | none => exact keeps_pure 0
    | some rec => exact keeps_sizeOf cfg f.vfs rec
  refine (hsize w ⟨h, honly⟩).mono (fun size w' h' => ?_) fun _ _ _ => trivial
  rw [wp_ite]
  refine ⟨fun _ => (wp_map _ _).mpr ?_, fun _ => h'⟩
  exact h'.1.openWriter hv hat hlt h'.2

/-- The file is read, patched and written back. -/
theorem Ready.readModifyWrite (h : Ready (cfg.backend v) v p w₀ w) (hat : At v p r w₀)
    (honly : ∀ r', WriterAt w r' v p → r' = r) (hroot : p ≠ []) {f : Fid V}
    (hf : f.vfs = v ∧ f.path = p)
    (offset : ℕ) (data : List UInt8) :
    Wp (Config.twrite.readModifyWrite cfg offset data r f)
      (fun _ w' => Stored (cfg.backend v) v p (Covers offset data) w') (fun _ _ => True) w := by
  unfold Config.twrite.readModifyWrite
  rw [wp_bind, hf.1, hf.2]
  refine (h.closeWriter hv hat).mono (fun _ w₁ hw₁ => ?_) fun _ _ he => he
  obtain ⟨h₁, hclosed⟩ := hw₁
  have hfree : ∀ r', ¬ WriterAt w₁ r' v p := by
    intro r' hr'
    obtain ⟨hne, hbefore⟩ := hclosed r' v p hr'
    exact hne (honly r' hbefore)
  rw [wp_bind, wp_readBytes, wp_bind]
  refine wp_call cfg v _ (fun d hd => ?_) fun _ _ => trivial
  have hlook := hv.write_shows _ _ _ _ hroot hd
  rw [← setDisk_disk_self w₁ v d] at hlook
  rw [wp_pure]
  exact ⟨Backend.isLeaf_of_look hlook rfl, fun r' hr' => absurd hr' (hfree r'),
    fun r' q hr' hprefix => (h₁.near r' q hr' hprefix).1,
    fun r' x hx hu hq => absurd ⟨x, hx, hu, hq⟩ (hfree r'),
    fun _ => ⟨_, hlook, covers_overlay _ offset data⟩⟩

/-- The bytes are appended to the writer of the fid. -/
theorem Ready.append (h : Ready (cfg.backend v) v p w₀ w) (hat : At v p r w₀) {wr : Writer}
    (hwr : (w.heap r).writer = some wr) (data : List UInt8) :
    Wp (cfg.replaceBytes r v wr (wr.bytes ++ data))
      (fun _ w' => Stored (cfg.backend v) v p (Covers wr.bytes.length data) w')
        (fun _ _ => True) w := by
  have hu : (w.heap r).vfs = v := (h.fids.vfs r).trans hat.1
  have hq : wr.path = p := by rw [(h.tidy.owned r wr hwr).1, h.fids.path, hat.2]
  obtain ⟨-, hleaf, hwritable⟩ := h.near r p ⟨wr, hwr, hu, hq⟩ (List.prefix_refl p)
  have hgood : Covers wr.bytes.length data (wr.bytes ++ data) := by
    rw [← overlay_at_end]
    exact covers_overlay wr.bytes wr.bytes.length data
  have hgrown : Tidy (w.setFid r { w.heap r with
      writer := some ⟨wr.path, wr.bytes ++ data, true⟩ }) := h.tidy.setWriter hwr rfl
  have hnear : ∀ r' q, WriterAt (w.setFid r { w.heap r with
      writer := some ⟨wr.path, wr.bytes ++ data, true⟩ }) r' v q → q <+: p → q = p := by
    intro r' q hr' hprefix
    have hbefore := (writerAt_setFid_writer hwr ⟨wr.path, wr.bytes ++ data, true⟩ rfl r' v q).mp hr'
    exact (h.near r' q hbefore hprefix).1
  have hcell : ((w.setFid r { w.heap r with
      writer := some ⟨wr.path, wr.bytes ++ data, true⟩ }).heap r).writer =
      some ⟨wr.path, wr.bytes ++ data, true⟩ := by rw [setFid_heap_self]
  unfold Config.replaceBytes
  rw [wp_bind, wp_modifyFid, wp_ite]
  refine ⟨fun _ => ?_, fun _ => ?_⟩
  · unfold Config.save
    rw [wp_bind]
    refine wp_call cfg v _ (fun d hd => ?_) fun _ _ => trivial
    rw [wp_modifyFid]
    rw [hq] at hd
    have hlook := look_of_write hv (s := w.disk v) hleaf hd
    rw [← setDisk_disk_self w v d] at hlook
    refine stored_of_writer ((hgrown.setDisk v d).setWriter hcell rfl)
      (Backend.isLeaf_of_look hlook rfl)
      hwritable (fun r' q hr' => hnear r' q
        ((writerAt_setFid_writer hcell ⟨wr.path, wr.bytes ++ data, false⟩ rfl r' v q).mp hr'))
      r ⟨wr.path, wr.bytes ++ data, false⟩ (by rw [setFid_heap_self]) ?_ hq hgood fun _ => hlook
    rw [setFid_heap_self, setDisk_heap, setFid_heap_self]
    exact hu
  · refine stored_of_writer hgrown hleaf hwritable hnear r _ hcell ?_ hq hgood
      fun hfalse => by cases hfalse
    rw [setFid_heap_self]
    exact hu

/-- The Twrite is acknowledged and its range is in the file. -/
theorem Ready.twrite {cid fid offset : ℕ} {data : List UInt8} (h : Ready (cfg.backend v) v p w w)
    (hr : ref w cid fid = some r) (hat : At v p r w) (hroot : p ≠ []) :
    Wp (cfg.twrite cid fid offset data) (fun _ w' =>
      Stored (cfg.backend v) v p (Covers offset data) w')
      (fun _ _ => True) w := by
  unfold Config.twrite
  rw [wp_bind]
  refine wp_getFid cfg cid fid (fun r' hr' => ?_) fun _ => trivial
  obtain rfl : r' = r := Option.some.inj (hr'.symm.trans hr)
  rw [wp_bind]
  refine (h.closeConflictingWriter hv hat).mono (fun _ w₁ hw₁ => ?_) fun _ _ he => he
  obtain ⟨h₁, honly₁⟩ := hw₁
  have hvfs : (w₁.heap r').vfs = v := (h₁.fids.vfs r').trans hat.1
  have hpath : (w₁.heap r').path = p := (h₁.fids.path r').trans hat.2
  rw [wp_bind, wp_fidAt, wp_bind]
  refine (h₁.reopen hv hat (h.tidy.bound cid fid r' hr) honly₁ offset _).mono (fun _ w₂ hw₂ => ?_)
    fun _ _ he => he
  obtain ⟨h₂, honly₂⟩ := hw₂
  have hrmw := h₂.readModifyWrite hv hat honly₂ hroot ⟨hvfs, hpath⟩ offset data
  rw [wp_bind, wp_fidAt]
  cases hwr : (w₂.heap r').writer with
  | none => exact hrmw
  | some wr =>
    simp only
    rw [wp_ite]
    refine ⟨fun hoffset => ?_, fun _ => hrmw⟩
    rw [wp_bind, hvfs, hoffset]
    exact (h₂.append hv hat hwr data).mono (fun _ _ h' => h') fun _ _ he => he

end Writing

section Reading

variable {cfg : Config V σ} {v : V} {p : Path} {w : World V σ} {K : Prop} {offset : ℕ}
  {data : List UInt8}

/-- The request of a frame does not change the range of the file. -/
def LeavesRange (cfg : Config V σ) (v : V) (p : Path) (offset bound : ℕ) (w : World V σ)
    (request : ℕ × List UInt8) : Prop :=
  match decode request.2 with
  | none => True
  | some m => leavesRange cfg v p offset bound w request.1 m.body = true

instance (v : V) (p : Path) (offset bound : ℕ) (w : World V σ) (request : ℕ × List UInt8) :
    Decidable (LeavesRange cfg v p offset bound w request) :=
  decidable_of_iff (((decode request.2).all fun m =>
      leavesRange cfg v p offset bound w request.1 m.body) = true) <| by
    unfold LeavesRange
    cases decode request.2 <;> simp

/-- A writer at or above the path is on the file itself, which is there and can be written:
what waits in it can still be saved. -/
def savable (b : Backend σ) (v : V) (p : Path) (w : World V σ) : Bool :=
  (List.range w.next).all fun r =>
    match (w.heap r).writer with
    | none => true
    | some wr => decide ((w.heap r).vfs ≠ v) || !wr.path.isPrefixOf p ||
        (decide (wr.path = p) && b.isLeaf (w.disk v) p && b.isWritablePath p)

/-- The sizes a backend reports are those of the bytes. -/
def Sized (b : Backend σ) : Prop :=
  ∀ s p rec, b.stat s p = .ok (some rec) → rec.type = .file →
    rec.path = p ∧ ∀ n, rec.size = some n → n = (b.readBytes s p).length

omit [DecidableEq V] in
theorem tidy_of_fresh (h : Fresh w) : Tidy w := by
  refine ⟨fun cid fid r hr => ?_, fun r _ => (h.idle r).1, fun r _ => (h.idle r).2,
    fun r wr hwr => ?_, fun u q r ho => ?_⟩
  · unfold ref at hr
    rw [h.conns] at hr
    cases hr
  · rw [(h.idle r).1] at hwr
    cases hwr
  · rw [h.owners] at ho
    cases ho

theorem ready_of_savable {b : Backend σ} (htidy : Tidy w) (h : savable b v p w = true) :
    Ready b v p w w := by
  refine ⟨htidy, SameFids.refl w, ?_⟩
  rintro r q ⟨wr, hwr, hu, rfl⟩ hprefix
  have hlt : r < w.next := by
    by_contra hge
    rw [htidy.fresh r (Nat.le_of_not_lt hge)] at hwr
    cases hwr
  have hone := List.all_eq_true.mp h r (List.mem_range.mpr hlt)
  simpa [hwr, hu, List.isPrefixOf_iff_prefix.mpr hprefix, and_assoc] using hone

theorem Guarded.serve (hv : (cfg.backend v).Lawful) (h : Guarded cfg v p (Covers offset data) K w)
    {request : ℕ × List UInt8}
    (hleaves : K → LeavesRange cfg v p offset (offset + data.length) w request) :
    Guarded cfg v p (Covers offset data) K (cfg.serve w request) := by
  obtain ⟨cid, frame⟩ := request
  unfold LeavesRange at hleaves
  unfold Config.serve Config.handle
  cases hdecode : decode frame with
  | none => exact h
  | some m =>
    simp only [hdecode] at hleaves
    have hwp := safe_dispatch hv h hleaves
    unfold Safe Wp at hwp
    simp only [EStateM.run]
    cases hd : cfg.dispatch cid m.body w with
    | ok reply w' =>
      rw [hd] at hwp
      exact hwp
    | error e w' =>
      rw [hd] at hwp
      exact hwp

/-- The server's tables are tidy after every run. -/
theorem tidy_run (hv : (cfg.backend v).Lawful) (hfresh : Fresh w)
    (requests : List (ℕ × List UInt8)) : Tidy (run cfg.serve w requests) := by
  have hstart : Guarded cfg v [] (Covers 0 []) False w := ⟨tidy_of_fresh hfresh, False.elim⟩
  exact (run_invariant _ (fun _ _ h => h.serve hv False.elim) requests hstart).tidy

/-- An answer that is not Rlerror comes from a handler that returned. -/
theorem dispatch_of_answer {cid : ℕ} {frame : List UInt8} {tag : Option ℕ} {body : Body}
    (hdecode : decode frame = some ⟨tag, body⟩) (hanswer : ¬ IsRlerror (cfg.handle cid frame w).1) :
    ∃ reply, cfg.dispatch cid body w = .ok reply (cfg.serve w (cid, frame)) := by
  unfold Config.handle at hanswer
  unfold Config.serve Config.handle
  simp only [hdecode, EStateM.run] at hanswer ⊢
  cases hd : cfg.dispatch cid body w with
  | ok reply w' => exact ⟨reply, rfl⟩
  | error e w' =>
    rw [hd] at hanswer
    exact absurd ⟨tag, errnoFromError e, rfl⟩ hanswer

/-- The acknowledged Twrite of a frame. -/
theorem stored_of_write (hv : (cfg.backend v).Lawful) (htidy : Tidy w) {cid fid : ℕ} {r : Ref}
    {frame : List UInt8} {tag : Option ℕ} (hdecode : decode frame =
      some ⟨tag, .twrite fid offset data⟩)
    (hr : ref w cid fid = some r) (hat : At v p r w) (hroot : p ≠ [])
    (hsavable : savable (cfg.backend v) v p w = true)
    (hacked : ¬ IsRlerror (cfg.handle cid frame w).1) :
    Guarded cfg v p (Covers offset data) True (cfg.serve w (cid, frame)) := by
  have hkept : Guarded cfg v p (Covers offset data) False w := ⟨htidy, False.elim⟩
  refine ⟨(hkept.serve hv False.elim).tidy, fun _ => ?_⟩
  obtain ⟨reply, hreply⟩ := dispatch_of_answer hdecode hacked
  have hwp : Wp (cfg.twrite cid fid offset data)
      (fun _ w' => Stored (cfg.backend v) v p (Covers offset data) w') (fun _ _ => True) w :=
    (ready_of_savable htidy hsavable).twrite hv hr hat hroot
  unfold Wp at hwp
  change cfg.twrite cid fid offset data w = _ at hreply
  rw [hreply] at hwp
  exact hwp

/-- The reply has the bytes of the range that were asked for. -/
def ReadsRange (offset : ℕ) (data : List UInt8) (start count : ℕ) (reply : Body) : Prop :=
  ∃ bytes, reply = .rread bytes ∧ ∀ i, i < count → offset ≤ start + i →
    start + i < offset + data.length → bytes[i]? = data[start + i - offset]?

/-- The reported size reaches over the range. -/
def ReportsSize (bound : ℕ) : Body → Prop
  | .rgetattr _ _ _ _ _ _ _ size _ _ _ _ _ _ _ _ _ _ _ _ => bound ≤ size
  | _ => False

section Shown

variable {r : Ref} {cid fid : ℕ} (hr : ref w cid fid = some r) (hat : At v p r w)
  {c : List UInt8} (hlook : (cfg.backend v).look (w.disk v) p = .ok (some (.file c)))

include hr hat hlook

omit [DecidableEq V] hr hat in
theorem stat_of_look :
    ∃ rec, (cfg.backend v).stat (w.disk v) p = .ok (some rec) ∧ rec.type = .file := by
  obtain ⟨rec, hrec, -⟩ := Backend.stat_of_isLeaf (Backend.isLeaf_of_look hlook rfl)
  refine ⟨rec, hrec, ?_⟩
  rw [Backend.look_eq hrec] at hlook
  unfold Backend.node at hlook
  cases htype : rec.type
  · rw [htype] at hlook
    cases hlook
  · rw [htype] at hlook
    cases hlook
  · rfl

omit [DecidableEq V] in
theorem tread_of_look (hv : (cfg.backend v).Lawful) (start count : ℕ) :
    Wp (cfg.tread cid fid start count) (fun reply _ => reply = .rread ((c.drop start).take count))
      (fun _ _ => False) w := by
  obtain ⟨rec, hrec, htype⟩ := stat_of_look hlook
  unfold Config.tread
  rw [wp_bind]
  refine wp_getFid cfg cid fid (fun r' hr' => ?_) fun hnone => ?_
  · obtain rfl : r' = r := Option.some.inj (hr'.symm.trans hr)
    rw [wp_bind, wp_fidAt, hat.1, hat.2, wp_bind]
    refine wp_stat cfg v p (fun found hfound => ?_) fun e he => ?_
    · cases hrec.symm.trans hfound
      simp only [htype]
      rw [if_neg Kind.noConfusion, wp_bind, wp_readBytes, Backend.readBytes_of_look hv hlook]
      rfl
    · cases hrec.symm.trans he
  · cases hr.symm.trans hnone

omit [DecidableEq V] in
theorem tgetattr_of_look (hv : (cfg.backend v).Lawful) (hsized : Sized (cfg.backend v)) {bound : ℕ}
    (hbound : bound ≤ c.length) :
    Wp (cfg.tgetattr cid fid) (fun reply _ => ReportsSize bound reply) (fun _ _ => False) w := by
  obtain ⟨rec, hrec, htype⟩ := stat_of_look hlook
  have hread := Backend.readBytes_of_look hv hlook
  obtain ⟨hpath, hsize⟩ := hsized _ _ _ hrec htype
  unfold Config.tgetattr
  rw [wp_bind]
  refine wp_getFid cfg cid fid (fun r' hr' => ?_) fun hnone => ?_
  · obtain rfl : r' = r := Option.some.inj (hr'.symm.trans hr)
    rw [wp_bind, wp_fidAt, hat.1, hat.2, wp_bind]
    refine wp_stat cfg v p (fun found hfound => ?_) fun e he => ?_
    · cases hrec.symm.trans hfound
      have hsizeOf : Wp (cfg.sizeOf v rec) (fun n _ => bound ≤ n) (fun _ _ => False) w := by
        unfold Config.sizeOf
        simp only [htype]
        cases hrecsize : rec.size with
        | some n =>
          change bound ≤ n
          rw [hsize n hrecsize, hread]
          exact hbound
        | none =>
          change bound ≤ ((cfg.backend v).readBytes (w.disk v) rec.path).length
          rw [hpath, hread]
          exact hbound
      simp only
      rw [wp_bind]
      refine hsizeOf.mono (fun n w' hn => ?_) fun _ _ he => he
      rw [wp_bind]
      exact wp_qidOf rec fun _ _ _ => hn
    · cases hrec.symm.trans he
  · cases hr.symm.trans hnone

end Shown

omit [DecidableEq V] in
/-- The bytes of a read that overlaps the range. -/
theorem Covers.read {c : List UInt8} (h : Covers offset data c) (start count : ℕ) :
    ReadsRange offset data start count (.rread ((c.drop start).take count)) := by
  refine ⟨_, rfl, fun i hi hfrom hto => ?_⟩
  have hbytes := contains_iff.mp h.2 (start + i - offset) (by omega)
  rw [List.getElem?_take_of_lt hi, List.getElem?_drop, ← hbytes]
  congr 1
  omega

/-- The reply frame of a request whose handler cannot throw. -/
theorem handle_of_wp {cid : ℕ} {frame : List UInt8} {tag : Option ℕ} {body : Body} {Q : Body → Prop}
    (hdecode : decode frame = some ⟨tag, body⟩)
    (h : Wp (cfg.dispatch cid body) (fun reply _ => Q reply) (fun _ _ => False) w) :
    ∃ reply, (cfg.handle cid frame w).1 = encode ⟨tag, reply⟩ ∧ Q reply := by
  unfold Config.handle
  unfold Wp at h
  simp only [hdecode, EStateM.run]
  cases hd : cfg.dispatch cid body w with
  | ok reply w' =>
    rw [hd] at h
    exact ⟨reply, rfl, h⟩
  | error e w' =>
    rw [hd] at h
    exact h.elim

/-- After an acknowledged Twrite, as long as no request changes its range, a Tread through
any fid of the file returns the bytes of the range and a Tgetattr reports a size that
includes them, whenever no bytes of the file wait in an open writer. -/
theorem read_your_writes (cfg : Config V σ) (v : V) (hv : (cfg.backend v).Lawful)
    (hsized : Sized (cfg.backend v)) (w : World V σ) (hfresh : Fresh w)
    (before : List (ℕ × List UInt8)) (cid fid offset : ℕ) (data frame : List UInt8) (tag : Option ℕ)
    (hwrite : decode frame = some ⟨tag, .twrite fid offset data⟩) (p : Path)
    (hroot : p ≠ []) (r : Ref)
    (hr : ref (run cfg.serve w before) cid fid = some r) (hat : At v p r (run cfg.serve w before))
    (hsavable : savable (cfg.backend v) v p (run cfg.serve w before) = true)
    (hacked : ¬ IsRlerror (cfg.handle cid frame (run cfg.serve w before)).1)
    (between : List (ℕ × List UInt8))
    (hbetween : Along (LeavesRange cfg v p offset (offset + data.length)) cfg.serve
      (run cfg.serve w (before ++ [(cid, frame)])) between)
    (hsettled : Settled v p (run cfg.serve w (before ++ [(cid, frame)] ++ between)))
    (cid' fid' : ℕ) (r' : Ref)
    (hr' : ref (run cfg.serve w (before ++ [(cid, frame)] ++ between)) cid' fid' = some r')
    (hat' : At v p r' (run cfg.serve w (before ++ [(cid, frame)] ++ between))) :
    (∀ frame' tag' start count, decode frame' = some ⟨tag', .tread fid' start count⟩ →
      ∃ reply, (cfg.handle cid' frame' (run cfg.serve w (before ++ [(cid, frame)] ++ between))).1 =
        encode ⟨tag', reply⟩ ∧ ReadsRange offset data start count reply) ∧
    (∀ frame' tag' mask, decode frame' = some ⟨tag', .tgetattr fid' mask⟩ →
      ∃ reply, (cfg.handle cid' frame' (run cfg.serve w (before ++ [(cid, frame)] ++ between))).1 =
        encode ⟨tag', reply⟩ ∧ ReportsSize (offset + data.length) reply) := by
  have hstored := stored_of_write hv (tidy_run hv hfresh before) hwrite hr hat hroot hsavable hacked
  have hguarded : Guarded cfg v p (Covers offset data) True
      (run cfg.serve w (before ++ [(cid, frame)] ++ between)) := by
    rw [run_append cfg.serve w (before ++ [(cid, frame)])]
    refine run_along _ (fun _ _ h hleaves => h.serve hv fun _ => hleaves) between ?_ hbetween
    rw [run_append]
    exact hstored
  obtain ⟨c, hlook, hcovers⟩ := (hguarded.stored trivial).shown hsettled
  constructor
  · intro frame' tag' start count hdecode
    refine handle_of_wp hdecode ?_
    refine (tread_of_look hr' hat' hlook hv start count).mono (fun reply _ hreply => ?_)
      fun _ _ he => he
    rw [hreply]
    exact hcovers.read start count
  · intro frame' tag' mask hdecode
    exact handle_of_wp hdecode (tgetattr_of_look hr' hat' hlook hv hsized hcovers.1)

end Reading

theorem mounted_sized (o : MemVfs.Options) : Sized (MemVfs.mounted o) := by
  intro s p rec hstat hfile
  obtain ⟨i, node, hi, hnode, rfl⟩ := MemVfs.mounted_stat_some.mp hstat
  refine ⟨MemVfs.pathOf_normalize p, fun n hn => ?_⟩
  have hkind : MemVfs.kindOf node.type = .file := hfile
  unfold MemVfs.kindOf at hkind
  split_ifs at hkind with hfolder halias
  have hread := MemVfs.mounted_readBlob hi hnode
  rw [if_neg hfolder] at hread
  unfold Backend.readBytes
  rw [hread]
  have hsize : (MemVfs.record (i, node) (pathString p)).size =
      some (node.bytes.getD []).length := if_pos ⟨hfolder, halias⟩
  exact (Option.some.inj (hsize.symm.trans hn)).symm

section OneFile

theorem directory_sized : Sized directory := by
  intro s p rec hstat htype
  rcases p with _ | ⟨name, _ | ⟨next, rest⟩⟩
  · cases hstat
    cases htype
  · simp only [directory, Except.ok.injEq] at hstat
    obtain ⟨e, he, rfl⟩ := Option.map_eq_some_iff.mp hstat
    cases e with
    | file bytes =>
      refine ⟨rfl, fun n hn => ?_⟩
      cases hn
      simp [Backend.readBytes, directory, he, Entry.bytes]
    | link target => cases htype
  · cases hstat

/-- Fid 1 has just created the file "a". -/
def createRun : List (ℕ × List UInt8) :=
  [frame (.tattach 0 0xffffffff (ofString "u") (ofString "/") 0), frame (.twalk 0 1 []),
    frame (.tlcreate 1 (ofString "a") 0 0o644 0)]

/-- Two bytes are written, fid 2 is bound to the file and the writer is flushed. -/
def flushRun : List (ℕ × List UInt8) :=
  [frame (.twalk 0 2 [ofString "a"]), frame (.tfsync 1 0)]

omit [DecidableEq V] in
theorem settled_of_clean {w : World V σ} (htidy : Tidy w)
    (h : ((List.range w.next).all fun r =>
      match (w.heap r).writer with
      | none => true
      | some wr => !wr.dirty) = true) (v : V) (p : Path) : Settled v p w := by
  intro r wr hwr _ _
  have hlt : r < w.next := by
    by_contra hge
    rw [htidy.fresh r (Nat.le_of_not_lt hge)] at hwr
    cases hwr
  have hone := List.all_eq_true.mp h r (List.mem_range.mpr hlt)
  simpa [hwr] using hone

theorem read_your_writes_flushed :
    Along (LeavesRange oneDirectory () [nameA] 0 2) oneDirectory.serve
        (run oneDirectory.serve emptyWorld (createRun ++ [frame (.twrite 1 0 [0x78, 0x79])]))
          flushRun ∧
      ∃ reply, (oneDirectory.handle 0 (frame (.tread 2 0 2)).2 (run oneDirectory.serve emptyWorld
          (createRun ++ [frame (.twrite 1 0 [0x78, 0x79])] ++ flushRun))).1 =
        encode ⟨some 1, reply⟩ ∧ ReadsRange 0 [0x78, 0x79] 0 2 reply := by
  have hfresh : Fresh emptyWorld := ⟨rfl, fun _ => ⟨rfl, rfl⟩, fun _ => rfl⟩
  have hleaves : Along (LeavesRange oneDirectory () [nameA] 0 2) oneDirectory.serve
      (run oneDirectory.serve emptyWorld (createRun ++ [frame (.twrite 1 0 [0x78, 0x79])]))
        flushRun := by
    decide +kernel
  have hacked : (oneDirectory.handle 0 (frame (.twrite 1 0 [0x78, 0x79])).2
      (run oneDirectory.serve emptyWorld createRun)).1 = encode ⟨some 1, .rwrite 2⟩ := by
    decide +kernel
  refine ⟨hleaves, ?_⟩
  refine (read_your_writes oneDirectory () directory_lawful directory_sized emptyWorld
    hfresh createRun
    0 1 0 [0x78, 0x79] (frame (.twrite 1 0 [0x78, 0x79])).2 (some 1) (by decide +kernel)
      [nameA]
    (List.cons_ne_nil _ _) 1 (by decide +kernel) ⟨rfl, by decide +kernel⟩ (by decide +kernel) ?_
    flushRun hleaves (settled_of_clean (tidy_run (v := ()) directory_lawful hfresh _)
      (by decide +kernel) _ _)
    0 2 2 (by decide +kernel) ⟨rfl, by decide +kernel⟩).1 _ (some 1) 0 2 (by decide +kernel)
  rintro ⟨tag, ecode, herror⟩
  cases type_of_encode_eq (hacked.symm.trans herror)

/-- A read through the fid that wrote, while the bytes are in its writer. -/
theorem pending_write_not_read :
    ¬ IsRlerror (oneDirectory.handle 0 (frame (.twrite 1 0 [0x78, 0x79])).2
        (run oneDirectory.serve emptyWorld createRun)).1 ∧
      (oneDirectory.handle 0 (frame (.tread 1 0 2)).2
        (run oneDirectory.serve emptyWorld (createRun ++ [frame (.twrite 1 0 [0x78, 0x79])]))).1 =
        encode ⟨some 1, .rread []⟩ := by
  refine ⟨?_, by decide +kernel⟩
  rintro ⟨tag, ecode, herror⟩
  have hacked : (oneDirectory.handle 0 (frame (.twrite 1 0 [0x78, 0x79])).2
      (run oneDirectory.serve emptyWorld createRun)).1 = encode ⟨some 1, .rwrite 2⟩ := by
    decide +kernel
  cases type_of_encode_eq (hacked.symm.trans herror)

end OneFile

end NixWasm.NinepServer
