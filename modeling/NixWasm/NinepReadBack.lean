import NixWasm.NinepAtomic
import NixWasm.NinepStored

/-!
Reading what was written. Every request keeps the tables tidy, and a request that leaves a
range of a file alone keeps the file stored with that range. An acknowledged Twrite stores
its range, so a later Tread returns it and a later Tgetattr counts it, unless the bytes
still wait in an open writer.
-/
namespace NixWasm.NinepServer

open Unicode Vfs NinepCodec Effects Runs

variable {V σ : Type} [DecidableEq V]

section Tables

variable {cfg : Config V σ} {v : V} {p : Path} {good : List UInt8 → Prop} {K C : Prop}
  {w w₀ : World V σ} {cid fid : ℕ}

/-- The handler keeps the tables tidy and the watched file stored. -/
abbrev Safe {α : Type} (cfg : Config V σ) (v : V) (p : Path) (good : List UInt8 → Prop) (K : Prop)
    (x : Handler V σ α) (w : World V σ) : Prop :=
  Wp x (fun _ => Guarded cfg v p good K) (fun _ => Guarded cfg v p good K) w

/-- The handler keeps the watched file when it throws, and under `C` when it returns. -/
abbrev Spares {α : Type} (cfg : Config V σ) (v : V) (p : Path) (good : List UInt8 → Prop)
    (K C : Prop) (x : Handler V σ α) (w : World V σ) : Prop :=
  Wp x (fun _ => Guarded cfg v p good (K ∧ C)) (fun _ => Guarded cfg v p good K) w

omit [DecidableEq V] in
theorem ref_set (w : World V σ) (cid : ℕ) (c : Conn) (cid' fid : ℕ) :
    ref { w with conns := w.conns.set cid c } cid' fid =
      if cid' = cid then c.fids.get fid else ref w cid' fid := by
  unfold ref
  by_cases heq : cid' = cid
  · rw [if_pos heq, heq, JsMap.get_set_self]
    rfl
  · rw [if_neg heq, JsMap.get_set_of_ne _ _ heq]

omit [DecidableEq V] in
theorem Guarded.setConn (h : Guarded cfg v p good K w) (cid : ℕ) {c : Conn}
    (hc : ∀ fid r, c.fids.get fid = some r → r < w.next) :
    Guarded cfg v p good K { w with conns := w.conns.set cid c } := by
  refine ⟨⟨fun cid' fid r hr => ?_, h.tidy.fresh, h.tidy.idle, h.tidy.owned, h.tidy.owner⟩,
    fun hK => ⟨(h.stored hK).leaf, (h.stored hK).writable, (h.stored hK).above, (h.stored hK).bytes,
      (h.stored hK).shown⟩⟩
  rw [ref_set] at hr
  by_cases heq : cid' = cid
  · rw [if_pos heq] at hr
    exact hc fid r hr
  · rw [if_neg heq] at hr
    exact h.tidy.bound cid' fid r hr

omit [DecidableEq V] in
theorem Guarded.touch (h : Guarded cfg v p good K w) (cid : ℕ) :
    Guarded cfg v p good K (cfg.touch w cid) := by
  unfold Config.touch
  split
  · exact h
  · exact h.setConn cid fun fid r hr => by cases hr

omit [DecidableEq V] in
theorem touch_next (cfg : Config V σ) (w : World V σ) (cid : ℕ) :
    (cfg.touch w cid).next = w.next := by
  unfold Config.touch
  split <;> rfl

omit [DecidableEq V] in
theorem safe_getFid {α : Type} (h : Guarded cfg v p good K w) {f : Ref → Handler V σ α}
    (hf : ∀ r, ref w cid fid = some r → Safe cfg v p good K (f r) w) :
    Safe cfg v p good K (cfg.getFid cid fid >>= f) w := by
  rw [Safe, wp_bind]
  exact wp_getFid cfg cid fid hf fun _ => h.touch cid

omit [DecidableEq V] in
theorem spares_getFid {α : Type} (h : Guarded cfg v p good K w) {f : Ref → Handler V σ α}
    (hf : ∀ r, ref w cid fid = some r → Spares cfg v p good K C (f r) w) :
    Spares cfg v p good K C (cfg.getFid cid fid >>= f) w := by
  rw [Spares, wp_bind]
  exact wp_getFid cfg cid fid hf fun _ => h.touch cid

omit [DecidableEq V] in
/-- After the steps that leave the fids bound as they were. -/
theorem safe_bind {α β : Type} {x : Handler V σ α} {f : α → Handler V σ β}
    (hx : Wp x (fun _ => During cfg v p good K w₀) (fun _ => During cfg v p good K w₀) w)
    (hf : ∀ a w', During cfg v p good K w₀ w' → Safe cfg v p good K (f a) w') :
    Safe cfg v p good K (x >>= f) w := by
  rw [Safe, wp_bind]
  exact hx.mono hf fun _ _ h => h.toGuarded

omit [DecidableEq V] in
theorem spares_bind {α β : Type} {x : Handler V σ α} {f : α → Handler V σ β}
    (hx : Wp x (fun _ => During cfg v p good K w₀) (fun _ => During cfg v p good K w₀) w)
    (hf : ∀ a w', During cfg v p good K w₀ w' → Spares cfg v p good K C (f a) w') :
    Spares cfg v p good K C (x >>= f) w := by
  rw [Spares, wp_bind]
  exact hx.mono hf fun _ _ h => h.toGuarded

omit [DecidableEq V] in
/-- After a step that changes the file only under `C`, nothing throws. -/
theorem spares_then {α β : Type} {x : Handler V σ α} {f : α → Handler V σ β}
    (hx : Wp x (fun _ => During cfg v p good (K ∧ C) w₀) (fun _ => During cfg v p good K w₀) w)
    (hf : ∀ a w', During cfg v p good (K ∧ C) w₀ w' →
      Wp (f a) (fun _ => Guarded cfg v p good (K ∧ C)) (fun _ _ => False) w') :
    Spares cfg v p good K C (x >>= f) w := by
  rw [Spares, wp_bind]
  exact hx.mono (fun a w' h => (hf a w' h).mono (fun _ _ h' => h') fun _ _ hfalse => hfalse.elim)
    fun _ _ h => h.toGuarded

omit [DecidableEq V] in
theorem safe_of_spares {α : Type} {x : Handler V σ α} (h : Spares cfg v p good K True x w) :
    Safe cfg v p good K x w :=
  h.mono (fun _ _ h' => h'.mono fun hK => ⟨hK, trivial⟩) fun _ _ h' => h'

omit [DecidableEq V] in
theorem safe_of_keeps {α : Type} {x : Handler V σ α} (h : Guarded cfg v p good K w)
    (hx : Keeps (Guarded cfg v p good K) x) : Safe cfg v p good K x w :=
  hx w h

omit [DecidableEq V] in
/-- A new object under a fid number. -/
theorem safe_bindFid (h : Guarded cfg v p good K w) (u : V) (q : Path) :
    Safe cfg v p good K (cfg.bindFid cid fid u q) w := by
  unfold Config.bindFid
  rw [Safe, wp_bind]
  refine wp_conn cfg cid fun c hc _ hfids => ?_
  have ht := h.touch cid
  have hnext := touch_next cfg w cid
  rw [wp_bind, wp_get, wp_bind, wp_modify, wp_setConn]
  have hcell : ∀ r, r ≠ (cfg.touch w cid).next →
      Function.update (cfg.touch w cid).heap (cfg.touch w cid).next
        ⟨q, u, false, none, none, none⟩ r = (cfg.touch w cid).heap r :=
    fun r hr => Function.update_of_ne hr ..
  have hused : ∀ r wr, ((cfg.touch w cid).heap r).writer = some wr →
      r ≠ (cfg.touch w cid).next := by
    rintro r wr hwr rfl
    rw [ht.tidy.fresh _ (Nat.le_refl _)] at hwr
    cases hwr
  have hwriters : ∀ r wr, (Function.update (cfg.touch w cid).heap (cfg.touch w cid).next
      ⟨q, u, false, none, none, none⟩ r).writer = some wr → r ≠ (cfg.touch w cid).next := by
    rintro r wr hwr rfl
    rw [Function.update_self] at hwr
    cases hwr
  have hgrown : Guarded cfg v p good K { cfg.touch w cid with
      heap := Function.update (cfg.touch w cid).heap (cfg.touch w cid).next
        ⟨q, u, false, none, none, none⟩
      next := (cfg.touch w cid).next + 1 } := by
    refine ⟨⟨fun cid' fid' r hr => Nat.lt_succ_of_lt (ht.tidy.bound cid' fid' r hr), fun r hr => ?_,
      fun r hr => ?_, fun r wr hwr => ?_, fun u' q' r ho => ?_⟩, fun hK => ?_⟩
    · simp only [hcell r (Nat.ne_of_gt hr)]
      exact ht.tidy.fresh r (Nat.le_of_succ_le hr)
    · by_cases heq : r = (cfg.touch w cid).next
      · simp only [heq, Function.update_self]
      · simp only [hcell r heq] at hr ⊢
        exact ht.tidy.idle r hr
    · have hne := hwriters r wr hwr
      simp only [hcell r hne] at hwr ⊢
      exact ht.tidy.owned r wr hwr
    · have hat := ht.tidy.owner u' q' r ho
      obtain ⟨wr, hwr, -⟩ := hat
      exact (writerAt_congr (hcell r (hused r wr hwr)) u' q').mpr (ht.tidy.owner u' q' r ho)
    · refine (ht.stored hK).of_writers (fun r u' q' hr => ?_) rfl fun hsettled => ?_
      · obtain ⟨wr, hwr, -⟩ := hr
        exact hcell r (hwriters r wr hwr)
      · refine (ht.stored hK).shown fun r wr hwr hu hq => hsettled r wr ?_ ?_ hq
        · simp only [hcell r (hused r wr hwr)]
          exact hwr
        · simp only [hcell r (hused r wr hwr)]
          exact hu
  refine hgrown.setConn cid fun fid' r hr => ?_
  by_cases heq : fid' = fid
  · rw [heq, JsMap.get_set_self] at hr
    cases hr
    exact Nat.lt_succ_self _
  · rw [JsMap.get_set_of_ne _ _ heq, hfids fid'] at hr
    rw [hnext]
    exact Nat.lt_succ_of_lt (h.tidy.bound cid fid' r hr)

omit [DecidableEq V] in
theorem wp_dropFid {body : Body} (h : Guarded cfg v p good K w) :
    Wp (do cfg.dropFid cid fid; return body) (fun _ => Guarded cfg v p good K)
      (fun _ _ => False) w := by
  unfold Config.dropFid
  rw [wp_bind, wp_bind]
  refine wp_conn cfg cid fun c hc _ hfids => ?_
  rw [wp_setConn]
  refine (h.touch cid).setConn cid fun fid' r hr => ?_
  rw [touch_next]
  by_cases heq : fid' = fid
  · rw [heq, JsMap.get_delete_self] at hr
    cases hr
  · rw [JsMap.get_delete_of_ne _ heq, hfids fid'] at hr
    exact h.tidy.bound cid fid' r hr

end Tables

section Handlers

variable {cfg : Config V σ} {v : V} {p : Path} {good : List UInt8 → Prop} {K C : Prop}
  {w w₀ : World V σ} {cid fid : ℕ} {r : Ref}

omit [DecidableEq V] in
theorem Guarded.of_sameCore {w' : World V σ} (h : Guarded cfg v p good K w) (hs : SameCore w w') :
    Guarded cfg v p good K w' := by
  have hat : ∀ r u q, WriterAt w' r u q ↔ WriterAt w r u q := writerAt_of_sameCore hs
  refine ⟨⟨fun cid fid r hr => ?_, fun r hr => ?_, fun r hr => ?_, fun r wr hwr => ?_,
    fun u q r ho => ?_⟩, fun hK => ?_⟩
  · unfold ref at hr
    rw [hs.conns] at hr
    rw [hs.next]
    exact h.tidy.bound cid fid r hr
  · rw [hs.writer]
    exact h.tidy.fresh r (hs.next ▸ hr)
  · rw [hs.writerPath]
    exact h.tidy.idle r (hs.writer r ▸ hr)
  · rw [hs.path, hs.writerPath, hs.vfs, hs.owners]
    exact h.tidy.owned r wr (hs.writer r ▸ hwr)
  · rw [hat]
    exact h.tidy.owner u q r (hs.owners ▸ ho)
  · have hstored := h.stored hK
    refine ⟨?_, fun r hr => hstored.writable r ((hat r v p).mp hr),
      fun r q hr => hstored.above r q ((hat r v q).mp hr), fun r wr hwr hu hq => ?_,
      fun hsettled => ?_⟩
    · rw [hs.disk]
      exact hstored.leaf
    · exact hstored.bytes r wr (hs.writer r ▸ hwr) (hs.vfs r ▸ hu) hq
    · rw [hs.disk]
      refine hstored.shown fun r wr hwr hu hq => hsettled r wr ?_ ?_ hq
      · rw [hs.writer]
        exact hwr
      · rw [hs.vfs]
        exact hu

omit [DecidableEq V] in
/-- A handler that only reads the backends. -/
theorem safe_of_coreFixed {α : Type} {x : Handler V σ α} (h : Guarded cfg v p good K w)
    (hx : CoreFixed x) : Safe cfg v p good K x w := by
  have hsame := hx w
  unfold Safe Wp
  cases hw : x w with
  | ok a w' =>
    rw [hw] at hsame
    exact h.of_sameCore hsame
  | error e w' =>
    rw [hw] at hsame
    exact h.of_sameCore hsame

omit [DecidableEq V] in
theorem safe_qidOf {rec : VfsRecord} {f : Qid → Body} (h : Guarded cfg v p good K w) :
    Safe cfg v p good K (do return f (← Config.qidOf rec)) w :=
  safe_of_coreFixed h (coreFixed_bind (coreFixed_qidOf rec) fun _ => coreFixed_pure _)

omit [DecidableEq V] in
theorem safe_tattach (h : Guarded cfg v p good K w) (aname : Utf16) :
    Safe cfg v p good K (cfg.tattach cid fid aname) w := by
  unfold Config.tattach
  rw [Safe, wp_bind]
  refine wp_lift _ (fun found _ => ?_) fun _ _ => h
  rw [wp_bind]
  refine wp_stat cfg _ _ (fun rec _ => ?_) fun _ _ => h
  cases rec with
  | none => exact h
  | some rec =>
    rw [wp_bind]
    exact (safe_bindFid h _ _).mono (fun _ _ h' => safe_qidOf h') fun _ _ he => he

omit [DecidableEq V] in
theorem safe_twalk (h : Guarded cfg v p good K w) (newfid : ℕ) (wnames : List Utf16) :
    Safe cfg v p good K (cfg.twalk cid fid newfid wnames) w := by
  refine safe_getFid h fun r _ => ?_
  rw [Safe, wp_bind, wp_fidAt, wp_bind]
  refine (keeps_walk cfg guarded_interns _ wnames _ _ w h).mono (fun found w' h' => ?_)
    fun _ _ he => he
  obtain ⟨qids, cur⟩ := found
  by_cases hfull : qids.length = wnames.length
  · simp only [if_pos hfull]
    rw [wp_bind]
    exact (safe_bindFid h' _ _).mono (fun _ _ h'' => h'') fun _ _ he => he
  · simp only [if_neg hfull]
    exact h'

omit [DecidableEq V] in
theorem safe_tgetattr (h : Guarded cfg v p good K w) :
    Safe cfg v p good K (cfg.tgetattr cid fid) w := by
  refine safe_getFid h fun r _ => safe_of_keeps h ?_
  refine keeps_bind (keeps_fidAt r) fun f => keeps_bind (keeps_stat cfg _ _) fun rec => ?_
  cases rec with
  | none => exact keeps_throw _
  | some rec =>
    exact keeps_bind (keeps_sizeOf cfg _ rec) fun _ =>
      keeps_bind (keeps_qidOf guarded_interns rec) fun _ => keeps_pure _

omit [DecidableEq V] in
theorem safe_treadlink (h : Guarded cfg v p good K w) :
    Safe cfg v p good K (cfg.treadlink cid fid) w := by
  refine safe_getFid h fun r _ => safe_of_keeps h ?_
  refine keeps_bind (keeps_fidAt r) fun f => keeps_bind (keeps_stat cfg _ _) fun rec => ?_
  cases rec with
  | none => exact keeps_throw _
  | some rec => exact keeps_ite (keeps_pure _) (keeps_throw _)

omit [DecidableEq V] in
theorem safe_tread (h : Guarded cfg v p good K w) (offset count : ℕ) :
    Safe cfg v p good K (cfg.tread cid fid offset count) w := by
  refine safe_getFid h fun r _ => safe_of_keeps h ?_
  refine keeps_bind (keeps_fidAt r) fun f => keeps_bind (keeps_stat cfg _ _) fun rec => ?_
  cases rec with
  | none => exact keeps_throw _
  | some rec =>
    exact keeps_ite (keeps_throw _) (keeps_bind (keeps_readBytes cfg _ _) fun _ => keeps_pure _)

omit [DecidableEq V] in
theorem safe_treaddir (h : Guarded cfg v p good K w) (offset count : ℕ) :
    Safe cfg v p good K (cfg.treaddir cid fid offset count) w := by
  refine safe_getFid h fun r _ => safe_of_coreFixed h ?_
  have hreload : ∀ f, CoreFixed (Config.treaddir.reload cfg offset count r f) := fun f =>
    coreFixed_bind (coreFixed_loadDirents cfg _ _) fun _ =>
      coreFixed_bind (coreFixed_modifyFid _ _ fun _ => ⟨rfl, rfl, rfl, rfl⟩) fun _ =>
        coreFixed_pure _
  refine coreFixed_bind (coreFixed_fidAt r) fun f => ?_
  split
  · split
    · exact hreload f
    · exact coreFixed_pure _
  · exact hreload f

variable (hv : (cfg.backend v).Lawful)

include hv

theorem safe_tversion (h : Guarded cfg v p good K w) (msize : ℕ) (version : Utf16) :
    Safe cfg v p good K (cfg.tversion cid msize version) w := by
  unfold Config.tversion
  rw [Safe, wp_bind]
  refine wp_conn cfg cid fun c hc _ hfids => ?_
  rw [wp_bind, wp_setConn]
  have hset := (h.touch cid).setConn cid
    (c := ⟨min (if msize = 0 then 8192 else msize) cfg.maxMsize, c.fids⟩) fun fid r hr => by
      rw [touch_next]
      exact h.tidy.bound cid fid r ((hfids fid).symm.trans hr)
  refine safe_bind (hset.during.closeAll hv c.fids.values) fun _ w' h' => ?_
  rw [Safe, wp_bind, wp_setConn, wp_bind, wp_modify, wp_pure]
  exact (h'.toGuarded.setConn cid fun fid r hr => by cases hr).of_sameCore
    ⟨rfl, rfl, rfl, rfl, fun _ => rfl, fun _ => rfl, fun _ => rfl, fun _ => rfl⟩

theorem safe_tclunk (h : Guarded cfg v p good K w) :
    Safe cfg v p good K (cfg.tclunk cid fid) w :=
  safe_getFid h fun r _ => safe_bind ((h.during.closeWriter hv r).mono (fun _ _ hw => hw.1)
    fun _ _ hw => hw.1) fun _ _ h' =>
      (wp_dropFid h'.toGuarded).mono (fun _ _ h'' => h'') fun _ _ hfalse => hfalse.elim

omit [DecidableEq V] hv in
theorem wp_fidAt_bind {α : Type} {f : Fid V → Handler V σ α} {Q : α → World V σ → Prop}
    {R : Fault → World V σ → Prop} (h : Wp (f (w.heap r)) Q R w) :
    Wp (Config.fidAt r >>= f) Q R w := by
  rw [wp_bind, wp_fidAt]
  exact h

omit [DecidableEq V] in
/-- The bytes that are read are good where they can be written back. -/
theorem During.readBytes_good (h : During cfg v p good K w₀ w) (hK : K) (hsettled : Settled v p w) :
    good ((cfg.backend v).readBytes (w.disk v) p) := by
  obtain ⟨c, hlook, hgood⟩ := (h.stored hK).shown hsettled
  rw [Backend.readBytes_of_look hv hlook]
  exact hgood

theorem spares_resize (h : During cfg v p good K w w₀) (size : ℕ)
    (hgood : K ∧ C → (w.heap r).vfs = v → (w.heap r).path = p →
      ∀ c, good c → good (Config.resized c size)) :
    Spares cfg v p good K C (Config.tsetattr.resize cfg r (w.heap r) size) w₀ := by
  unfold Config.tsetattr.resize
  refine spares_bind ((h.closeWriter hv r).mono (fun _ _ hw => hw.1) fun _ _ hw => hw.1)
    fun _ w₁ h₁ => ?_
  rw [Spares, wp_bind]
  have hsame := h₁.toGuarded.mono (And.left (b := C))
  refine wp_stat cfg _ _ (fun rec hstat => ?_) fun _ _ => h₁.toGuarded
  cases rec with
  | none => exact hsame
  | some rec =>
    simp only
    rw [wp_ite]
    refine ⟨fun _ => hsame, fun hkind => ?_⟩
    rw [wp_bind, wp_readBytes]
    refine spares_then (h₁.writeBytes hv (fun hK hu hq hsettled => ?_) fun hK hu hne hprior => ?_)
      fun _ _ h₂ => h₂.toGuarded
    · rw [hu, hq]
      exact hgood hK hu hq _ (h₁.readBytes_good hv hK.1 hsettled)
    · rw [hu] at hstat
      have hleaf : (cfg.backend v).isLeaf (w₁.disk v) (w.heap r).path := by
        rw [Backend.isLeaf_of_stat hstat]
        exact decide_eq_true hkind
      exact hne ((h₁.stored hK.1).above_of_leaf hv hleaf hprior)

theorem spares_tsetattr (h : Guarded cfg v p good K w) (valid size : ℕ)
    (hgood : valid &&& setattrSize ≠ 0 → ∀ r, ref w cid fid = some r → K ∧ C →
      (w.heap r).vfs = v → (w.heap r).path = p → ∀ c, good c → good (Config.resized c size)) :
    Spares cfg v p good K C (cfg.tsetattr cid fid valid size) w := by
  refine spares_getFid h fun r hr => ?_
  rw [Spares, wp_ite]
  refine ⟨fun _ => h.mono And.left, fun hvalid => ?_⟩
  refine wp_fidAt_bind ?_
  have hresize := spares_resize hv h.during (r := r) size (hgood hvalid r hr)
  cases hwr : (w.heap r).writer with
  | none => exact hresize
  | some wr =>
    simp only
    rw [wp_ite]
    refine ⟨fun hsize => ?_, fun _ => hresize⟩
    refine spares_then (h.during.replaceBytes hv hwr _ fun hK hu hq => ?_) fun _ _ h' =>
      h'.toGuarded
    have hbytes := (h.stored hK.1).bytes r wr hwr hu hq
    have hpath := (h.tidy.owned r wr hwr).1
    have hresized := hgood hvalid r hr hK hu (hpath ▸ hq) _ hbytes
    unfold Config.resized at hresized
    rwa [Nat.sub_eq_zero_of_le hsize, List.replicate_zero, List.append_nil] at hresized

/-- The steps of an open that may fail unnoticed. -/
theorem safe_tlopen (h : Guarded cfg v p good K w) (flags : ℕ)
    (hclear : flags &&& oTrunc ≠ 0 → ∀ r, ref w cid fid = some r → K → (w.heap r).vfs = v →
      (w.heap r).path = p → (cfg.backend v).isWritablePath p = false) :
    Safe cfg v p good K (cfg.tlopen cid fid flags) w := by
  refine safe_getFid h fun r hr => wp_fidAt_bind ?_
  rw [wp_bind]
  refine wp_stat cfg _ _ (fun rec hstat => ?_) fun _ _ => h
  cases rec with
  | none => exact h
  | some rec =>
    simp only
    rw [wp_ite]
    refine ⟨fun _ => safe_of_coreFixed h ?_, fun hkind => ?_⟩
    · exact coreFixed_bind (coreFixed_modifyFid _ _ fun _ => ⟨rfl, rfl, rfl, rfl⟩) fun _ =>
        coreFixed_bind (coreFixed_loadDirents cfg _ _) fun _ =>
          coreFixed_bind (coreFixed_modifyFid _ _ fun _ => ⟨rfl, rfl, rfl, rfl⟩) fun _ =>
            coreFixed_bind (coreFixed_qidOf rec) fun _ => coreFixed_pure _
    · have hlt := h.tidy.bound cid fid r hr
      have hrest : ∀ w', During cfg v p good K w w' → Safe cfg v p good K (do
          Config.modifyFid r fun f => { f with opened := true, dirents := none }
          return Body.rlopen (← Config.qidOf rec) 0) w' := fun w' h' =>
        safe_of_coreFixed h'.toGuarded
          (coreFixed_bind (coreFixed_modifyFid _ _ fun _ => ⟨rfl, rfl, rfl, rfl⟩) fun _ =>
            coreFixed_bind (coreFixed_qidOf rec) fun _ => coreFixed_pure _)
      rw [wp_ite]
      refine ⟨fun _ => ?_, fun htrunc => ?_⟩
      · rw [wp_bind, wp_tryCatch]
        refine (wp_map _ _).mpr ?_
        have hopen := h.during.openWriter (C := True) hv hlt true fun hfalse => by cases hfalse
        exact hopen.mono (fun _ w' h' => hrest w' (h'.mono fun hK => ⟨hK, fun _ _ => trivial⟩))
          fun _ w' h' => hrest w' h'
      · -- a folder is not emptied, so the fid is on the file or not above it
        have hempty := h.during.emptyFile (C := True) hv hlt fun hK hu hwritable hprior => by
          rw [hu] at hstat
          have hleaf : (cfg.backend v).isLeaf (w.disk v) (w.heap r).path := by
            rw [Backend.isLeaf_of_stat hstat]
            exact decide_eq_true hkind
          have hq := (h.stored hK.1).above_of_leaf hv hleaf hprior
          rw [hq, hclear htrunc r hr hK.1 hu hq] at hwritable
          cases hwritable
        rw [wp_bind, wp_tryCatch]
        exact hempty.mono (fun _ w' h' => hrest w' (h'.mono fun hK => ⟨hK, trivial⟩))
          fun _ w' h' => hrest w' h'

omit [DecidableEq V] hv in
/-- A fid without a writer changes its path. -/
theorem Guarded.setPath (h : Guarded cfg v p good K w) (hidle : (w.heap r).writer = none)
    (q : Path) : Guarded cfg v p good K (w.setFid r { w.heap r with path := q }) := by
  refine ⟨h.tidy.setFid hidle hidle (h.tidy.idle r hidle), fun hK => ?_⟩
  have hcell : ∀ r' wr, (w.heap r').writer = some wr → r' ≠ r := by
    rintro r' wr hwr rfl
    rw [hidle] at hwr
    cases hwr
  refine (h.stored hK).of_writers (fun r' u q' hr' => ?_) rfl fun hsettled => ?_
  · by_cases heq : r' = r
    · subst heq
      obtain ⟨wr, hwr, -⟩ := hr'
      rw [setFid_heap_self] at hwr
      exact absurd rfl (hcell r' wr hwr)
    · exact setFid_heap_of_ne w _ heq
  · refine (h.stored hK).shown fun r' wr hwr hu hq => hsettled r' wr ?_ ?_ hq
    · rw [setFid_heap_of_ne w _ (hcell r' wr hwr)]
      exact hwr
    · rw [setFid_heap_of_ne w _ (hcell r' wr hwr)]
      exact hu

omit [DecidableEq V] hv in
theorem Closed.idle {w' : World V σ} (h : Closed cfg v p good K w₀ w r w') :
    (w'.heap r).writer = none := by
  by_contra hne
  obtain ⟨wr, hwr⟩ := Option.ne_none_iff_exists'.mp hne
  exact (h.2 r _ _ ⟨wr, hwr, rfl, rfl⟩).1 rfl

omit [DecidableEq V] hv in
theorem wp_trivial {α : Type} (x : Handler V σ α) (w : World V σ) :
    Wp x (fun _ _ => True) (fun _ _ => True) w := by
  unfold Wp
  split <;> trivial

/-- An emptied file is there, unless it was to be the root. -/
theorem wp_emptyFile {q : Path} (hu : (w.heap r).vfs = v) (hpath : (w.heap r).path = q)
    (hq : q ≠ []) :
    Wp (cfg.emptyFile r v q)
      (fun _ w' => (cfg.backend v).look (w'.disk v) q = .ok (some (.file [])))
      (fun _ _ => True) w := by
  have hshows : ∀ {w' : World V σ} {d : σ},
      (cfg.backend v).apply (w'.disk v) (.write q (.file [])) = .ok d →
      (cfg.backend v).look ((w'.setDisk v d).disk v) q = .ok (some (.file [])) := by
    intro w' d hd
    rw [setDisk_disk_self]
    exact hv.write_shows _ _ _ _ hq hd
  unfold Config.emptyFile Config.openWriter
  rw [wp_bind, wp_bind, wp_fidAt, hu, hpath, wp_ite]
  refine ⟨fun _ => ?_, fun _ => wp_call cfg v _ (fun d hd => hshows hd) fun _ _ => trivial⟩
  rw [wp_bind]
  refine (wp_trivial _ w).mono (fun _ w₁ _ => ?_) fun _ _ he => he
  rw [wp_bind]
  refine (wp_trivial _ w₁).mono (fun _ w₂ _ => ?_) fun _ _ he => he
  unfold Config.openWriteAt
  rw [wp_bind, if_neg Bool.false_ne_true, wp_bind]
  exact wp_call cfg v _ (fun d hd => hshows hd) fun _ _ => trivial

/-- Where the file can be looked at after it was created, only the creation itself throws. -/
theorem spares_tlcreate (h : Guarded cfg v p good K w) (name : Utf16)
    (hclear : ∀ r q, ref w cid fid = some r → joinName (w.heap r).path name = .ok q →
      Clear v p (K ∧ C) (w.heap r).vfs [q])
    (hsure : ∀ r q, ref w cid fid = some r → joinName (w.heap r).path name = .ok q →
      ¬ ((w.heap r).vfs = v ∧ q ≠ []) → K → C) :
    Spares cfg v p good K C (cfg.tlcreate cid fid name) w := by
  refine spares_getFid h fun r hr => wp_fidAt_bind ?_
  rw [wp_bind]
  refine wp_lift _ (fun q hq => ?_) fun _ _ => h
  rw [wp_bind]
  refine (h.during.closeWriter hv r).mono (fun _ w₁ hw₁ => ?_) fun _ _ hw => hw.1.toGuarded
  rw [wp_bind, wp_modifyFid]
  have hmoved := hw₁.1.toGuarded.setPath hw₁.idle q
  have hlt : r < (w₁.setFid r { w₁.heap r with path := q }).next := by
    change r < w₁.next
    rw [hw₁.1.fids.next]
    exact h.tidy.bound cid fid r hr
  have hvfs := hw₁.1.fids.vfs r
  have hempty := hmoved.during.emptyFile (C := C) hv hlt (by
    rw [setFid_heap_self, hvfs]
    exact fun hK hu _ => hclear r q hr hq hK hu q (List.mem_singleton_self q))
  rw [setFid_heap_self] at hempty
  change Wp (cfg.emptyFile r (w₁.heap r).vfs q) _ _ _ at hempty
  rw [hvfs] at hempty
  have hrest : ∀ u, CoreFixed (do
      let found ← cfg.stat u q
      Config.modifyFid r fun f => { f with opened := true, dirents := none }
      return Body.rlcreate (← Config.qidOf (← Config.created found)) 0 : Handler V σ Body) :=
    fun u => coreFixed_bind (coreFixed_stat cfg _ _) fun _ =>
      coreFixed_bind (coreFixed_modifyFid _ _ fun _ => ⟨rfl, rfl, rfl, rfl⟩) fun _ =>
        coreFixed_bind (coreFixed_created _) fun _ =>
          coreFixed_bind (coreFixed_qidOf _) fun _ => coreFixed_pure _
  rw [wp_bind]
  by_cases hseen : (w.heap r).vfs = v ∧ q ≠ []
  · obtain ⟨hu, hroot⟩ := hseen
    have hsame : ((w₁.setFid r { w₁.heap r with path := q }).heap r).vfs = v := by
      rw [setFid_heap_self, hvfs, hu]
    have hhere : ((w₁.setFid r { w₁.heap r with path := q }).heap r).path = q := by
      rw [setFid_heap_self]
    have hshown := wp_emptyFile hv hsame hhere hroot
    rw [hu] at hempty ⊢
    refine (hempty.and hshown).mono (fun _ w₂ hw₂ => ?_) fun _ _ he => he.1.toGuarded
    have hkept := safe_of_coreFixed hw₂.1.toGuarded (hrest v)
    have hreturns : Wp (do
        let found ← cfg.stat v q
        Config.modifyFid r fun f => { f with opened := true, dirents := none }
        return Body.rlcreate (← Config.qidOf (← Config.created found)) 0 : Handler V σ Body)
        (fun _ _ => True) (fun _ _ => False) w₂ := by
      obtain ⟨rec, hrec, -⟩ := Backend.stat_of_isLeaf (Backend.isLeaf_of_look hw₂.2 rfl)
      rw [wp_bind]
      refine wp_stat cfg v q (fun found hfound => ?_) fun e he => ?_
      · cases hrec.symm.trans hfound
        rw [wp_bind, wp_modifyFid]
        change Wp (Config.qidOf rec >>= fun qid => pure (Body.rlcreate qid 0)) _ _ _
        rw [wp_bind]
        exact wp_qidOf rec fun _ _ _ => trivial
      · cases hrec.symm.trans he
    exact (hkept.and hreturns).mono (fun _ _ h' => h'.1) fun _ _ h' => h'.2.elim
  · refine hempty.mono (fun _ w₂ h₂ => ?_) fun _ _ he => he.toGuarded
    exact (safe_of_coreFixed h₂.toGuarded (hrest _)).mono (fun _ _ h' => h') fun _ _ h' =>
      h'.mono fun hK => ⟨hK, hsure r q hr hq hseen hK⟩

theorem safe_make (h : Guarded cfg v p good K w) (name : Utf16) (c : Path → Call)
    (hclear : ∀ r q, ref w cid fid = some r → joinName (w.heap r).path name = .ok q →
      (∃ d, (cfg.backend (w.heap r).vfs).apply (w.disk (w.heap r).vfs) (c q) = .ok d) →
      Clear v p K (w.heap r).vfs (c q).replaced) :
    Safe cfg v p good K (cfg.make cid fid name c) w := by
  refine safe_getFid h fun r hr => wp_fidAt_bind ?_
  rw [wp_bind]
  refine wp_lift _ (fun q hq => ?_) fun _ _ => h
  have hcall := h.during.call (C := True) hv fun hd hK => hclear r q hr hq hd hK.1
  refine safe_bind (hcall.mono (fun _ _ h' => h'.mono fun hK => ⟨hK, trivial⟩) fun _ _ he => he)
    fun _ w' h' => safe_of_coreFixed h'.toGuarded ?_
  exact coreFixed_bind (coreFixed_stat cfg _ _) fun _ =>
    coreFixed_bind (coreFixed_created _) fun _ => coreFixed_qidOf _

theorem During.reopen (h : During cfg v p good K w₀ w) (hlt : r < w₀.next) (offset : ℕ)
    (f : Fid V) : Wp (Config.twrite.reopen cfg offset r f) (fun _ => During cfg v p good K w₀)
      (fun _ => During cfg v p good K w₀) w := by
  unfold Config.twrite.reopen
  rw [wp_ite]
  refine ⟨fun _ => ?_, fun _ => h⟩
  rw [wp_bind]
  refine wp_stat cfg _ _ (fun found _ => ?_) fun _ _ => h
  rw [wp_bind]
  have hsize : Keeps (During cfg v p good K w₀) (Config.twrite.sizeOrZero cfg f.vfs found) := by
    cases found with
    | none => exact keeps_pure 0
    | some rec => exact keeps_sizeOf cfg f.vfs rec
  refine (hsize w h).mono (fun size w' h' => ?_) fun _ _ he => he
  rw [wp_ite]
  refine ⟨fun _ => (wp_map _ _).mpr ?_, fun _ => h'⟩
  have hopen := h'.openWriter (C := True) hv (by rw [h'.fids.next]; exact hlt) true
    fun hfalse => by cases hfalse
  exact hopen.mono (fun _ _ h'' => h''.mono fun hK => ⟨hK, fun _ _ => trivial⟩) fun _ _ he => he

theorem During.readModifyWrite (h : During cfg v p good K w₀ w) {f : Fid V}
    (hvfs : f.vfs = (w₀.heap r).vfs) (hpath : f.path = (w₀.heap r).path) (offset : ℕ)
    (data : List UInt8)
    (hgood : K ∧ C → (w₀.heap r).vfs = v → (w₀.heap r).path = p →
      ∀ c, good c → good (Config.overlay c offset data))
    (hclear : K ∧ C → (w₀.heap r).vfs = v → (w₀.heap r).path ≠ p → ¬ (w₀.heap r).path <+: p) :
    Spares cfg v p good K C (Config.twrite.readModifyWrite cfg offset data r f) w := by
  unfold Config.twrite.readModifyWrite
  rw [hvfs, hpath]
  refine spares_bind ((h.closeWriter hv r).mono (fun _ _ hw => hw.1) fun _ _ hw => hw.1)
    fun _ w₁ h₁ => ?_
  rw [Spares, wp_bind, wp_readBytes]
  refine spares_then (h₁.writeBytes hv (fun hK hu hq hsettled => ?_) hclear) fun _ _ h₂ =>
    h₂.toGuarded
  rw [hu, hq]
  exact hgood hK hu hq _ (h₁.readBytes_good hv hK.1 hsettled)

/-- More bytes at the end of the file are always good ones. -/
theorem spares_twrite (h : Guarded cfg v p good K w) (offset : ℕ) (data : List UInt8)
    (hgrow : ∀ c, good c → good (c ++ data))
    (hgood : ∀ r, ref w cid fid = some r → K ∧ C → (w.heap r).vfs = v → (w.heap r).path = p →
      ∀ c, good c → good (Config.overlay c offset data))
    (hclear : ∀ r, ref w cid fid = some r → K ∧ C → (w.heap r).vfs = v → (w.heap r).path ≠ p →
      ¬ (w.heap r).path <+: p) :
    Spares cfg v p good K C (cfg.twrite cid fid offset data) w := by
  refine spares_getFid h fun r hr => ?_
  refine spares_bind ((h.during.closeConflictingWriter hv r).mono (fun _ _ hw => hw.1)
    fun _ _ he => he) fun _ w₁ h₁ => wp_fidAt_bind ?_
  refine spares_bind (h₁.reopen hv (h.tidy.bound cid fid r hr) offset _) fun _ w₂ h₂ =>
    wp_fidAt_bind ?_
  have hvfs := h₁.fids.vfs r
  have hrmw := h₂.readModifyWrite hv hvfs (h₁.fids.path r) offset data (hgood r hr) (hclear r hr)
  cases hwr : (w₂.heap r).writer with
  | none => exact hrmw
  | some wr =>
    simp only
    rw [wp_ite]
    refine ⟨fun _ => ?_, fun _ => hrmw⟩
    rw [hvfs]
    refine spares_then (h₂.replaceBytes hv hwr _ fun hK hu hq => ?_) fun _ _ h' => h'.toGuarded
    have hu' : (w₂.heap r).vfs = v := (h₂.fids.vfs r).trans hu
    exact hgrow _ ((h₂.stored hK.1).bytes r wr hwr hu' hq)

theorem spares_tremove (h : Guarded cfg v p good K w)
    (hclear : ∀ r, ref w cid fid = some r → Clear v p (K ∧ C) (w.heap r).vfs [(w.heap r).path]) :
    Spares cfg v p good K C (cfg.tremove cid fid) w := by
  refine spares_getFid h fun r hr => ?_
  refine spares_bind ((h.during.closeWriter hv r).mono (fun _ _ hw => hw.1) fun _ _ hw => hw.1)
    fun _ w₁ h₁ => wp_fidAt_bind ?_
  rw [h₁.fids.vfs, h₁.fids.path]
  exact spares_then (h₁.call hv fun _ => hclear r hr) fun _ _ h₂ => wp_dropFid h₂.toGuarded

theorem safe_tunlinkat (h : Guarded cfg v p good K w) (name : Utf16)
    (hclear : ∀ r q, ref w cid fid = some r → joinName (w.heap r).path name = .ok q →
      (∃ d, (cfg.backend (w.heap r).vfs).apply (w.disk (w.heap r).vfs) (.remove q) = .ok d) →
      Clear v p K (w.heap r).vfs [q]) :
    Safe cfg v p good K (cfg.tunlinkat cid fid name) w := by
  refine safe_getFid h fun r hr => wp_fidAt_bind ?_
  rw [wp_bind]
  refine wp_lift _ (fun q hq => ?_) fun _ _ => h
  refine safe_of_spares (spares_then (h.during.call hv fun hd hK => ?_) fun _ _ h' => h'.toGuarded)
  exact hclear r q hr hq hd hK.1

theorem spares_trename (h : Guarded cfg v p good K w) (dfid : ℕ) (name : Utf16)
    (hclear : ∀ r d q, ref w cid fid = some r → ref w cid dfid = some d →
      joinName (w.heap d).path name = .ok q →
      Clear v p (K ∧ C) (w.heap r).vfs [(w.heap r).path, q]) :
    Spares cfg v p good K C (cfg.trename cid fid dfid name) w := by
  refine spares_getFid h fun r hr => spares_getFid h fun d hd => wp_fidAt_bind ?_
  rw [wp_bind]
  refine wp_lift _ (fun q hq => ?_) fun _ _ => h
  rw [wp_bind]
  refine (h.during.closeWriter hv r).mono (fun _ w₁ hw₁ => wp_fidAt_bind ?_) fun _ _ hw =>
    hw.1.toGuarded
  have h₁ := hw₁.1
  rw [h₁.fids.vfs, h₁.fids.path, wp_bind]
  refine wp_call cfg _ _ (fun e he => ?_) fun _ _ => h₁.toGuarded
  rw [wp_bind, wp_modifyFid]
  have hmoved := (h₁.toGuarded.mono And.left).setDisk hv he (hclear r d q hr hd hq)
  exact hmoved.setPath hw₁.idle q

theorem safe_trenameat (h : Guarded cfg v p good K w) (oldname : Utf16) (newdirfid : ℕ)
    (newname : Utf16)
    (hclear : ∀ r d src dst, ref w cid fid = some r → ref w cid newdirfid = some d →
      joinName (w.heap r).path oldname = .ok src → joinName (w.heap d).path newname = .ok dst →
      (∃ d', (cfg.backend (w.heap r).vfs).apply (w.disk (w.heap r).vfs) (.move src dst) = .ok d') →
      Clear v p K (w.heap r).vfs [src, dst]) :
    Safe cfg v p good K (cfg.trenameat cid fid oldname newdirfid newname) w := by
  refine safe_getFid h fun r hr => wp_fidAt_bind (safe_getFid h fun d hd => wp_fidAt_bind ?_)
  rw [wp_bind]
  refine wp_lift _ (fun src hsrc => ?_) fun _ _ => h
  rw [wp_bind]
  refine wp_lift _ (fun dst hdst => ?_) fun _ _ => h
  refine safe_of_spares (spares_then (h.during.call hv fun he hK => ?_) fun _ _ h' => h'.toGuarded)
  exact hclear r d src dst hr hd hsrc hdst he hK.1

theorem safe_tfsync (h : Guarded cfg v p good K w) :
    Safe cfg v p good K (cfg.tfsync cid fid) w := by
  refine safe_getFid h fun r hr => wp_fidAt_bind ?_
  cases hwr : (w.heap r).writer with
  | none => exact h
  | some wr =>
    unfold Config.flush
    simp only
    rw [wp_bind, wp_ite]
    refine ⟨fun _ => ?_, fun _ => h⟩
    exact (h.during.save hv hwr).mono (fun _ _ h' => h'.toGuarded) fun _ _ h' => h'.toGuarded

end Handlers

section Ranges

variable {cfg : Config V σ} {v : V} {p : Path} {K : Prop} {w : World V σ} {offset : ℕ}
  {data : List UInt8}

/-- The path is neither that of the file nor above it. -/
def clearPath (v : V) (p : Path) (u : V) (q : Path) : Bool := decide (u ≠ v) || !q.isPrefixOf p

/-- The fid is bound to the file. -/
def onFile (v : V) (p : Path) (f : Fid V) : Bool := decide (f.vfs = v ∧ f.path = p)

/-- A request on the file itself has to meet `k`; any other one must not be above it. -/
def clearFile (v : V) (p : Path) (f : Fid V) (k : Bool) : Bool :=
  if onFile v p f then k else clearPath v p f.vfs f.path

/-- The call is rejected, or it replaces nothing at or above the file. -/
def clearCall (cfg : Config V σ) (v : V) (p : Path) (w : World V σ) (u : V) (c : Call) : Bool :=
  (match (cfg.backend u).apply (w.disk u) c with
    | .ok _ => false
    | .error _ => true) || c.replaced.all (clearPath v p u)

/-- The request is answered with an error. -/
def Config.rejects (cfg : Config V σ) (w : World V σ) (cid : ℕ) (body : Body) : Bool :=
  match cfg.dispatch cid body w with
  | .ok _ _ => false
  | .error _ _ => true

/-- The request does not change the bytes of the file from `offset` to `bound`: it names other
files or another range, or it is rejected. A rejected Tlcreate may have created the root. -/
def leavesRange (cfg : Config V σ) (v : V) (p : Path) (offset bound : ℕ) (w : World V σ) (cid : ℕ)
    (body : Body) : Bool :=
  match body with
  | .tsetattr fid valid _ _ _ size _ _ _ _ =>
    decide (valid &&& setattrSize = 0) || cfg.rejects w cid body || onFid w cid fid fun r =>
      !onFile v p (w.heap r) || decide (bound ≤ size)
  | .tlopen fid flags =>
    decide (flags &&& oTrunc = 0) || onFid w cid fid fun r =>
      !onFile v p (w.heap r) || !(cfg.backend v).isWritablePath p
  | .tlcreate fid name _ _ _ => onFid w cid fid fun r => onName (w.heap r).path name fun q =>
      (decide (q ≠ []) && cfg.rejects w cid body) || clearPath v p (w.heap r).vfs q
  | .tsymlink fid name symtgt _ => onFid w cid fid fun r => onName (w.heap r).path name fun q =>
      clearCall cfg v p w (w.heap r).vfs (.write q (.alias symtgt))
  | .twrite fid start bytes => cfg.rejects w cid body || onFid w cid fid fun r =>
      clearFile v p (w.heap r)
        (decide (bytes = []) || decide (start + bytes.length ≤ offset) || decide (bound ≤ start))
  | .tremove fid => cfg.rejects w cid body || onFid w cid fid fun r =>
      clearPath v p (w.heap r).vfs (w.heap r).path
  | .tunlinkat dirfid name _ => onFid w cid dirfid fun r => onName (w.heap r).path name fun q =>
      clearCall cfg v p w (w.heap r).vfs (.remove q)
  | .trename fid dfid name =>
    cfg.rejects w cid body || onFid w cid fid fun r => onFid w cid dfid fun d =>
      onName (w.heap d).path name fun q =>
        clearPath v p (w.heap r).vfs (w.heap r).path && clearPath v p (w.heap r).vfs q
  | .trenameat olddirfid oldname newdirfid newname =>
    onFid w cid olddirfid fun r => onFid w cid newdirfid fun d =>
      onName (w.heap r).path oldname fun src => onName (w.heap d).path newname fun dst =>
        clearCall cfg v p w (w.heap r).vfs (.move src dst)
  | _ => true

theorem not_prefix_of_clearPath {u : V} {q : Path} (h : clearPath v p u q = true) (hu : u = v) :
    ¬ q <+: p := by
  intro hprefix
  simp [clearPath, hu, List.isPrefixOf_iff_prefix.mpr hprefix] at h

theorem clear_of_clearPath {u : V} {q : Path} (h : K → clearPath v p u q = true) :
    Clear v p K u [q] := by
  intro hK hu q' hq'
  rw [List.mem_singleton.mp hq']
  exact not_prefix_of_clearPath (h hK) hu

theorem clear_of_clearPaths {u : V} {q q' : Path}
    (h : K → (clearPath v p u q && clearPath v p u q') = true) : Clear v p K u [q, q'] := by
  intro hK hu x hx
  obtain ⟨hq, hq'⟩ := Bool.and_eq_true_iff.mp (h hK)
  rcases List.mem_pair.mp hx with rfl | rfl
  · exact not_prefix_of_clearPath hq hu
  · exact not_prefix_of_clearPath hq' hu

theorem clear_of_clearCall {u : V} {c : Call}
    (hd : ∃ d, (cfg.backend u).apply (w.disk u) c = .ok d)
    (h : K → clearCall cfg v p w u c = true) : Clear v p K u c.replaced := by
  obtain ⟨d, hd⟩ := hd
  intro hK hu q hq
  have hall := h hK
  simp only [clearCall, hd, Bool.false_or] at hall
  exact not_prefix_of_clearPath (List.all_eq_true.mp hall q hq) hu

/-- A handler that spares the file leaves it alone where it throws or meets the condition. -/
theorem safe_dispatch_of_spares {cid : ℕ} {body : Body} {good : List UInt8 → Prop} {C : Prop}
    (h : Spares cfg v p good K C (cfg.dispatch cid body) w)
    (hC : K → cfg.rejects w cid body = true ∨ C) :
    Safe cfg v p good K (cfg.dispatch cid body) w := by
  unfold Config.rejects at hC
  unfold Spares Wp at h
  unfold Safe Wp
  cases hrun : cfg.dispatch cid body w with
  | ok reply w' =>
    rw [hrun] at h hC
    exact h.mono fun hK => ⟨hK, (hC hK).resolve_left Bool.false_ne_true⟩
  | error e w' =>
    rw [hrun] at h
    exact h

/-- The file reaches over the range and has the bytes there. -/
def Covers (offset : ℕ) (data c : List UInt8) : Prop :=
  offset + data.length ≤ c.length ∧ Contains c offset data

omit [DecidableEq V] in
theorem covers_overlay (cur : List UInt8) (offset : ℕ) (data : List UInt8) :
    Covers offset data (Config.overlay cur offset data) := by
  refine ⟨?_, contains_overlay cur offset data⟩
  rw [overlay_length]
  omega

omit [DecidableEq V] in
theorem Covers.resized {cur : List UInt8} {size : ℕ} (h : Covers offset data cur)
    (hsize : offset + data.length ≤ size) : Covers offset data (Config.resized cur size) := by
  obtain ⟨hlen, hbytes⟩ := h
  rw [contains_iff] at hbytes
  refine ⟨by rw [resized_length]; exact hsize, contains_iff.mpr fun i hi => ?_⟩
  rw [getElem?_resized (by omega) (by omega), hbytes i hi]

omit [DecidableEq V] in
theorem Covers.append {cur : List UInt8} (h : Covers offset data cur) (bytes : List UInt8) :
    Covers offset data (cur ++ bytes) := by
  obtain ⟨hlen, hbytes⟩ := h
  rw [contains_iff] at hbytes
  refine ⟨by rw [List.length_append]; omega, contains_iff.mpr fun i hi => ?_⟩
  rw [List.getElem?_append_left (by omega), hbytes i hi]

omit [DecidableEq V] in
/-- Other bytes are laid over another range, or none at all. -/
theorem Covers.overlay {cur bytes : List UInt8} {start : ℕ} (h : Covers offset data cur)
    (hrange : bytes = [] ∨ start + bytes.length ≤ offset ∨ offset + data.length ≤ start) :
    Covers offset data (Config.overlay cur start bytes) := by
  obtain ⟨hlen, hbytes⟩ := h
  rw [contains_iff] at hbytes
  refine ⟨by rw [overlay_length]; omega, contains_iff.mpr fun i hi => ?_⟩
  have hout : offset + i < start ∨ start + bytes.length ≤ offset + i := by
    rcases hrange with rfl | hdisjoint
    · simp only [List.length_nil]
      omega
    · omega
  rw [getElem?_overlay (by omega) hout, hbytes i hi]

variable (hv : (cfg.backend v).Lawful)

include hv

/-- Every request keeps the tables tidy; one that leaves the range alone keeps the file. -/
theorem safe_dispatch {cid : ℕ} {body : Body}
    (h : Guarded cfg v p (Covers offset data) K w)
    (hleaves : K → leavesRange cfg v p offset (offset + data.length) w cid body = true) :
    Safe cfg v p (Covers offset data) K (cfg.dispatch cid body) w := by
  have hfid : ∀ fid (k : Ref → Handler V σ Body), (∀ r, CoreFixed (k r)) →
      Safe cfg v p (Covers offset data) K (cfg.getFid cid fid >>= k) w :=
    fun fid k hk => safe_getFid h fun r _ => safe_of_coreFixed h (hk r)
  cases body with
  | tversion msize version => exact safe_tversion hv h msize version
  | tattach fid afid uname aname nUname => exact safe_tattach h aname
  | twalk fid newfid wnames => exact safe_twalk h newfid wnames
  | tgetattr fid mask => exact safe_tgetattr h
  | treadlink fid => exact safe_treadlink h
  | tread fid start count => exact safe_tread h start count
  | treaddir fid start count => exact safe_treaddir h start count
  | tclunk fid => exact safe_tclunk hv h
  | tfsync fid datasync => exact safe_tfsync hv h
  | tsetattr fid valid mode uid gid size atimeSec atimeNsec mtimeSec mtimeNsec =>
    by_cases hvalid : valid &&& setattrSize = 0
    · exact safe_of_spares (spares_tsetattr hv h valid size fun hne => absurd hvalid hne)
    · refine safe_dispatch_of_spares (C := onFid w cid fid (fun r =>
        !onFile v p (w.heap r) || decide (offset + data.length ≤ size)) = true)
        (spares_tsetattr hv h valid size fun _ r hr hK hu hq c hc => ?_) fun hK => ?_
      · have hsize := onFid_spec hK.2 hr
        simp only [onFile, hu, hq, and_self, decide_true, Bool.not_true, Bool.false_or] at hsize
        exact hc.resized (of_decide_eq_true hsize)
      · have hor := hleaves hK
        simp only [leavesRange, hvalid, decide_false, Bool.false_or] at hor
        exact Bool.or_eq_true_iff.mp hor
  | tlopen fid flags =>
    refine safe_tlopen hv h flags fun htrunc r hr hK hu hq => ?_
    have hor := hleaves hK
    simp only [leavesRange, htrunc, decide_false, Bool.false_or] at hor
    simpa [onFile, hu, hq] using onFid_spec hor hr
  | tlcreate fid name flags mode gid =>
    refine safe_dispatch_of_spares (C := onFid w cid fid (fun r =>
      onName (w.heap r).path name fun q => clearPath v p (w.heap r).vfs q) = true)
      (spares_tlcreate hv h name (fun r q hr hq => clear_of_clearPath fun hK =>
        onName_spec (onFid_spec hK.2 hr) hq) fun r q hr hq hsure hK => ?_) fun hK => ?_
    · have hor := onName_spec (onFid_spec (hleaves hK) hr) hq
      simp only [onFid, hr, onName, hq]
      by_cases hu : (w.heap r).vfs = v
      · have hroot : q = [] := not_not.mp fun hne => hsure ⟨hu, hne⟩
        simpa [hroot] using hor
      · simp [clearPath, hu]
    · by_cases hrejects : cfg.rejects w cid (.tlcreate fid name flags mode gid) = true
      · exact .inl hrejects
      · right
        simpa only [leavesRange, hrejects, Bool.and_false, Bool.false_or] using hleaves hK
  | tmkdir dfid name mode gid =>
    change Safe cfg v p _ K (do return Body.rmkdir (← cfg.make cid dfid name .mkdir)) w
    rw [Safe, wp_bind]
    exact (safe_make hv h name .mkdir fun r q _ _ _ _ _ x hx => by cases hx).mono
      (fun _ _ h' => h') fun _ _ he => he
  | tsymlink fid name symtgt gid =>
    change Safe cfg v p _ K (do
      return Body.rsymlink (← cfg.make cid fid name fun q => .write q (.alias symtgt))) w
    rw [Safe, wp_bind]
    refine (safe_make hv h name _ fun r q hr hq hd => ?_).mono (fun _ _ h' => h') fun _ _ he => he
    exact clear_of_clearCall hd fun hK => onName_spec (onFid_spec (hleaves hK) hr) hq
  | twrite fid start bytes =>
    refine safe_dispatch_of_spares (C := onFid w cid fid (fun r => clearFile v p (w.heap r)
      (decide (bytes = []) || decide (start + bytes.length ≤ offset) ||
        decide (offset + data.length ≤ start))) = true)
      (spares_twrite hv h start bytes (fun c hc => hc.append bytes) (fun r hr hK hu hq c hc => ?_)
        fun r hr hK hu hq => ?_) fun hK => Bool.or_eq_true_iff.mp (hleaves hK)
    · have hclear := onFid_spec hK.2 hr
      rw [clearFile, onFile, if_pos (decide_eq_true ⟨hu, hq⟩), Bool.or_eq_true,
        Bool.or_eq_true] at hclear
      rcases hclear with (hnil | hbefore) | hafter
      · exact hc.overlay (.inl (of_decide_eq_true hnil))
      · exact hc.overlay (.inr (.inl (of_decide_eq_true hbefore)))
      · exact hc.overlay (.inr (.inr (of_decide_eq_true hafter)))
    · have hclear := onFid_spec hK.2 hr
      have hother : ¬ onFile v p (w.heap r) = true := fun hboth =>
        hq (of_decide_eq_true hboth).2
      rw [clearFile, if_neg hother] at hclear
      exact not_prefix_of_clearPath hclear hu
  | tremove fid =>
    exact safe_dispatch_of_spares (spares_tremove hv h fun r hr => clear_of_clearPath fun hK =>
      onFid_spec hK.2 hr) fun hK => Bool.or_eq_true_iff.mp (hleaves hK)
  | tunlinkat dirfid name flags =>
    exact safe_tunlinkat hv h name fun r q hr hq hd => clear_of_clearCall (c := .remove q) hd
      fun hK => onName_spec (onFid_spec (hleaves hK) hr) hq
  | trename fid dfid name =>
    exact safe_dispatch_of_spares (spares_trename hv h dfid name fun r d q hr hd hq =>
      clear_of_clearPaths fun hK => onName_spec (onFid_spec (onFid_spec hK.2 hr) hd) hq)
      fun hK => Bool.or_eq_true_iff.mp (hleaves hK)
  | trenameat olddirfid oldname newdirfid newname =>
    exact safe_trenameat hv h oldname newdirfid newname fun r d src dst hr hd hsrc hdst he =>
      clear_of_clearCall (c := .move src dst) he fun hK =>
        onName_spec (onName_spec (onFid_spec (onFid_spec (hleaves hK) hr) hd) hsrc) hdst
  | tstatfs fid => exact hfid fid _ fun _ => coreFixed_pure _
  | tlock fid locktype flags start length procId clientId =>
    exact hfid fid _ fun _ => coreFixed_pure _
  | tgetlock fid locktype start length procId clientId => exact hfid fid _ fun _ => coreFixed_pure _
  | _ => exact h

end Ranges

end NixWasm.NinepServer
