import NixWasm.NinepRules
import NixWasm.NinepStreamedRuns

/-!
Which paths a guest can reach through an export. Every fid object remembers, outside
the server, the export it was attached through; walks hand it on. A request depends on
the backend at a path when a backend that answers differently there alone changes the
outcome. As long as no request steps from the root of an export to its parent, every
fid stays at or below that root and no request depends on anything else.
-/
namespace NixWasm.NinepServer

open Unicode Vfs NinepCodec Effects Runs

variable {V σ : Type} [DecidableEq V]

section Backends

/-- All the paths a call names. -/
def Call.paths : Call → List Path
  | .write p _ => [p]
  | .mkdir p => [p]
  | .remove p => [p]
  | .move src dst => [src, dst]

/-- The backends answer alike wherever all the paths of a call are allowed. -/
structure AgreeOn (A : V → Path → Prop) (b b' : V → Backend σ) : Prop where
  stat : ∀ v p, A v p → ∀ s, (b' v).stat s p = (b v).stat s p
  list : ∀ v p, A v p → ∀ s, (b' v).list s p = (b v).list s p
  readBlob : ∀ v p, A v p → ∀ s, (b' v).readBlob s p = (b v).readBlob s p
  apply : ∀ v c, (∀ p ∈ Call.paths c, A v p) → ∀ s, (b' v).apply s c = (b v).apply s c
  isWritablePath : ∀ v p, A v p → (b' v).isWritablePath p = (b v).isWritablePath p

/-- The same server over other backends. -/
def Config.over (cfg : Config V σ) (b : V → Backend σ) : Config V σ := { cfg with backend := b }

/-- A record carries the path it was asked for. -/
def Reports (b : Backend σ) : Prop := ∀ s p rec, b.stat s p = .ok (some rec) → rec.path = p

/-- Answering differently at this path alone changes the reply or the world. -/
def Config.Consults (cfg : Config V σ) (w : World V σ) (request : ℕ × List UInt8) (v : V)
    (p : Path) : Prop :=
  ∃ b, AgreeOn (fun u q => ¬ (u = v ∧ q = p)) cfg.backend b ∧
    (cfg.over b).handle request.1 request.2 w ≠ cfg.handle request.1 request.2 w

variable {cfg : Config V σ} {A : V → Path → Prop} {b : V → Backend σ}
  (hb : AgreeOn A cfg.backend b)

include hb

omit [DecidableEq V] in
theorem stat_over {v : V} {p : Path} (h : A v p) : (cfg.over b).stat v p = cfg.stat v p := by
  unfold Config.stat Config.over
  simp only [hb.stat v p h]

omit [DecidableEq V] in
theorem list_over {v : V} {p : Path} (h : A v p) : (cfg.over b).list v p = cfg.list v p := by
  unfold Config.list Config.over
  simp only [hb.list v p h]

omit [DecidableEq V] in
theorem readBlob_over {v : V} {p : Path} (h : A v p) :
    (cfg.over b).readBlob v p = cfg.readBlob v p := by
  unfold Config.readBlob Config.over
  simp only [hb.readBlob v p h]

omit [DecidableEq V] in
theorem readBytes_over {v : V} {p : Path} (h : A v p) :
    (cfg.over b).readBytes v p = cfg.readBytes v p := by
  unfold Config.readBytes Config.over Backend.readBytes
  simp only [hb.readBlob v p h]

omit [DecidableEq V] in
theorem sizeOf_over {v : V} {rec : VfsRecord} (h : A v rec.path) :
    (cfg.over b).sizeOf v rec = cfg.sizeOf v rec := by
  unfold Config.sizeOf Config.over Backend.readBytes
  simp only [hb.readBlob v rec.path h]

theorem call_over {v : V} {c : Call} (h : ∀ p ∈ Call.paths c, A v p) :
    (cfg.over b).call v c = cfg.call v c := by
  unfold Config.call Config.over
  simp only [hb.apply v c h]

theorem writeBytes_over {v : V} {p : Path} (h : A v p) (bytes : List UInt8) :
    (cfg.over b).writeBytes v p bytes = cfg.writeBytes v p bytes :=
  call_over hb (by simpa [Call.paths] using h)

theorem openWriteAt_over {v : V} {p : Path} (h : A v p) (append : Bool) :
    (cfg.over b).openWriteAt v p append = cfg.openWriteAt v p append := by
  unfold Config.openWriteAt
  rw [readBlob_over hb h, writeBytes_over hb h]
  have hpolicy : ((cfg.over b).backend v).isWritablePath p = (cfg.backend v).isWritablePath p :=
    hb.isWritablePath v p h
  rw [hpolicy]

end Backends

section Confinement

/-- The export each fid object was attached through. -/
abbrev Origins (V : Type) := Ref → Option (Export V)

/-- The object lies at or below the root of the export, and so does its writer. -/
structure Kept (e : Export V) (f : Fid V) : Prop where
  vfs : f.vfs = e.vfs
  path : e.root <+: f.path
  writer : ∀ wr, f.writer = some wr → f.writerPath = some wr.path ∧ e.root <+: wr.path

/-- Every one of the `n` objects is kept by its export, and the table of owners only
names the files their objects have open. -/
structure Confined (o : Origins V) (n : ℕ) (w : World V σ) : Prop where
  next : w.next = n
  bound : ∀ cid c, w.conns.get cid = some c → ∀ r ∈ c.fids.values, r < n
  kept : ∀ r, r < n → ∃ e, o r = some e ∧ Kept e (w.heap r)
  owner : ∀ v p r, w.owners (v, p) = some r →
    r < n ∧ (w.heap r).vfs = v ∧ (w.heap r).writerPath = some p

variable {o : Origins V} {n : ℕ} {w : World V σ}

omit [DecidableEq V] in
theorem Confined.bound_ref (h : Confined o n w) {cid fid : ℕ} {r : Ref}
    (hr : ref w cid fid = some r) : r < n := by
  obtain ⟨c, hc, hfid⟩ := Option.bind_eq_some_iff.mp hr
  exact h.bound cid c hc r (JsMap.mem_values_of_get hfid)

omit [DecidableEq V] in
theorem Confined.kept_of (h : Confined o n w) {r : Ref} {e : Export V} (hr : r < n)
    (he : o r = some e) : Kept e (w.heap r) := by
  obtain ⟨e', he', hkept⟩ := h.kept r hr
  cases he.symm.trans he'
  exact hkept

theorem Confined.setDisk (h : Confined o n w) (v : V) (d : σ) : Confined o n (w.setDisk v d) :=
  ⟨h.next, h.bound, h.kept, h.owner⟩

omit [DecidableEq V] in
theorem Confined.intern (h : Confined o n w) (paths : Utf16 → Option ℕ) (seq : ℕ) :
    Confined o n { w with qidPaths := paths, qidSeq := seq } :=
  ⟨h.next, h.bound, h.kept, h.owner⟩

omit [DecidableEq V] in
/-- One connection's table is replaced. -/
theorem Confined.setConn (h : Confined o n w) (cid : ℕ) {c : Conn}
    (hc : ∀ r ∈ c.fids.values, r < n) :
    Confined o n { w with conns := w.conns.set cid c } := by
  refine ⟨h.next, fun cid' c' hget => ?_, h.kept, h.owner⟩
  by_cases hcid : cid' = cid
  · subst hcid
    rw [JsMap.get_set_self] at hget
    cases hget
    exact hc
  · rw [JsMap.get_set_of_ne _ _ hcid] at hget
    exact h.bound cid' c' hget

omit [DecidableEq V] in
theorem Confined.touch (h : Confined o n w) (cfg : Config V σ) (cid : ℕ) :
    Confined o n (cfg.touch w cid) := by
  unfold Config.touch
  split
  · exact h
  · exact h.setConn cid (by simp [JsMap.values, JsMap.empty])

omit [DecidableEq V] in
/-- An object changes without giving its file up. -/
theorem Confined.modifyFid (h : Confined o n w) (r : Ref) (f : Fid V → Fid V)
    (hvfs : (f (w.heap r)).vfs = (w.heap r).vfs)
    (hpath : (f (w.heap r)).writerPath = (w.heap r).writerPath)
    (hkept : ∀ e, o r = some e → Kept e (w.heap r) → Kept e (f (w.heap r))) :
    Confined o n (w.setFid r (f (w.heap r))) := by
  refine ⟨h.next, h.bound, fun r' hr' => ?_, fun v p r' ho => ?_⟩
  · obtain ⟨e, he, hold⟩ := h.kept r' hr'
    refine ⟨e, he, ?_⟩
    by_cases heq : r' = r
    · subst heq
      rw [setFid_heap_self]
      exact hkept e he hold
    · rw [setFid_heap_of_ne w _ heq]
      exact hold
  · obtain ⟨hlt, hv, hp⟩ := h.owner v p r' ho
    refine ⟨hlt, ?_⟩
    by_cases heq : r' = r
    · subst heq
      rw [setFid_heap_self, hvfs, hpath]
      exact ⟨hv, hp⟩
    · rw [setFid_heap_of_ne w _ heq]
      exact ⟨hv, hp⟩

theorem Confined.release (h : Confined o n w) (r : Ref) : Confined o n (w.release r) := by
  refine ⟨h.next, h.bound, fun r' hr' => ?_, fun v p r' ho => ?_⟩
  · obtain ⟨e, he, hkept⟩ := h.kept r' hr'
    refine ⟨e, he, ?_⟩
    by_cases heq : r' = r
    · subst heq
      rw [release_heap_self]
      exact ⟨hkept.vfs, hkept.path, fun wr hwr => by cases hwr⟩
    · rw [release_heap_of_ne w heq]
      exact hkept
  · obtain ⟨hold, hgone⟩ := release_owners ho
    obtain ⟨hlt, hv, hp⟩ := h.owner v p r' hold
    refine ⟨hlt, ?_⟩
    by_cases heq : r' = r
    · subst heq
      exact absurd rfl (hgone hp hv)
    · rw [release_heap_of_ne w heq]
      exact ⟨hv, hp⟩

end Confinement

section Steps

variable {cfg : Config V σ} {A : V → Path → Prop} {b : V → Backend σ}
  {o : Origins V} {n : ℕ} {w : World V σ}

/-- Everything at or below the root of the export is allowed. -/
def Allows (A : V → Path → Prop) (e : Export V) : Prop := ∀ p, e.root <+: p → A e.vfs p

omit [DecidableEq V] in
theorem Kept.allowed {e : Export V} {f : Fid V} (h : Kept e f) (he : Allows A e) : A f.vfs f.path :=
  h.vfs ▸ he f.path h.path

omit [DecidableEq V] in
theorem Kept.writer_allowed {e : Export V} {f : Fid V} (h : Kept e f) (he : Allows A e)
    {wr : Writer}
    (hwr : f.writer = some wr) : A f.vfs wr.path :=
  h.vfs ▸ he wr.path (h.writer wr hwr).2

/-- A fid that had no file open takes one at its own path. -/
theorem Confined.adopt (h : Confined o n w) {r : Ref} (hr : r < n)
    (hidle : (w.heap r).writerPath = none) {v : V} {p : Path} (hvfs : (w.heap r).vfs = v)
    (hpath : (w.heap r).path = p) {wr : Writer} (hwr : wr.path = p) :
    Confined o n { w.setFid r { w.heap r with
        writer := some wr, writerPath := some (w.heap r).path } with
      owners := Function.update w.owners (v, p) (some r) } := by
  subst hvfs hpath
  have hself : ∀ f, (w.setFid r f).heap r = f := setFid_heap_self w r
  refine ⟨h.next, h.bound, fun r' hr' => ?_, fun v p r' ho => ?_⟩
  · obtain ⟨e, he, hkept⟩ := h.kept r' hr'
    refine ⟨e, he, ?_⟩
    by_cases heq : r' = r
    · subst heq
      simp only [hself]
      refine ⟨hkept.vfs, hkept.path, fun wr' hwr' => ?_⟩
      cases hwr'
      exact ⟨congrArg some hwr.symm, hwr ▸ hkept.path⟩
    · simp only [setFid_heap_of_ne w _ heq]
      exact hkept
  · simp only at ho
    by_cases hk : (v, p) = ((w.heap r).vfs, (w.heap r).path)
    · rw [hk, Function.update_self] at ho
      cases ho
      simp only [hself]
      cases hk
      exact ⟨hr, rfl, rfl⟩
    · rw [Function.update_of_ne hk] at ho
      obtain ⟨hlt, hv, hp⟩ := h.owner v p r' ho
      have heq : r' ≠ r := by
        rintro rfl
        rw [hidle] at hp
        cases hp
      simp only [setFid_heap_of_ne w _ heq]
      exact ⟨hlt, hv, hp⟩

variable (hb : AgreeOn A cfg.backend b)

include hb

omit [DecidableEq V] in
theorem Confined.stat (h : Confined o n w) {v : V} {p : Path} (hA : A v p)
    {Q : Option VfsRecord → World V σ → Prop}
    (hok : ∀ found, (cfg.backend v).stat (w.disk v) p = .ok found → Q found w) :
    Alike (cfg.stat v p) ((cfg.over b).stat v p) Q (fun _ => Confined o n) w :=
  alike_of_eq (stat_over hb hA) (wp_stat cfg v p hok fun _ _ => h)

theorem Confined.call (h : Confined o n w) {v : V} {c : Call} (hA : ∀ p ∈ Call.paths c, A v p) :
    Alike (cfg.call v c) ((cfg.over b).call v c)
      (fun _ w' => Confined o n w' ∧ w'.heap = w.heap) (fun _ => Confined o n) w :=
  alike_of_eq (call_over hb hA) (wp_call cfg v c (fun d _ => ⟨h.setDisk v d, rfl⟩) fun _ _ => h)

theorem Confined.writeBytes (h : Confined o n w) {v : V} {p : Path} (hA : A v p)
    (bytes : List UInt8) :
    Alike (cfg.writeBytes v p bytes) ((cfg.over b).writeBytes v p bytes)
      (fun _ w' => Confined o n w' ∧ w'.heap = w.heap) (fun _ => Confined o n) w :=
  h.call hb (by simpa [Call.paths] using hA)

theorem Confined.closeWriter (h : Confined o n w) (r : Ref)
    (hA : ∀ wr, (w.heap r).writer = some wr → A (w.heap r).vfs wr.path) :
    Alike (cfg.closeWriter r) ((cfg.over b).closeWriter r)
      (fun _ w' => Confined o n w' ∧ w'.heap = (w.release r).heap) (fun _ => Confined o n) w := by
  have hreleased := h.release r
  refine ⟨?_, wp_closeWriter cfg r (fun _ => ⟨hreleased, rfl⟩) fun wr hwr _ =>
    (hreleased.writeBytes hb (hA wr hwr) wr.bytes).2⟩
  rw [closeWriter_eq, closeWriter_eq]
  cases hwr : (w.heap r).writer with
  | none => rfl
  | some wr => simp only [writeBytes_over hb (hA wr hwr)]

/-- The owner of the file, if it is another fid, writes at that very path. -/
theorem Confined.closeConflictingWriter (h : Confined o n w) (r : Ref)
    (hA : A (w.heap r).vfs (w.heap r).path) :
    Alike (cfg.closeConflictingWriter r) ((cfg.over b).closeConflictingWriter r)
      (fun _ w' => Confined o n w' ∧ (w'.heap r).path = (w.heap r).path ∧
        (w'.heap r).vfs = (w.heap r).vfs) (fun _ => Confined o n) w := by
  refine alike_fidAt_bind (alike_get_bind ?_)
  cases howner : w.owners ((w.heap r).vfs, (w.heap r).path) with
  | none => exact alike_pure ⟨h, rfl, rfl⟩
  | some owner =>
    by_cases hne : owner ≠ r
    · simp only [if_pos hne]
      obtain ⟨hlt, hv, hp⟩ := h.owner _ _ owner howner
      have hwriter : ∀ wr, (w.heap owner).writer = some wr → A (w.heap owner).vfs wr.path := by
        intro wr hwr
        obtain ⟨e, he, hkept⟩ := h.kept owner hlt
        have hpath := Option.some.inj (hp.symm.trans (hkept.writer wr hwr).1)
        rw [hv, ← hpath]
        exact hA
      refine (h.closeWriter hb owner hwriter).mono (fun _ w' hw' => ?_) fun _ _ he => he
      refine ⟨hw'.1, ?_, ?_⟩
      · rw [hw'.2, release_path]
      · rw [hw'.2, release_vfs]
    · simp only [if_neg hne]
      exact alike_pure ⟨h, rfl, rfl⟩

theorem Confined.openWriter (h : Confined o n w) {r : Ref} (hr : r < n) {e : Export V}
    (ho : o r = some e) (he : Allows A e) (append : Bool) :
    Alike (cfg.openWriter r append) ((cfg.over b).openWriter r append)
      (fun _ => Confined o n) (fun _ => Confined o n) w := by
  refine alike_fidAt_bind ?_
  by_cases hoffers : cfg.openWrite (w.heap r).vfs = true
  · have hoffers' : (cfg.over b).openWrite (w.heap r).vfs = true := hoffers
    simp only [if_pos hoffers, if_pos hoffers']
    have hA := (h.kept_of hr ho).allowed he
    refine (h.closeConflictingWriter hb r hA).bind fun _ w₁ hw₁ => ?_
    obtain ⟨h₁, hpath, hvfs⟩ := hw₁
    refine (h₁.closeWriter hb r fun wr => (h₁.kept_of hr ho).writer_allowed he).bind
      fun _ w₂ hw₂ => ?_
    obtain ⟨h₂, hheap⟩ := hw₂
    refine Alike.bind (Q := fun wr w₃ => Confined o n w₃ ∧ w₃.heap = w₂.heap ∧
      wr.path = (w.heap r).path) (alike_of_eq (openWriteAt_over hb hA append) ?_) ?_
    · unfold Config.openWriteAt
      cases append with
      | true =>
        simp only [if_true]
        rw [wp_ite]
        refine ⟨fun _ => ?_, fun _ => h₂⟩
        rw [wp_bind]
        exact wp_readBlob cfg _ _ (fun _ _ => ⟨h₂, rfl, rfl⟩) fun _ _ => h₂
      | false =>
        simp only [Bool.false_eq_true, if_false]
        rw [wp_bind]
        exact (h₂.writeBytes hb hA []).2.mono (fun _ _ hw => ⟨hw.1, hw.2, rfl⟩) fun _ _ he => he
    · rintro wr w₃ ⟨h₃, hheap₃, hwr⟩
      have hcell : w₃.heap r = { w₁.heap r with writer := none, writerPath := none } := by
        rw [hheap₃, hheap, release_heap_self]
      have hpath₃ : (w₃.heap r).path = (w.heap r).path := by rw [hcell, ← hpath]
      have hvfs₃ : (w₃.heap r).vfs = (w.heap r).vfs := by rw [hcell, ← hvfs]
      refine alike_self ?_
      rw [wp_bind, wp_modifyFid, wp_bind, wp_modify, wp_pure]
      exact h₃.adopt hr (by rw [hcell]) hvfs₃ hpath₃ hwr
  · have hoffers' : ¬ (cfg.over b).openWrite (w.heap r).vfs = true := hoffers
    simp only [if_neg hoffers, if_neg hoffers']
    exact alike_pure h

theorem Confined.emptyFile (h : Confined o n w) {r : Ref} (hr : r < n) {e : Export V}
    (ho : o r = some e) (he : Allows A e) {v : V} {p : Path} (hA : A v p) :
    Alike (cfg.emptyFile r v p) ((cfg.over b).emptyFile r v p)
      (fun _ => Confined o n) (fun _ => Confined o n) w := by
  refine (h.openWriter hb hr ho he false).bind fun streamed w' hw' => ?_
  cases streamed with
  | true => exact alike_pure hw'
  | false => exact (hw'.writeBytes hb hA []).mono (fun _ _ hw => hw.1) fun _ _ he => he

theorem Confined.save (h : Confined o n w) {r : Ref} {wr : Writer}
    (hwr : (w.heap r).writer = some wr) {v : V} (hA : A v wr.path) :
    Alike (cfg.save r v wr) ((cfg.over b).save r v wr)
      (fun _ => Confined o n) (fun _ => Confined o n) w := by
  refine (h.writeBytes hb hA wr.bytes).bind fun _ w' hw' => alike_self ?_
  rw [wp_modifyFid]
  refine hw'.1.modifyFid r (fun f => { f with writer := some { wr with dirty := false } }) rfl rfl
    fun e he hkept => ?_
  rw [hw'.2] at hkept ⊢
  refine ⟨hkept.vfs, hkept.path, fun wr' hwr' => ?_⟩
  cases hwr'
  exact hkept.writer wr hwr

theorem Confined.replaceBytes (h : Confined o n w) {r : Ref} {wr : Writer}
    (hwr : (w.heap r).writer = some wr) {v : V} (hA : A v wr.path) (bytes : List UInt8) :
    Alike (cfg.replaceBytes r v wr bytes) ((cfg.over b).replaceBytes r v wr bytes)
      (fun _ => Confined o n) (fun _ => Confined o n) w := by
  refine alike_modifyFid_bind ?_
  have hgrown : Confined o n
      (w.setFid r { w.heap r with writer := some ⟨wr.path, bytes, true⟩ }) := by
    refine h.modifyFid r (fun f => { f with writer := some ⟨wr.path, bytes, true⟩ }) rfl rfl
      fun e he hkept => ⟨hkept.vfs, hkept.path, fun wr' hwr' => ?_⟩
    cases hwr'
    exact hkept.writer wr hwr
  by_cases heager : cfg.eager v ⟨wr.path, bytes, true⟩ = true
  · have heager' : (cfg.over b).eager v ⟨wr.path, bytes, true⟩ = true := heager
    simp only [if_pos heager, if_pos heager']
    exact hgrown.save hb (by rw [setFid_heap_self]) hA
  · have heager' : ¬ (cfg.over b).eager v ⟨wr.path, bytes, true⟩ = true := heager
    simp only [if_neg heager, if_neg heager']
    exact alike_pure hgrown

end Steps

section Requests

omit [DecidableEq V] in
theorem Confined.of_sameCore {o : Origins V} {n : ℕ} {w w' : World V σ} (h : Confined o n w)
    (hs : SameCore w w') : Confined o n w' := by
  refine ⟨hs.next.trans h.next, ?_, fun r hr => ?_, fun v p r ho => ?_⟩
  · rw [hs.conns]
    exact h.bound
  · obtain ⟨e, he, hkept⟩ := h.kept r hr
    refine ⟨e, he, (hs.vfs r).trans hkept.vfs, hs.path r ▸ hkept.path, fun wr hwr => ?_⟩
    rw [hs.writerPath r]
    exact hkept.writer wr (hs.writer r ▸ hwr)
  · rw [hs.owners] at ho
    rw [hs.vfs r, hs.writerPath r]
    exact h.owner v p r ho

omit [DecidableEq V] in
theorem Confined.coreFixed {o : Origins V} {n : ℕ} {w : World V σ} (h : Confined o n w) {α : Type}
    {x : Handler V σ α} (hx : CoreFixed x) :
    Wp x (fun _ => Confined o n) (fun _ => Confined o n) w := by
  have hs := hx w
  unfold Wp
  unfold after at hs
  cases hw : x w with
  | ok a w' =>
    rw [hw] at hs
    exact h.of_sameCore hs
  | error e w' =>
    rw [hw] at hs
    exact h.of_sameCore hs

variable {cfg : Config V σ} {A : V → Path → Prop} {b : V → Backend σ}
  {o : Origins V} {n : ℕ} {w : World V σ} {cid : ℕ}

/-- The exports of a connection's fids are allowed. -/
def Reachable (A : V → Path → Prop) (o : Origins V) (w : World V σ) (cid : ℕ) : Prop :=
  ∀ c, w.conns.get cid = some c → ∀ r ∈ c.fids.values, ∀ e, o r = some e → Allows A e

omit [DecidableEq V] in
/-- Both servers go on with the object of the fid. -/
theorem Confined.getFid (h : Confined o n w) (hreach : Reachable A o w cid) (fid : ℕ) {α : Type}
    {f g : Ref → Handler V σ α} {Q : α → World V σ → Prop}
    (hfound : ∀ r e, ref w cid fid = some r → r < n → o r = some e → Kept e (w.heap r) →
      Allows A e → Alike (f r) (g r) Q (fun _ => Confined o n) w) :
    Alike (cfg.getFid cid fid >>= f) ((cfg.over b).getFid cid fid >>= g) Q
      (fun _ => Confined o n) w := by
  refine Alike.bind (Q := fun r w' => ref w cid fid = some r ∧ w' = w)
    (alike_of_eq (x := cfg.getFid cid fid) rfl ?_) ?_
  · exact wp_getFid cfg cid fid (fun r hr => ⟨hr, rfl⟩) fun _ => h.touch cfg cid
  · rintro r w' ⟨hr, rfl⟩
    have hlt := h.bound_ref hr
    obtain ⟨e, he, hkept⟩ := h.kept r hlt
    obtain ⟨c, hc, hfid⟩ := Option.bind_eq_some_iff.mp hr
    exact hfound r e hr hlt he hkept (hreach c hc r (JsMap.mem_values_of_get hfid) e he)

variable (hb : AgreeOn A cfg.backend b)

include hb

omit [DecidableEq V] in
theorem Confined.sizeOf (h : Confined o n w) {v : V} {rec : VfsRecord} (hA : A v rec.path) :
    Alike (cfg.sizeOf v rec) ((cfg.over b).sizeOf v rec) (fun _ => Confined o n)
      (fun _ => Confined o n) w :=
  alike_of_eq (sizeOf_over hb hA) (h.coreFixed (coreFixed_sizeOf cfg v rec))

omit [DecidableEq V] in
theorem Confined.afterStat (h : Confined o n w) {v : V} {p : Path} (hA : A v p) {α : Type}
    {f g : Option VfsRecord → Handler V σ α} {Q : α → World V σ → Prop}
    (hnext : ∀ found, (cfg.backend v).stat (w.disk v) p = .ok found →
      Alike (f found) (g found) Q (fun _ => Confined o n) w) :
    Alike (cfg.stat v p >>= f) ((cfg.over b).stat v p >>= g) Q (fun _ => Confined o n) w := by
  refine Alike.bind (Q := fun found w' => (cfg.backend v).stat (w.disk v) p = .ok found ∧ w' = w)
    (h.stat hb hA fun found hfound => ⟨hfound, rfl⟩) ?_
  rintro found w' ⟨hfound, rfl⟩
  exact hnext found hfound

omit hb [DecidableEq V] in
/-- A qid is made and reported at the end. -/
theorem Confined.reply (h : Confined o n w) (rec : VfsRecord) (f : Qid → Body) :
    Alike (do return f (← Config.qidOf rec) : Handler V σ Body) (do return f (← Config.qidOf rec))
      (fun _ => Confined o n) (fun _ => Confined o n) w := by
  refine alike_self ?_
  rw [wp_bind]
  exact h.coreFixed (coreFixed_qidOf rec)

omit [DecidableEq V] in
theorem Confined.tgetattr (hreports : ∀ v, Reports (cfg.backend v)) (h : Confined o n w)
    (hreach : Reachable A o w cid) (fid : ℕ) :
    Alike (cfg.tgetattr cid fid) ((cfg.over b).tgetattr cid fid) (fun _ => Confined o n)
      (fun _ => Confined o n) w := by
  refine h.getFid hreach fid fun r e _ _ _ hkept he => alike_fidAt_bind ?_
  refine h.afterStat hb (hkept.allowed he) fun found hfound => ?_
  cases found with
  | none => exact alike_throw h
  | some rec =>
    have hpath : rec.path = (w.heap r).path := hreports _ _ _ rec hfound
    exact (h.sizeOf hb (hpath ▸ hkept.allowed he)).bind fun size w' h' => h'.reply rec _

omit [DecidableEq V] in
theorem Confined.treadlink (h : Confined o n w) (hreach : Reachable A o w cid) (fid : ℕ) :
    Alike (cfg.treadlink cid fid) ((cfg.over b).treadlink cid fid) (fun _ => Confined o n)
      (fun _ => Confined o n) w := by
  refine h.getFid hreach fid fun r e _ _ _ hkept he => alike_fidAt_bind ?_
  refine h.afterStat hb (hkept.allowed he) fun found _ => ?_
  cases found with
  | none => exact alike_throw h
  | some rec =>
    by_cases halias : rec.type = .alias
    · simp only [if_pos halias]
      exact alike_pure h
    · simp only [if_neg halias]
      exact alike_throw h

omit [DecidableEq V] in
theorem Confined.tread (h : Confined o n w) (hreach : Reachable A o w cid) (fid offset count : ℕ) :
    Alike (cfg.tread cid fid offset count) ((cfg.over b).tread cid fid offset count)
      (fun _ => Confined o n) (fun _ => Confined o n) w := by
  refine h.getFid hreach fid fun r e _ _ _ hkept he => alike_fidAt_bind ?_
  refine h.afterStat hb (hkept.allowed he) fun found _ => ?_
  cases found with
  | none => exact alike_throw h
  | some rec =>
    by_cases hfolder : rec.type = .folder
    · simp only [if_pos hfolder]
      exact alike_throw h
    · simp only [if_neg hfolder]
      rw [readBytes_over hb (hkept.allowed he)]
      exact alike_self h

theorem Confined.resize (h : Confined o n w) {r : Ref} (hr : r < n) {e : Export V}
    (ho : o r = some e) (he : Allows A e) (size : ℕ) :
    Alike (Config.tsetattr.resize cfg r (w.heap r) size)
      (Config.tsetattr.resize (cfg.over b) r (w.heap r) size) (fun _ => Confined o n)
      (fun _ => Confined o n) w := by
  have hkept := h.kept_of hr ho
  have hA := hkept.allowed he
  refine (h.closeWriter hb r fun wr => hkept.writer_allowed he).bind fun _ w' hw' => ?_
  refine hw'.1.afterStat hb hA fun found _ => ?_
  cases found with
  | none => exact alike_pure hw'.1
  | some rec =>
    by_cases hfolder : rec.type = .folder
    · simp only [if_pos hfolder]
      exact alike_pure hw'.1
    · simp only [if_neg hfolder]
      rw [readBytes_over hb hA]
      refine (alike_self (hw'.1.coreFixed (coreFixed_readBytes cfg _ _))).bind fun cur w'' h'' => ?_
      exact (h''.writeBytes hb hA _).bind fun _ _ hw => alike_pure hw.1

theorem Confined.tsetattr (h : Confined o n w) (hreach : Reachable A o w cid)
    (fid valid size : ℕ) :
    Alike (cfg.tsetattr cid fid valid size) ((cfg.over b).tsetattr cid fid valid size)
      (fun _ => Confined o n) (fun _ => Confined o n) w := by
  refine h.getFid hreach fid fun r e _ hlt ho hkept he => ?_
  by_cases hvalid : valid &&& setattrSize = 0
  · simp only [if_pos hvalid]
    exact alike_pure h
  · simp only [if_neg hvalid]
    refine alike_fidAt_bind ?_
    cases hwr : (w.heap r).writer with
    | none => exact h.resize hb hlt ho he size
    | some wr =>
      by_cases hsize : size ≤ wr.bytes.length
      · simp only [if_pos hsize]
        exact (h.replaceBytes hb hwr (hkept.writer_allowed he hwr) _).bind
          fun _ _ hw => alike_pure hw
      · simp only [if_neg hsize]
        exact h.resize hb hlt ho he size

omit [DecidableEq V] in
/-- The parent of the directory is looked up too. -/
theorem Confined.loadDirents (h : Confined o n w) {v : V} {dir : Path} (hA : A v dir)
    (hparent : ∀ rec, (cfg.backend v).stat (w.disk v) dir = .ok (some rec) → A v (parentOf dir)) :
    Alike (cfg.loadDirents v dir) ((cfg.over b).loadDirents v dir) (fun _ => Confined o n)
      (fun _ => Confined o n) w := by
  refine h.afterStat hb hA fun found hfound => ?_
  cases found with
  | none => exact alike_throw h
  | some self =>
    refine h.afterStat hb (hparent self hfound) fun parent _ => ?_
    refine Alike.bind (Q := fun _ => Confined o n)
      (alike_of_eq (list_over hb hA) (h.coreFixed (coreFixed_list cfg v dir))) fun kids w' h' => ?_
    refine alike_self (h'.coreFixed (coreFixed_mapM (fun e => ?_) _))
    exact coreFixed_bind (coreFixed_qidOf _) fun _ => coreFixed_pure _

omit hb [DecidableEq V] in
/-- What an open directory keeps for reading does not matter. -/
theorem Confined.setDirents (h : Confined o n w) (r : Ref) (opened : Fid V → Bool)
    (dirents : Option (List Dirent)) :
    Confined o n (w.setFid r { w.heap r with opened := opened (w.heap r), dirents := dirents }) :=
  h.modifyFid r (fun f => { f with opened := opened f, dirents := dirents }) rfl rfl
    fun _ _ hkept => ⟨hkept.vfs, hkept.path, hkept.writer⟩

omit [DecidableEq V] in
theorem Confined.treaddir (h : Confined o n w) (hreach : Reachable A o w cid)
    (fid offset count : ℕ)
    (hparent : ∀ r, ref w cid fid = some r → (w.heap r).dirents = none ∨ offset = 0 →
      ∀ rec, (cfg.backend (w.heap r).vfs).stat (w.disk (w.heap r).vfs) (w.heap r).path =
        .ok (some rec) → A (w.heap r).vfs (parentOf (w.heap r).path)) :
    Alike (cfg.treaddir cid fid offset count) ((cfg.over b).treaddir cid fid offset count)
      (fun _ => Confined o n) (fun _ => Confined o n) w := by
  refine h.getFid hreach fid fun r e hr _ _ hkept he => alike_fidAt_bind ?_
  have hreload : (w.heap r).dirents = none ∨ offset = 0 →
      Alike (Config.treaddir.reload cfg offset count r (w.heap r))
        (Config.treaddir.reload (cfg.over b) offset count r (w.heap r))
        (fun _ => Confined o n) (fun _ => Confined o n) w := by
    intro hload
    refine (h.loadDirents hb (hkept.allowed he) (hparent r hr hload)).bind fun dirents w' h' => ?_
    exact alike_modifyFid_bind (alike_pure (h'.setDirents r Fid.opened (some dirents)))
  cases hdirents : (w.heap r).dirents with
  | none => exact hreload (.inl hdirents)
  | some dirents =>
    by_cases hoffset : offset = 0
    · simp only [if_pos hoffset]
      exact hreload (.inr hoffset)
    · simp only [if_neg hoffset]
      exact alike_pure h

theorem Confined.tlopen (h : Confined o n w) (hreach : Reachable A o w cid) (fid flags : ℕ)
    (hparent : ∀ r, ref w cid fid = some r →
      ∀ rec, (cfg.backend (w.heap r).vfs).stat (w.disk (w.heap r).vfs) (w.heap r).path =
        .ok (some rec) → rec.type = .folder → A (w.heap r).vfs (parentOf (w.heap r).path)) :
    Alike (cfg.tlopen cid fid flags) ((cfg.over b).tlopen cid fid flags)
      (fun _ => Confined o n) (fun _ => Confined o n) w := by
  refine h.getFid hreach fid fun r e hr hlt ho hkept he => alike_fidAt_bind ?_
  have hA := hkept.allowed he
  refine h.afterStat hb hA fun found hfound => ?_
  cases found with
  | none => exact alike_throw h
  | some rec =>
    by_cases hfolder : rec.type = .folder
    · simp only [if_pos hfolder]
      refine alike_modifyFid_bind ?_
      have hopened := h.setDirents r (fun _ => true) (w.heap r).dirents
      refine (hopened.loadDirents hb hA fun rec' hrec' => ?_).bind fun dirents w' h' => ?_
      · exact hparent r hr rec hfound hfolder
      · exact alike_modifyFid_bind ((h'.setDirents r Fid.opened (some dirents)).reply rec _)
    · simp only [if_neg hfolder]
      have hlast : ∀ w' : World V σ, Confined o n w' →
          Alike (do
            Config.modifyFid r fun f => { f with opened := true, dirents := none }
            return Body.rlopen (← Config.qidOf rec) 0 : Handler V σ Body)
          (do
            Config.modifyFid r fun f => { f with opened := true, dirents := none }
            return Body.rlopen (← Config.qidOf rec) 0) (fun _ => Confined o n)
            (fun _ => Confined o n) w' :=
        fun w' h' => alike_modifyFid_bind ((h'.setDirents r (fun _ => true) none).reply rec _)
      by_cases hflags : flags &&& oTrunc = 0
      · simp only [if_pos hflags]
        refine Alike.bind (Q := fun _ => Confined o n) (Alike.tryCatch (P := fun _ => Confined o n)
          ?_ fun _ _ hw => alike_pure hw) fun _ w' h' => hlast w' h'
        exact (h.openWriter hb hlt ho he true).bind fun _ _ hw => alike_pure hw
      · simp only [if_neg hflags]
        refine Alike.bind (Q := fun _ => Confined o n) (Alike.tryCatch (P := fun _ => Confined o n)
          ?_ fun _ _ hw => alike_pure hw) fun _ w' h' => hlast w' h'
        exact h.emptyFile hb hlt ho he hA

omit hb [DecidableEq V] in
theorem Confined.lift {α β : Type} (h : Confined o n w) (x : Except Fault α)
    {f g : α → Handler V σ β} {Q : β → World V σ → Prop}
    (hok : ∀ a, x = .ok a → Alike (f a) (g a) Q (fun _ => Confined o n) w) :
    Alike (Config.lift x >>= f) (Config.lift x >>= g) Q (fun _ => Confined o n) w := by
  cases x with
  | ok a => exact hok a rfl
  | error e => exact ⟨rfl, h⟩

theorem Confined.tlcreate (h : Confined o n w) (hreach : Reachable A o w cid) (fid : ℕ)
    (name : Utf16) (hname : ∀ r e p, ref w cid fid = some r → o r = some e →
      joinName (w.heap r).path name = .ok p → e.root <+: p) :
    Alike (cfg.tlcreate cid fid name) ((cfg.over b).tlcreate cid fid name)
      (fun _ => Confined o n) (fun _ => Confined o n) w := by
  refine h.getFid hreach fid fun r e hr hlt ho hkept he => alike_fidAt_bind ?_
  refine h.lift _ fun path hpath => ?_
  have hroot := hname r e path hr ho hpath
  have hA : A (w.heap r).vfs path := hkept.vfs ▸ he path hroot
  refine (h.closeWriter hb r fun wr => hkept.writer_allowed he).bind fun _ w₁ hw₁ => ?_
  refine alike_modifyFid_bind ?_
  have hmoved : Confined o n (w₁.setFid r { w₁.heap r with path := path }) := by
    refine hw₁.1.modifyFid r (fun f => { f with path := path }) rfl rfl fun e' he' hkept' => ?_
    cases ho.symm.trans he'
    exact ⟨hkept'.vfs, hroot, hkept'.writer⟩
  refine (hmoved.emptyFile hb hlt ho he hA).bind fun _ w₂ h₂ => ?_
  refine h₂.afterStat hb hA fun found _ => ?_
  refine alike_modifyFid_bind (alike_self ?_)
  have h₃ := h₂.setDirents r (fun _ => true) none
  rw [wp_bind]
  refine wp_created found (fun rec _ => ?_) fun _ => h₃
  rw [wp_bind]
  exact h₃.coreFixed (coreFixed_qidOf rec)

theorem Confined.make (h : Confined o n w) (hreach : Reachable A o w cid) (fid : ℕ)
    (name : Utf16) (c : Path → Call) (hc : ∀ p, Call.paths (c p) = [p])
    (hname : ∀ r e p, ref w cid fid = some r → o r = some e →
      joinName (w.heap r).path name = .ok p → e.root <+: p) :
    Alike (cfg.make cid fid name c) ((cfg.over b).make cid fid name c)
      (fun _ => Confined o n) (fun _ => Confined o n) w := by
  refine h.getFid hreach fid fun r e hr _ ho hkept he => alike_fidAt_bind ?_
  refine h.lift _ fun path hpath => ?_
  have hA : A (w.heap r).vfs path := hkept.vfs ▸ he path (hname r e path hr ho hpath)
  refine (h.call hb (by simpa [hc] using hA)).bind fun _ w' hw' => ?_
  refine hw'.1.afterStat hb hA fun found _ => alike_self ?_
  rw [wp_bind]
  exact wp_created found (fun rec _ => hw'.1.coreFixed (coreFixed_qidOf rec)) fun _ => hw'.1

theorem Confined.tunlinkat (h : Confined o n w) (hreach : Reachable A o w cid) (fid : ℕ)
    (name : Utf16) (hname : ∀ r e p, ref w cid fid = some r → o r = some e →
      joinName (w.heap r).path name = .ok p → e.root <+: p) :
    Alike (cfg.tunlinkat cid fid name) ((cfg.over b).tunlinkat cid fid name)
      (fun _ => Confined o n) (fun _ => Confined o n) w := by
  refine h.getFid hreach fid fun r e hr _ ho hkept he => alike_fidAt_bind ?_
  refine h.lift _ fun path hpath => ?_
  have hA : A (w.heap r).vfs path := hkept.vfs ▸ he path (hname r e path hr ho hpath)
  exact (h.call hb (by simpa [Call.paths] using hA)).bind fun _ _ hw => alike_pure hw.1

omit hb [DecidableEq V] in
theorem Confined.dropFid (h : Confined o n w) (cid fid : ℕ) :
    Wp (cfg.dropFid cid fid) (fun _ => Confined o n) (fun _ => Confined o n) w := by
  unfold Config.dropFid
  rw [wp_bind]
  refine wp_conn cfg cid fun c hc _ _ => ?_
  have htouch := h.touch cfg cid
  refine htouch.setConn cid fun r hr => htouch.bound cid c hc r ?_
  obtain ⟨entry, hentry, rfl⟩ := List.mem_map.mp hr
  exact List.mem_map_of_mem (List.mem_filter.mp hentry).1

theorem Confined.tclunk (h : Confined o n w) (hreach : Reachable A o w cid) (fid : ℕ) :
    Alike (cfg.tclunk cid fid) ((cfg.over b).tclunk cid fid) (fun _ => Confined o n)
      (fun _ => Confined o n) w := by
  refine h.getFid hreach fid fun r e _ _ _ hkept he => ?_
  refine (h.closeWriter hb r fun wr => hkept.writer_allowed he).bind fun _ w' hw' => ?_
  exact Alike.bind (alike_of_eq (x := cfg.dropFid cid fid) rfl (hw'.1.dropFid cid fid))
    fun _ _ hw => alike_pure hw

theorem Confined.tremove (h : Confined o n w) (hreach : Reachable A o w cid) (fid : ℕ) :
    Alike (cfg.tremove cid fid) ((cfg.over b).tremove cid fid) (fun _ => Confined o n)
      (fun _ => Confined o n) w := by
  refine h.getFid hreach fid fun r e _ hlt ho hkept he => ?_
  refine (h.closeWriter hb r fun wr => hkept.writer_allowed he).bind fun _ w' hw' => ?_
  refine alike_fidAt_bind ?_
  have hA := (hw'.1.kept_of hlt ho).allowed he
  refine (hw'.1.call hb (by simpa [Call.paths] using hA)).bind fun _ w'' hw'' => ?_
  exact Alike.bind (alike_of_eq (x := cfg.dropFid cid fid) rfl (hw''.1.dropFid cid fid))
    fun _ _ hw => alike_pure hw

theorem Confined.trename (h : Confined o n w) (hreach : Reachable A o w cid) (fid dfid : ℕ)
    (name : Utf16) (hname : ∀ r d e p, ref w cid fid = some r → ref w cid dfid = some d →
      o r = some e → joinName (w.heap d).path name = .ok p → e.root <+: p) :
    Alike (cfg.trename cid fid dfid name) ((cfg.over b).trename cid fid dfid name)
      (fun _ => Confined o n) (fun _ => Confined o n) w := by
  refine h.getFid hreach fid fun r e hr hlt ho hkept he => ?_
  refine h.getFid hreach dfid fun d _ hd _ _ _ _ => alike_fidAt_bind ?_
  refine h.lift _ fun dst hdst => ?_
  have hroot := hname r d e dst hr hd ho hdst
  refine (h.closeWriter hb r fun wr => hkept.writer_allowed he).bind fun _ w' hw' => ?_
  refine alike_fidAt_bind ?_
  have hkept' := hw'.1.kept_of hlt ho
  have hpaths : ∀ p ∈ Call.paths (.move (w'.heap r).path dst), A (w'.heap r).vfs p := by
    simpa [Call.paths] using ⟨hkept'.allowed he, hkept'.vfs ▸ he dst hroot⟩
  refine (hw'.1.call hb hpaths).bind fun _ w'' hw'' => alike_modifyFid_bind (alike_pure ?_)
  refine hw''.1.modifyFid r (fun f => { f with path := dst }) rfl rfl fun e' he' hkept'' => ?_
  cases ho.symm.trans he'
  exact ⟨hkept''.vfs, hroot, hkept''.writer⟩

theorem Confined.trenameat (h : Confined o n w) (hreach : Reachable A o w cid) (olddirfid : ℕ)
    (oldname : Utf16) (newdirfid : ℕ) (newname : Utf16)
    (hname : ∀ od nd e src dst, ref w cid olddirfid = some od → ref w cid newdirfid = some nd →
      o od = some e → joinName (w.heap od).path oldname = .ok src →
      joinName (w.heap nd).path newname = .ok dst → e.root <+: src ∧ e.root <+: dst) :
    Alike (cfg.trenameat cid olddirfid oldname newdirfid newname)
      ((cfg.over b).trenameat cid olddirfid oldname newdirfid newname)
      (fun _ => Confined o n) (fun _ => Confined o n) w := by
  refine h.getFid hreach olddirfid fun od e hod _ ho hkept he => alike_fidAt_bind ?_
  refine h.getFid hreach newdirfid fun nd _ hnd _ _ _ _ => alike_fidAt_bind ?_
  refine h.lift _ fun src hsrc => h.lift _ fun dst hdst => ?_
  obtain ⟨hsrc', hdst'⟩ := hname od nd e src dst hod hnd ho hsrc hdst
  have hpaths : ∀ p ∈ Call.paths (.move src dst), A (w.heap od).vfs p := by
    simpa [Call.paths] using ⟨hkept.vfs ▸ he src hsrc', hkept.vfs ▸ he dst hdst'⟩
  exact (h.call hb hpaths).bind fun _ _ hw => alike_pure hw.1

theorem Confined.tfsync (h : Confined o n w) (hreach : Reachable A o w cid) (fid : ℕ) :
    Alike (cfg.tfsync cid fid) ((cfg.over b).tfsync cid fid) (fun _ => Confined o n)
      (fun _ => Confined o n) w := by
  refine h.getFid hreach fid fun r e _ _ _ hkept he => alike_fidAt_bind ?_
  cases hwr : (w.heap r).writer with
  | none => exact alike_pure h
  | some wr =>
    refine Alike.bind (Q := fun _ => Confined o n) ?_ fun _ _ hw => alike_pure hw
    unfold Config.flush
    by_cases hdirty : wr.dirty = true
    · simp only [if_pos hdirty]
      exact h.save hb hwr (hkept.writer_allowed he hwr)
    · simp only [if_neg hdirty]
      exact alike_pure h

theorem Confined.readModifyWrite (h : Confined o n w) {r : Ref} (hr : r < n) {e : Export V}
    (ho : o r = some e) (he : Allows A e) {f : Fid V} (hf : Kept e f) (offset : ℕ)
    (data : List UInt8) :
    Alike (Config.twrite.readModifyWrite cfg offset data r f)
      (Config.twrite.readModifyWrite (cfg.over b) offset data r f) (fun _ => Confined o n)
      (fun _ => Confined o n) w := by
  have hkept := h.kept_of hr ho
  refine (h.closeWriter hb r fun wr => hkept.writer_allowed he).bind fun _ w' hw' => ?_
  rw [readBytes_over hb (hf.allowed he)]
  refine (alike_self (hw'.1.coreFixed (coreFixed_readBytes cfg _ _))).bind fun cur w'' h'' => ?_
  exact (h''.writeBytes hb (hf.allowed he) _).bind fun _ _ hw => alike_pure hw.1

theorem Confined.reopen (hreports : ∀ v, Reports (cfg.backend v)) (h : Confined o n w) {r : Ref}
    (hr : r < n) {e : Export V} (ho : o r = some e) (he : Allows A e) {f : Fid V} (hf : Kept e f)
    (offset : ℕ) :
    Alike (Config.twrite.reopen cfg offset r f) (Config.twrite.reopen (cfg.over b) offset r f)
      (fun _ => Confined o n) (fun _ => Confined o n) w := by
  unfold Config.twrite.reopen
  by_cases hclosed : f.writer.isNone = true ∧ cfg.openWrite f.vfs = true
  · have hclosed' : f.writer.isNone = true ∧ (cfg.over b).openWrite f.vfs = true := hclosed
    simp only [if_pos hclosed, if_pos hclosed']
    refine h.afterStat hb (hf.allowed he) fun found hfound => ?_
    refine Alike.bind (Q := fun _ => Confined o n) ?_ fun size w' h' => ?_
    · cases found with
      | none => exact alike_pure h
      | some rec =>
        have hpath : rec.path = f.path := hreports _ _ _ rec hfound
        exact h.sizeOf hb (hpath ▸ hf.allowed he)
    · by_cases hsize : offset = size
      · simp only [if_pos hsize]
        exact (h'.openWriter hb hr ho he true).bind fun _ _ hw => alike_pure hw
      · simp only [if_neg hsize]
        exact alike_pure h'
  · have hclosed' : ¬ (f.writer.isNone = true ∧ (cfg.over b).openWrite f.vfs = true) := hclosed
    simp only [if_neg hclosed, if_neg hclosed']
    exact alike_pure h

theorem Confined.twrite (hreports : ∀ v, Reports (cfg.backend v)) (h : Confined o n w)
    (hreach : Reachable A o w cid) (fid offset : ℕ) (data : List UInt8) :
    Alike (cfg.twrite cid fid offset data) ((cfg.over b).twrite cid fid offset data)
      (fun _ => Confined o n) (fun _ => Confined o n) w := by
  refine h.getFid hreach fid fun r e _ hlt ho hkept he => ?_
  refine (h.closeConflictingWriter hb r (hkept.allowed he)).bind fun _ w₁ hw₁ => ?_
  refine alike_fidAt_bind ?_
  have hf := hw₁.1.kept_of hlt ho
  refine (hw₁.1.reopen hb hreports hlt ho he hf offset).bind fun _ w₂ h₂ => alike_fidAt_bind ?_
  cases hwr : (w₂.heap r).writer with
  | none => exact h₂.readModifyWrite hb hlt ho he hf offset data
  | some wr =>
    by_cases hoffset : offset = wr.bytes.length
    · simp only [if_pos hoffset]
      have hA : A (w₁.heap r).vfs wr.path :=
        hf.vfs ▸ he wr.path ((h₂.kept_of hlt ho).writer wr hwr).2
      exact (h₂.replaceBytes hb hwr hA _).bind fun _ _ hw => alike_pure hw
    · simp only [if_neg hoffset]
      exact h₂.readModifyWrite hb hlt ho he hf offset data

omit hb [DecidableEq V] in
/-- The new object belongs to the export it was found in. -/
theorem Confined.bindFid (h : Confined o n w) {e : Export V} (ho : o n = some e) (cid fid : ℕ)
    {p : Path} (hp : e.root <+: p) :
    Wp (cfg.bindFid cid fid e.vfs p) (fun _ => Confined o (n + 1)) (fun _ => Confined o n) w := by
  unfold Config.bindFid
  rw [wp_bind]
  refine wp_conn cfg cid fun c hc _ _ => ?_
  have htouch := h.touch cfg cid
  rw [wp_bind, wp_get, wp_bind, wp_modify, wp_setConn]
  have hnext := htouch.next
  have hnew : Confined o (n + 1) ((cfg.touch w cid).push ⟨p, e.vfs, false, none, none, none⟩) := by
    refine ⟨congrArg (· + 1) hnext, fun cid' c' hc' r hr => ?_, fun r hr => ?_, fun v q r hq => ?_⟩
    · exact Nat.lt_succ_of_lt (htouch.bound cid' c' hc' r hr)
    · rcases heap_cases (cfg.touch w cid) ⟨p, e.vfs, false, none, none, none⟩ r with
        ⟨heq, hcell⟩ | ⟨hne, hcell⟩
      · refine ⟨e, heq ▸ hnext ▸ ho, ?_⟩
        simp only [World.push, hcell]
        exact ⟨rfl, hp, fun wr hwr => by cases hwr⟩
      · have hold : r < n := Nat.lt_of_le_of_ne (Nat.le_of_lt_succ hr) (hnext ▸ hne)
        obtain ⟨e', he', hkept⟩ := htouch.kept r hold
        refine ⟨e', he', ?_⟩
        simp only [World.push, hcell]
        exact hkept
    · obtain ⟨hlt, hv, hpath⟩ := htouch.owner v q r hq
      have hne : r ≠ (cfg.touch w cid).next := hnext ▸ Nat.ne_of_lt hlt
      refine ⟨Nat.lt_succ_of_lt hlt, ?_⟩
      simp only [World.push, Function.update_of_ne hne]
      exact ⟨hv, hpath⟩
  refine hnew.setConn cid fun r hr => ?_
  rcases JsMap.mem_values_set hr with heq | hold
  · exact heq ▸ hnext ▸ Nat.lt_succ_self _
  · exact Nat.lt_succ_of_lt (htouch.bound cid c hc r hold)

/-- The components of a walk, as far as it gets, stay at or below the root. -/
def walkInside (b : Backend σ) (d : σ) (root : Path) : Path → List Utf16 → Bool
  | _, [] => true
  | cur, name :: names => onName cur name fun next => root.isPrefixOf next &&
      match b.stat d next with
      | .ok (some _) => walkInside b d root next names
      | _ => true

omit [DecidableEq V] in
theorem Confined.walk (he : Allows A e) (names : List Utf16) :
    ∀ {w : World V σ} (_ : Confined o n w) (first : Bool) (cur : Path), e.root <+: cur →
      walkInside (cfg.backend e.vfs) (w.disk e.vfs) e.root cur names = true →
      Alike (cfg.walk e.vfs first cur names) ((cfg.over b).walk e.vfs first cur names)
        (fun found w' => Confined o n w' ∧ e.root <+: found.2) (fun _ => Confined o n) w := by
  induction names with
  | nil => exact fun h _ _ hcur _ => alike_pure ⟨h, hcur⟩
  | cons name names ih =>
    intro w h first cur hcur hinside
    refine h.lift _ fun next hnext => ?_
    have hstep := onName_spec hinside hnext
    rw [Bool.and_eq_true, List.isPrefixOf_iff_prefix] at hstep
    obtain ⟨hroot, hrest⟩ := hstep
    refine h.afterStat hb (he next hroot) fun found hfound => ?_
    rw [hfound] at hrest
    cases found with
    | none =>
      cases first with
      | true => exact alike_throw h
      | false => exact alike_pure ⟨h, hcur⟩
    | some rec =>
      refine Alike.bind (Q := fun _ w' => Confined o n w' ∧ w'.disk = w.disk)
        (alike_self (wp_qidOf rec fun _ paths seq => ⟨h.intern paths seq, rfl⟩)) ?_
      rintro qid w' ⟨h', hdisk⟩
      refine Alike.bind (ih h' false next hroot (by rw [hdisk]; exact hrest)) ?_
      exact fun found w'' hw'' => alike_pure hw''

omit [DecidableEq V] in
theorem Confined.twalk (h : Confined o n w) (hreach : Reachable A o w cid) (fid newfid : ℕ)
    (wnames : List Utf16)
    (hnew : ∀ r e, ref w cid fid = some r → o r = some e → o n = some e)
    (hinside : ∀ r e, ref w cid fid = some r → o r = some e →
      walkInside (cfg.backend (w.heap r).vfs) (w.disk (w.heap r).vfs) e.root
        (w.heap r).path wnames = true) :
    Alike (cfg.twalk cid fid newfid wnames) ((cfg.over b).twalk cid fid newfid wnames)
      (fun _ w' => ∃ m, Confined o m w') (fun _ => Confined o n) w := by
  refine h.getFid hreach fid fun r e hr _ ho hkept he => alike_fidAt_bind ?_
  have hwalk := hinside r e hr ho
  rw [hkept.vfs] at hwalk ⊢
  refine (h.walk hb he wnames true (w.heap r).path hkept.path hwalk).bind fun found w' hw' => ?_
  obtain ⟨qids, cur⟩ := found
  by_cases hfull : qids.length = wnames.length
  · simp only [if_pos hfull]
    exact Alike.bind (alike_of_eq (x := cfg.bindFid cid newfid e.vfs cur) rfl
      (hw'.1.bindFid (hnew r e hr ho) cid newfid hw'.2)) fun _ _ hw => alike_pure ⟨_, hw⟩
  · simp only [if_neg hfull]
    exact alike_pure ⟨n, hw'.1⟩

theorem Confined.closeAll (refs : List Ref) (hrefs : ∀ r ∈ refs, r < n)
    (hallows : ∀ r ∈ refs, ∀ e, o r = some e → Allows A e) :
    ∀ {w : World V σ}, Confined o n w →
      Alike (cfg.closeAll refs) ((cfg.over b).closeAll refs) (fun _ => Confined o n)
        (fun _ => Confined o n) w := by
  induction refs with
  | nil => exact fun h => alike_pure h
  | cons r refs ih =>
    intro w h
    obtain ⟨e, ho, hkept⟩ := h.kept r (hrefs r List.mem_cons_self)
    have he := hallows r List.mem_cons_self e ho
    refine Alike.bind (Q := fun _ => Confined o n) (Alike.tryCatch (P := fun _ => Confined o n) ?_
      fun _ _ hw => alike_pure hw) fun failed w' h' => ?_
    · exact (h.closeWriter hb r fun wr => hkept.writer_allowed he).bind
        fun _ _ hw => alike_pure hw.1
    · refine (ih (fun r' hr' => hrefs r' (List.mem_cons_of_mem _ hr'))
        (fun r' hr' => hallows r' (List.mem_cons_of_mem _ hr')) h').bind fun _ w'' h'' => ?_
      cases failed with
      | none => exact alike_pure h''
      | some e => exact alike_throw h''

theorem Confined.tversion (h : Confined o n w) (hreach : Reachable A o w cid) (msize : ℕ)
    (version : Utf16) :
    Alike (cfg.tversion cid msize version) ((cfg.over b).tversion cid msize version)
      (fun _ => Confined o n) (fun _ => Confined o n) w := by
  refine Alike.bind (Q := fun c w' => Confined o n w' ∧ ∀ r ∈ c.fids.values, r < n ∧
    ∀ e, o r = some e → Allows A e) (alike_of_eq (x := cfg.conn cid) rfl ?_) ?_
  · refine wp_conn cfg cid fun c _ hvalues _ => ⟨h.touch cfg cid, fun r hr => ?_⟩
    obtain ⟨c', hc', hr'⟩ := hvalues r hr
    exact ⟨h.bound cid c' hc' r hr', hreach c' hc' r hr'⟩
  rintro c w' ⟨h', hrefs⟩
  refine Alike.bind (Q := fun _ => Confined o n) (alike_self ?_) fun _ w₁ h₁ => ?_
  · exact h'.setConn cid fun r hr => (hrefs r hr).1
  refine (h₁.closeAll hb c.fids.values (fun r hr => (hrefs r hr).1) fun r hr => (hrefs r hr).2).bind
    fun _ w₂ h₂ => alike_self ?_
  rw [wp_bind, wp_setConn, wp_bind, wp_modify, wp_pure]
  have hcleared := h₂.setConn cid (c := ⟨min (if msize = 0 then 8192 else msize) cfg.maxMsize,
    JsMap.empty⟩) (by simp [JsMap.values, JsMap.empty])
  exact ⟨hcleared.next, hcleared.bound, hcleared.kept, hcleared.owner⟩

/-- The export a Tattach selects. -/
def Config.attachExport (cfg : Config V σ) (aname : Utf16) : Option (Export V) :=
  (cfg.exportsByName.get (normAname aname)).or cfg.defaultExport

omit hb [DecidableEq V] in
theorem resolveAttach_export {aname : Utf16} {v : V} {p : Path}
    (h : cfg.resolveAttach aname = .ok (v, p)) :
    ∃ e, cfg.attachExport aname = some e ∧ e.vfs = v := by
  unfold Config.resolveAttach at h
  unfold Config.attachExport
  cases hexp : cfg.exportsByName.get (normAname aname) with
  | some e =>
    rw [hexp] at h
    cases h
    exact ⟨e, rfl, rfl⟩
  | none =>
    rw [hexp] at h
    cases hdefault : cfg.defaultExport with
    | none =>
      rw [hdefault] at h
      cases h
    | some e =>
      rw [hdefault] at h
      simp only at h
      split at h
      · cases h
        exact ⟨e, rfl, rfl⟩
      · cases hjoin : joinPath e.root aname with
        | error fault =>
          rw [hjoin] at h
          cases h
        | ok path =>
          rw [hjoin] at h
          cases h
          exact ⟨e, rfl, rfl⟩

omit [DecidableEq V] in
theorem Confined.tattach (h : Confined o n w) (fid : ℕ) (aname : Utf16)
    (hallows : ∀ e, cfg.attachExport aname = some e → Allows A e)
    (hnew : ∀ e, cfg.attachExport aname = some e → o n = some e)
    (hinside : ∀ e v p, cfg.attachExport aname = some e → cfg.resolveAttach aname = .ok (v, p) →
      e.root <+: p) :
    Alike (cfg.tattach cid fid aname) ((cfg.over b).tattach cid fid aname)
      (fun _ w' => ∃ m, Confined o m w') (fun _ => Confined o n) w := by
  have hresolve : (cfg.over b).resolveAttach aname = cfg.resolveAttach aname := rfl
  unfold Config.tattach
  rw [hresolve]
  refine h.lift _ fun found hfound => ?_
  obtain ⟨v, p⟩ := found
  obtain ⟨e, he, rfl⟩ := resolveAttach_export hfound
  have hroot := hinside e e.vfs p he hfound
  refine h.afterStat hb (hallows e he p hroot) fun found _ => ?_
  cases found with
  | none => exact alike_throw h
  | some rec =>
    refine Alike.bind (alike_of_eq (x := cfg.bindFid cid fid e.vfs p) rfl
      (h.bindFid (hnew e he) cid fid hroot)) fun _ w' h' => alike_self ?_
    rw [wp_bind]
    exact wp_qidOf rec fun _ paths seq => ⟨n + 1, h'.intern paths seq⟩

end Requests

end NixWasm.NinepServer
