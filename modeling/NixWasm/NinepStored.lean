import NixWasm.NinepContents
import NixWasm.NinepStreamedRuns

/-!
A file that keeps what was written to it. `Tidy` is what the server's tables always meet:
a writer is registered where its fid is bound. `Stored` watches one file: its bytes, in
the open writer or in the backend, stay good, and the backend shows them whenever no
writer holds them back. Closing, opening and replacing writers keep both, whether the
backend accepts the calls or not.
-/
namespace NixWasm.NinepServer

open Unicode Vfs NinepCodec Effects

variable {V σ : Type}

/-- Writers and the table of owners belong together. -/
structure Tidy (w : World V σ) : Prop where
  bound : ∀ cid fid r, ref w cid fid = some r → r < w.next
  fresh : ∀ r, w.next ≤ r → (w.heap r).writer = none
  idle : ∀ r, (w.heap r).writer = none → (w.heap r).writerPath = none
  owned : ∀ r wr, (w.heap r).writer = some wr → wr.path = (w.heap r).path ∧
    (w.heap r).writerPath = some wr.path ∧ w.owners ((w.heap r).vfs, wr.path) = some r
  owner : ∀ u q r, w.owners (u, q) = some r → WriterAt w r u q

/-- No writer on the file has bytes to write still. -/
def Settled (v : V) (p : Path) (w : World V σ) : Prop :=
  ∀ r wr, (w.heap r).writer = some wr → (w.heap r).vfs = v → wr.path = p → wr.dirty = false

/-- The file is in the backend, and its bytes are good: those of a writer on it, and the
ones that are shown unless a writer has to write still. No writer is on a path above it. -/
structure Stored (b : Backend σ) (v : V) (p : Path) (good : List UInt8 → Prop) (w : World V σ) :
    Prop where
  leaf : b.isLeaf (w.disk v) p
  writable : ∀ r, WriterAt w r v p → b.isWritablePath p = true
  above : ∀ r q, WriterAt w r v q → q <+: p → q = p
  bytes : ∀ r wr, (w.heap r).writer = some wr → (w.heap r).vfs = v → wr.path = p → good wr.bytes
  shown : Settled v p w → ∃ c, b.look (w.disk v) p = .ok (some (.file c)) ∧ good c

section Tables

variable {w w' : World V σ} {b : Backend σ} {v : V} {p : Path} {good : List UInt8 → Prop}

theorem Tidy.writerAt_unique (h : Tidy w) {r r' : Ref} {u : V} {q : Path} (hr : WriterAt w r u q)
    (hr' : WriterAt w r' u q) : r = r' := by
  obtain ⟨wr, hwr, rfl, rfl⟩ := hr
  obtain ⟨wr', hwr', hu, hq⟩ := hr'
  have ho := (h.owned r wr hwr).2.2
  have ho' := (h.owned r' wr' hwr').2.2
  rw [hu, hq, ho] at ho'
  exact Option.some.inj ho'

/-- Other writers only, on a backend that shows the file as before. -/
theorem Stored.of_writers (h : Stored b v p good w)
    (hwriters : ∀ r u q, WriterAt w' r u q → w'.heap r = w.heap r)
    (hlook : b.look (w'.disk v) p = b.look (w.disk v) p)
    (hshown : Settled v p w' → ∃ c, b.look (w.disk v) p = .ok (some (.file c)) ∧ good c) :
    Stored b v p good w' := by
  have hbefore : ∀ r q, WriterAt w' r v q → WriterAt w r v q := fun r q hr =>
    (writerAt_congr (hwriters r v q hr) v q).mp hr
  refine ⟨?_, fun r hr => h.writable r (hbefore r p hr), fun r q hr => h.above r q (hbefore r q hr),
    fun r wr hwr hv hp => ?_, fun hsettled => ?_⟩
  · rw [Backend.isLeaf_congr hlook]
    exact h.leaf
  · have hcell := hwriters r v p ⟨wr, hwr, hv, hp⟩
    rw [hcell] at hwr hv
    exact h.bytes r wr hwr hv hp
  · rw [hlook]
    exact hshown hsettled

theorem writerAt_setFid_of_ne {r r' : Ref} {f : Fid V} (hne : r' ≠ r) (u : V) (q : Path) :
    WriterAt (w.setFid r f) r' u q ↔ WriterAt w r' u q :=
  writerAt_congr (setFid_heap_of_ne w f hne) u q

/-- Other bytes in a writer leave the writers where they are. -/
theorem writerAt_setFid_writer {r : Ref} {wr : Writer} (hwr : (w.heap r).writer = some wr)
    (wr' : Writer) (hpath : wr'.path = wr.path) (r' : Ref) (u : V) (q : Path) :
    WriterAt (w.setFid r { w.heap r with writer := some wr' }) r' u q ↔ WriterAt w r' u q := by
  by_cases heq : r' = r
  · subst heq
    unfold WriterAt
    rw [setFid_heap_self]
    constructor
    · rintro ⟨x, hx, hu, hq⟩
      cases hx
      exact ⟨wr, hwr, hu, hpath.symm.trans hq⟩
    · rintro ⟨x, hx, hu, hq⟩
      cases hwr.symm.trans hx
      exact ⟨wr', rfl, hu, hpath.trans hq⟩
  · exact writerAt_setFid_of_ne heq u q

/-- The bytes of an open writer change. -/
theorem Tidy.setWriter (h : Tidy w) {r : Ref} {wr wr' : Writer} (hwr : (w.heap r).writer = some wr)
    (hpath : wr'.path = wr.path) : Tidy (w.setFid r { w.heap r with writer := some wr' }) := by
  refine ⟨h.bound, fun r' hr' => ?_, fun r' hr' => ?_, fun r' x hx => ?_, fun u q r' ho => ?_⟩
  · by_cases heq : r' = r
    · have hnone := h.fresh r' hr'
      rw [heq, hwr] at hnone
      cases hnone
    · rw [setFid_heap_of_ne w _ heq]
      exact h.fresh r' hr'
  · by_cases heq : r' = r
    · rw [heq, setFid_heap_self] at hr'
      cases hr'
    · rw [setFid_heap_of_ne w _ heq] at hr' ⊢
      exact h.idle r' hr'
  · by_cases heq : r' = r
    · rw [heq, setFid_heap_self] at hx ⊢
      cases hx
      rw [hpath]
      exact h.owned r wr hwr
    · rw [setFid_heap_of_ne w _ heq] at hx ⊢
      exact h.owned r' x hx
  · exact (writerAt_setFid_writer hwr wr' hpath r' u q).mpr (h.owner u q r' ho)

/-- A change of a fid object that has no writer. -/
theorem Tidy.setFid (h : Tidy w) {r : Ref} {f : Fid V} (hidle : (w.heap r).writer = none)
    (hwriter : f.writer = none) (hpath : f.writerPath = none) : Tidy (w.setFid r f) := by
  refine ⟨h.bound, fun r' hr' => ?_, fun r' hr' => ?_, fun r' x hx => ?_, fun u q r' ho => ?_⟩
  · by_cases heq : r' = r
    · rw [heq, setFid_heap_self, hwriter]
    · rw [setFid_heap_of_ne w _ heq]
      exact h.fresh r' hr'
  · by_cases heq : r' = r
    · rw [heq, setFid_heap_self, hpath]
    · rw [setFid_heap_of_ne w _ heq] at hr' ⊢
      exact h.idle r' hr'
  · by_cases heq : r' = r
    · rw [heq, setFid_heap_self, hwriter] at hx
      cases hx
    · rw [setFid_heap_of_ne w _ heq] at hx ⊢
      exact h.owned r' x hx
  · have hat := h.owner u q r' ho
    have heq : r' ≠ r := by
      rintro rfl
      obtain ⟨x, hx, -⟩ := hat
      rw [hidle] at hx
      cases hx
    exact (writerAt_setFid_of_ne heq u q).mpr hat

variable [DecidableEq V]

theorem writerAt_release {r r' : Ref} {u : V} {q : Path} (h : WriterAt (w.release r) r' u q) :
    r' ≠ r ∧ WriterAt w r' u q := by
  have hne : r' ≠ r := by
    rintro rfl
    obtain ⟨wr, hwr, -⟩ := h
    rw [release_heap_self] at hwr
    cases hwr
  exact ⟨hne, (writerAt_congr (release_heap_of_ne w hne) u q).mp h⟩

theorem Tidy.release (h : Tidy w) (r : Ref) : Tidy (w.release r) := by
  refine ⟨h.bound, fun r' hr' => ?_, fun r' hr' => ?_, fun r' wr hwr => ?_, fun u q r' ho => ?_⟩
  · by_cases heq : r' = r
    · rw [heq, release_heap_self]
    · rw [release_heap_of_ne w heq]
      exact h.fresh r' hr'
  · by_cases heq : r' = r
    · rw [heq, release_heap_self]
    · rw [release_heap_of_ne w heq] at hr' ⊢
      exact h.idle r' hr'
  · have hne : r' ≠ r := (writerAt_release ⟨wr, hwr, rfl, rfl⟩).1
    rw [release_heap_of_ne w hne] at hwr ⊢
    obtain ⟨hpath, hwp, ho⟩ := h.owned r' wr hwr
    refine ⟨hpath, hwp, ?_⟩
    unfold World.release
    cases hq : (w.heap r).writerPath with
    | none => exact ho
    | some q =>
      by_cases howner : w.owners ((w.heap r).vfs, q) = some r
      · simp only [if_pos howner]
        rw [Function.update_of_ne, ho]
        rintro heq
        rw [← heq, ho] at howner
        exact hne (Option.some.inj howner)
      · simp only [if_neg howner]
        exact ho
  · obtain ⟨hbefore, hgone⟩ := release_owners ho
    obtain ⟨wr, hwr, hu, hq⟩ := h.owner u q r' hbefore
    have hne : r' ≠ r := by
      rintro rfl
      refine hgone ?_ hu rfl
      rw [(h.owned r' wr hwr).2.1, hq]
    rw [writerAt_congr (release_heap_of_ne w hne)]
    exact ⟨wr, hwr, hu, hq⟩

theorem Tidy.setDisk (h : Tidy w) (u : V) (d : σ) : Tidy (w.setDisk u d) :=
  ⟨h.bound, h.fresh, h.idle, h.owned, h.owner⟩

/-- The only writer on a file gets there. -/
theorem Tidy.adopt (h : Tidy w) {r : Ref} (hlt : r < w.next)
    (hfree : ∀ r', ¬ WriterAt w r' (w.heap r).vfs (w.heap r).path)
    (hidle : (w.heap r).writer = none)
    {wr : Writer} (hpath : wr.path = (w.heap r).path) :
    Tidy { w.setFid r { w.heap r with
        writer := some wr, writerPath := some (w.heap r).path } with
      owners := Function.update w.owners ((w.heap r).vfs, (w.heap r).path) (some r) } := by
  refine ⟨h.bound, fun r' hr' => ?_, fun r' hr' => ?_, fun r' x hx => ?_, fun u q r' ho => ?_⟩
  · have hne : r' ≠ r := by
      rintro rfl
      exact absurd hlt (Nat.not_lt.mpr hr')
    simp only [setFid_heap_of_ne w _ hne]
    exact h.fresh r' hr'
  · by_cases heq : r' = r
    · simp only [heq, setFid_heap_self] at hr'
      cases hr'
    · simp only [setFid_heap_of_ne w _ heq] at hr' ⊢
      exact h.idle r' hr'
  · by_cases heq : r' = r
    · subst heq
      simp only [setFid_heap_self] at hx ⊢
      cases hx
      rw [hpath]
      exact ⟨rfl, rfl, Function.update_self ..⟩
    · simp only [setFid_heap_of_ne w _ heq] at hx ⊢
      obtain ⟨hxpath, hwp, ho⟩ := h.owned r' x hx
      refine ⟨hxpath, hwp, ?_⟩
      rw [Function.update_of_ne, ho]
      intro hkey
      obtain ⟨hu, hq⟩ := Prod.mk.inj hkey
      exact hfree r' ⟨x, hx, hu, hq⟩
  · by_cases hkey : (u, q) = ((w.heap r).vfs, (w.heap r).path)
    · obtain ⟨rfl, rfl⟩ := Prod.mk.inj hkey
      simp only [Function.update_self, Option.some.injEq] at ho
      subst ho
      exact ⟨wr, by simp only [setFid_heap_self], by simp only [setFid_heap_self], hpath⟩
    · simp only [Function.update_of_ne hkey] at ho
      have hat := h.owner u q r' ho
      have hne : r' ≠ r := by
        rintro rfl
        obtain ⟨x, hx, -⟩ := hat
        rw [hidle] at hx
        cases hx
      exact (writerAt_setFid_of_ne hne u q).mpr hat

omit [DecidableEq V] in
/-- A file with its only writer. -/
theorem stored_of_writer (htidy : Tidy w) (hleaf : b.isLeaf (w.disk v) p)
    (hwritable : b.isWritablePath p = true) (habove : ∀ r q, WriterAt w r v q → q <+: p → q = p)
    (r : Ref) (wr : Writer) (hwr : (w.heap r).writer = some wr) (hu : (w.heap r).vfs = v)
    (hq : wr.path = p) (hgood : good wr.bytes)
    (hshown : wr.dirty = false → b.look (w.disk v) p = .ok (some (.file wr.bytes))) :
    Stored b v p good w := by
  refine ⟨hleaf, fun _ _ => hwritable, habove, fun r' x hx hu' hq' => ?_, fun hsettled =>
    ⟨wr.bytes, hshown (hsettled r wr hwr hu hq), hgood⟩⟩
  obtain rfl := htidy.writerAt_unique ⟨wr, hwr, hu, hq⟩ ⟨x, hx, hu', hq'⟩
  cases hwr.symm.trans hx
  exact hgood

end Tables

section Watching

variable [DecidableEq V] (cfg : Config V σ) (v : V) (p : Path) (good : List UInt8 → Prop) (K : Prop)

/-- The tables are tidy, and the file is stored as long as `K` says that it is watched. -/
structure Guarded (w : World V σ) : Prop where
  tidy : Tidy w
  stored : K → Stored (cfg.backend v) v p good w

/-- In the middle of a request that found the world `w₀`. -/
structure During (w₀ w : World V σ) : Prop extends Guarded cfg v p good K w where
  fids : SameFids w₀ w

/-- While the file is watched, nothing at or above it is touched. -/
def Clear (u : V) (paths : List Path) : Prop := K → u = v → ∀ q ∈ paths, ¬ q <+: p

variable {cfg v p good K} {C : Prop} {w₀ w : World V σ} {r : Ref}

omit [DecidableEq V] in
theorem Guarded.mono {K' : Prop} (h : Guarded cfg v p good K w) (hK : K' → K) :
    Guarded cfg v p good K' w :=
  ⟨h.tidy, fun hK' => h.stored (hK hK')⟩

omit [DecidableEq V] in
theorem During.mono {K' : Prop} (h : During cfg v p good K w₀ w) (hK : K' → K) :
    During cfg v p good K' w₀ w :=
  ⟨h.toGuarded.mono hK, h.fids⟩

omit [DecidableEq V] in
theorem Guarded.during (h : Guarded cfg v p good K w) : During cfg v p good K w w :=
  ⟨h, SameFids.refl w⟩

omit [DecidableEq V] in
theorem during_interns : Interns (During cfg v p good K w₀) :=
  fun _ _ _ h => ⟨⟨⟨h.tidy.bound, h.tidy.fresh, h.tidy.idle, h.tidy.owned, h.tidy.owner⟩,
    fun hK => ⟨(h.stored hK).leaf, (h.stored hK).writable, (h.stored hK).above, (h.stored hK).bytes,
      (h.stored hK).shown⟩⟩, h.fids.conns, h.fids.next, h.fids.vfs, h.fids.path⟩

omit [DecidableEq V] in
theorem guarded_interns : Interns (Guarded cfg v p good K) :=
  fun w paths seq h => (during_interns w paths seq h.during).toGuarded

variable (hv : (cfg.backend v).Lawful)

include hv

theorem Guarded.setDisk (h : Guarded cfg v p good K w) {u : V} {c : Call} {d : σ}
    (hd : (cfg.backend u).apply (w.disk u) c = .ok d) (hclear : Clear v p K u c.replaced) :
    Guarded cfg v p good K (w.setDisk u d) := by
  refine ⟨h.tidy.setDisk u d, fun hK => (h.stored hK).of_writers (fun _ _ _ _ => rfl) ?_
    (h.stored hK).shown⟩
  by_cases hu : u = v
  · subst hu
    rw [setDisk_disk_self]
    exact hv.keep _ _ _ _ hd (h.stored hK).leaf (hclear hK rfl)
  · rw [setDisk_disk_of_ne w u d (Ne.symm hu)]

theorem During.setDisk (h : During cfg v p good K w₀ w) {u : V} {c : Call} {d : σ}
    (hd : (cfg.backend u).apply (w.disk u) c = .ok d) (hclear : Clear v p K u c.replaced) :
    During cfg v p good K w₀ (w.setDisk u d) :=
  ⟨h.toGuarded.setDisk hv hd hclear, h.fids.setDisk u d⟩

/-- A call that is accepted must be clear of the file. -/
theorem During.call (h : During cfg v p good K w₀ w) {u : V} {c : Call}
    (hclear : (∃ d, (cfg.backend u).apply (w.disk u) c = .ok d) → Clear v p (K ∧ C) u c.replaced) :
    Wp (cfg.call u c) (fun _ => During cfg v p good (K ∧ C) w₀)
      (fun _ => During cfg v p good K w₀) w :=
  wp_call cfg u c (fun d hd => (h.mono And.left).setDisk hv hd (hclear ⟨d, hd⟩)) fun _ _ => h

omit [DecidableEq V] in
theorem writable_of_write {s d : σ} {q : Path} {bytes : List UInt8}
    (hd : (cfg.backend v).write s q (.file bytes) = .ok d) :
    (cfg.backend v).isWritablePath q = true := by
  by_contra hfalse
  obtain ⟨e, he⟩ := hv.write_refused s q bytes (Bool.not_eq_true _ ▸ hfalse)
  rw [he] at hd
  cases hd

omit [DecidableEq V] in
/-- A write over a file that succeeds shows its bytes. -/
theorem look_of_write {s d : σ} {bytes : List UInt8} (hleaf : (cfg.backend v).isLeaf s p)
    (hd : (cfg.backend v).write s p (.file bytes) = .ok d) :
    (cfg.backend v).look d p = .ok (some (.file bytes)) := by
  obtain ⟨t, ht, hlook, -⟩ := hv.write_leaf s p bytes hleaf (writable_of_write hv hd)
  cases ht.symm.trans hd
  exact hlook

/-- The file itself is written, with good bytes unless a writer will write over it. -/
theorem Stored.write (h : Stored (cfg.backend v) v p good w) {d : σ} {bytes : List UInt8}
    (hd : (cfg.backend v).write (w.disk v) p (.file bytes) = .ok d)
    (hgood : Settled v p w → good bytes) : Stored (cfg.backend v) v p good (w.setDisk v d) := by
  have hlook := look_of_write hv h.leaf hd
  rw [← setDisk_disk_self w v d] at hlook
  exact ⟨Backend.isLeaf_of_look hlook rfl, h.writable, h.above, h.bytes,
    fun hsettled => ⟨bytes, hlook, hgood hsettled⟩⟩

omit hv in
/-- Giving a writer up, when it has nothing to write or is on another file. -/
theorem Stored.release (h : Stored (cfg.backend v) v p good w) (r : Ref)
    (hclean : ∀ wr, (w.heap r).writer = some wr → (w.heap r).vfs = v → wr.path = p →
      wr.dirty = false) : Stored (cfg.backend v) v p good (w.release r) := by
  refine h.of_writers (fun r' u q hr' => release_heap_of_ne w (writerAt_release hr').1) rfl
    fun hsettled => h.shown fun r' wr hwr hu hq => ?_
  by_cases heq : r' = r
  · rw [heq] at hwr hu
    exact hclean wr hwr hu hq
  · have hcell := release_heap_of_ne w heq
    rw [← hcell] at hwr hu
    exact hsettled r' wr hwr hu hq

/-- After its writer was closed, a fid has none, and no other fid has a new one. -/
def Closed (cfg : Config V σ) (v : V) (p : Path) (good : List UInt8 → Prop) (K : Prop)
    (w₀ w : World V σ) (r : Ref) (w' : World V σ) : Prop :=
  During cfg v p good K w₀ w' ∧ ∀ r' u q, WriterAt w' r' u q → r' ≠ r ∧ WriterAt w r' u q

theorem During.closeWriter (h : During cfg v p good K w₀ w) (r : Ref) :
    Wp (cfg.closeWriter r) (fun _ => Closed cfg v p good K w₀ w r)
      (fun _ => Closed cfg v p good K w₀ w r) w := by
  have hreleased : (K → ∀ wr, (w.heap r).writer = some wr → (w.heap r).vfs = v → wr.path = p →
      wr.dirty = false) → During cfg v p good K w₀ (w.release r) := fun hclean =>
    ⟨⟨h.tidy.release r, fun hK => (h.stored hK).release r (hclean hK)⟩, h.fids.release r⟩
  have hfewer : ∀ r' u q, WriterAt (w.release r) r' u q → r' ≠ r ∧ WriterAt w r' u q :=
    fun r' u q => writerAt_release
  refine wp_closeWriter cfg r (fun hclean => ⟨hreleased fun _ wr hwr _ _ => hclean wr hwr, hfewer⟩)
    fun wr hwr hdirty => ?_
  by_cases hfile : (w.heap r).vfs = v ∧ wr.path = p
  · -- the watched file: the backend takes the bytes, and they are shown
    obtain ⟨hu, hq⟩ := hfile
    rw [hu, hq]
    have hnone : ∀ r', ¬ WriterAt (w.release r) r' v p := by
      intro r' hr'
      obtain ⟨hne, hat⟩ := writerAt_release hr'
      exact hne (h.tidy.writerAt_unique hat ⟨wr, hwr, hu, hq⟩)
    refine wp_call cfg v _ (fun d hd => ⟨⟨⟨(h.tidy.release r).setDisk v d, fun hK => ?_⟩,
      (h.fids.release r).setDisk v d⟩, hfewer⟩) fun e he => ⟨⟨⟨h.tidy.release r, fun hK => ?_⟩,
      h.fids.release r⟩, hfewer⟩
    · have hs := h.stored hK
      have hlook := look_of_write hv (s := w.disk v) hs.leaf hd
      have hgood := hs.bytes r wr hwr hu hq
      rw [← setDisk_disk_self (w.release r) v d] at hlook
      refine ⟨Backend.isLeaf_of_look hlook rfl, fun r' hr' => absurd hr' (hnone r'),
        fun r' q' hr' => hs.above r' q' (writerAt_release hr').2,
        fun r' x hx hu' hq' => absurd ⟨x, hx, hu', hq'⟩ (hnone r'), fun _ =>
          ⟨wr.bytes, hlook, hgood⟩⟩
    · have hs := h.stored hK
      obtain ⟨t, ht, -⟩ := hv.write_leaf _ p wr.bytes hs.leaf (hs.writable r ⟨wr, hwr, hu, hq⟩)
      cases ht.symm.trans he
  · have hother := hreleased fun _ x hx hu hq => by
      cases hwr.symm.trans hx
      exact absurd ⟨hu, hq⟩ hfile
    refine wp_call cfg _ _ (fun d hd => ⟨hother.setDisk hv hd fun hK hu q hq => ?_, hfewer⟩)
      fun e _ => ⟨hother, hfewer⟩
    rw [Call.replaced, List.mem_singleton] at hq
    rw [hq]
    exact fun hprior => hfile ⟨hu, (h.stored hK).above r wr.path ⟨wr, hwr, hu, rfl⟩ hprior⟩

theorem During.closeConflictingWriter (h : During cfg v p good K w₀ w) (r : Ref) :
    Wp (cfg.closeConflictingWriter r) (fun _ w' => During cfg v p good K w₀ w' ∧
      ∀ r', WriterAt w' r' (w₀.heap r).vfs (w₀.heap r).path → r' = r)
      (fun _ => During cfg v p good K w₀) w := by
  have howner : ∀ r', WriterAt w r' (w₀.heap r).vfs (w₀.heap r).path →
      w.owners ((w₀.heap r).vfs, (w₀.heap r).path) = some r' := by
    rintro r' ⟨wr, hwr, hu, hq⟩
    rw [← hu, ← hq]
    exact (h.tidy.owned r' wr hwr).2.2
  unfold Config.closeConflictingWriter
  rw [wp_bind, wp_fidAt, wp_bind, wp_get, h.fids.vfs, h.fids.path]
  cases ho : w.owners ((w₀.heap r).vfs, (w₀.heap r).path) with
  | none =>
    refine ⟨h, fun r' hr' => ?_⟩
    rw [howner r' hr'] at ho
    cases ho
  | some owner =>
    simp only
    rw [wp_ite]
    refine ⟨fun _ => ?_, fun heq => ⟨h, fun r' hr' => ?_⟩⟩
    · refine (h.closeWriter hv owner).mono (fun _ w' hw' => ⟨hw'.1, fun r' hr' => ?_⟩)
        fun _ w' hw' => hw'.1
      obtain ⟨hne, hat⟩ := hw'.2 r' _ _ hr'
      rw [howner r' hat] at ho
      exact absurd (Option.some.inj ho) hne
    · rw [howner r' hr'] at ho
      rw [Option.some.inj ho]
      exact not_not.mp heq

omit [DecidableEq V] hv in
/-- A new writer on a free file, with the bytes that are there. -/
theorem Stored.adopt (h : Stored (cfg.backend v) v p good w) {r : Ref}
    (hidle : (w.heap r).writer = none) {wr : Writer}
    (habove : (w.heap r).vfs = v → wr.path <+: p → wr.path = p)
    (hbytes : (w.heap r).vfs = v → wr.path = p → (cfg.backend v).isWritablePath p = true ∧
      good wr.bytes)
    {w' : World V σ} (hdisk : w'.disk = w.disk)
    (hheap : w'.heap = (w.setFid r { w.heap r with
      writer := some wr, writerPath := some (w.heap r).path }).heap) :
    Stored (cfg.backend v) v p good w' := by
  have hself : ∀ x, (w'.heap r).writer = some x → x = wr := by
    intro x hx
    rw [hheap, setFid_heap_self] at hx
    exact (Option.some.inj hx).symm
  have hvfs : (w'.heap r).vfs = (w.heap r).vfs := by rw [hheap, setFid_heap_self]
  have hother : ∀ r', r' ≠ r → w'.heap r' = w.heap r' := fun r' hne => by
    rw [hheap, setFid_heap_of_ne w _ hne]
  refine ⟨by rw [hdisk]; exact h.leaf, fun r' hr' => ?_, fun r' q hr' hq => ?_,
    fun r' x hx hu hq => ?_, fun hsettled => ?_⟩
  · by_cases heq : r' = r
    · obtain ⟨x, hx, hu, hq⟩ := hr'
      rw [heq] at hx hu
      rw [hself x hx] at hq
      exact (hbytes (hvfs ▸ hu) hq).1
    · exact h.writable r' ((writerAt_congr (hother r' heq) v p).mp hr')
  · by_cases heq : r' = r
    · obtain ⟨x, hx, hu, rfl⟩ := hr'
      rw [heq] at hx hu
      rw [hself x hx] at hq ⊢
      exact habove (hvfs ▸ hu) hq
    · exact h.above r' q ((writerAt_congr (hother r' heq) v q).mp hr') hq
  · by_cases heq : r' = r
    · rw [heq] at hx hu
      obtain rfl := hself x hx
      exact (hbytes (hvfs ▸ hu) hq).2
    · rw [hother r' heq] at hx hu
      exact h.bytes r' x hx hu hq
  · rw [hdisk]
    refine h.shown fun r' x hx hu hq => ?_
    have hne : r' ≠ r := by
      rintro rfl
      rw [hidle] at hx
      cases hx
    rw [← hother r' hne] at hx hu
    exact hsettled r' x hx hu hq

omit hv in
theorem During.adopt (h : During cfg v p good K w₀ w) (hlt : r < w.next)
    (hfree : ∀ r', ¬ WriterAt w r' (w₀.heap r).vfs (w₀.heap r).path)
    (hidle : (w.heap r).writer = none)
    {wr : Writer} (hpath : wr.path = (w₀.heap r).path)
    (habove : K → (w₀.heap r).vfs = v → wr.path <+: p → wr.path = p)
    (hbytes : K → (w₀.heap r).vfs = v → wr.path = p → (cfg.backend v).isWritablePath p = true ∧
      good wr.bytes) :
    During cfg v p good K w₀ { w.setFid r { w.heap r with
        writer := some wr, writerPath := some (w.heap r).path } with
      owners := Function.update w.owners ((w₀.heap r).vfs, (w₀.heap r).path) (some r) } := by
  have hset := h.fids.setFid (r := r) (f := { w.heap r with
    writer := some wr, writerPath := some (w.heap r).path }) rfl rfl
  rw [← h.fids.vfs, ← h.fids.path] at hfree ⊢
  rw [← h.fids.path] at hpath
  rw [← h.fids.vfs] at habove hbytes
  refine ⟨⟨h.tidy.adopt hlt hfree hidle hpath, fun hK => ?_⟩, hset.conns, hset.next, hset.vfs,
    hset.path⟩
  exact (h.stored hK).adopt hidle (habove hK) (hbytes hK) rfl rfl

omit [DecidableEq V] in
/-- What is not a folder is not above the watched file. -/
theorem Stored.above_of_leaf (h : Stored (cfg.backend v) v p good w) {q : Path}
    (hleaf : (cfg.backend v).isLeaf (w.disk v) q) (hprior : q <+: p) : q = p := by
  by_contra hne
  obtain ⟨n, hlook, -⟩ := (Backend.isLeaf_iff _ _).mp h.leaf
  have hfolder := hv.below_folder _ q p n hprior hne hlook
  obtain ⟨n', hlook', hleaf'⟩ := (Backend.isLeaf_iff _ _).mp hleaf
  cases hlook'.symm.trans hfolder
  cases hleaf'

/-- Opening a writer for append, or on an emptied file that is not the watched one. -/
theorem During.openWriter (h : During cfg v p good K w₀ w) (hlt : r < w.next) (append : Bool)
    (hclear : append = false → K ∧ C → (w₀.heap r).vfs = v →
      (cfg.backend v).isWritablePath (w₀.heap r).path = true → ¬ (w₀.heap r).path <+: p) :
    Wp (cfg.openWriter r append)
      (fun opened => During cfg v p good (K ∧ (opened = true → append = false → C)) w₀)
      (fun _ => During cfg v p good K w₀) w := by
  unfold Config.openWriter
  rw [wp_bind, wp_fidAt, h.fids.vfs, h.fids.path, wp_ite]
  refine ⟨fun _ => ?_, fun _ => h.mono And.left⟩
  rw [wp_bind]
  refine (h.closeConflictingWriter hv r).mono (fun _ w₁ hw₁ => ?_) fun _ _ he => he
  obtain ⟨h₁, honly⟩ := hw₁
  rw [wp_bind]
  refine (h₁.closeWriter hv r).mono (fun _ w₂ hw₂ => ?_) fun _ _ he => he.1
  obtain ⟨h₂, hclosed⟩ := hw₂
  have hfree : ∀ r', ¬ WriterAt w₂ r' (w₀.heap r).vfs (w₀.heap r).path := by
    intro r' hr'
    obtain ⟨hne, hat⟩ := hclosed r' _ _ hr'
    exact hne (honly r' hat)
  have hidle : (w₂.heap r).writer = none := by
    by_contra hne
    obtain ⟨wr, hwr⟩ := Option.ne_none_iff_exists'.mp hne
    exact (hclosed r _ _ ⟨wr, hwr, rfl, rfl⟩).1 rfl
  have hlt' : r < w₂.next := by
    rw [h₂.fids.next, ← h.fids.next]
    exact hlt
  rw [wp_bind]
  unfold Config.openWriteAt
  cases append with
  | true =>
    rw [if_pos rfl, wp_ite]
    refine ⟨fun hwritable => ?_, fun _ => h₂⟩
    rw [wp_bind]
    refine wp_readBlob cfg _ _ (fun bytes hbytes => ?_) fun _ _ => h₂
    rw [wp_pure, wp_bind, wp_modifyFid, wp_bind, wp_modify, wp_pure]
    refine During.mono ?_ And.left
    refine h₂.adopt hlt' hfree hidle rfl (fun hK hu => ?_) fun hK hu hq => ?_
    · rw [hu] at hbytes
      exact (h₂.stored hK).above_of_leaf hv ((hv.readBlob_leaf _ _).mp ⟨bytes, hbytes⟩)
    · simp only at hq
      rw [hu, hq] at hbytes hwritable hfree
      obtain ⟨c, hlook, hgood⟩ := (h₂.stored hK).shown fun r' wr hwr hu' hq' =>
        absurd ⟨wr, hwr, hu', hq'⟩ (hfree r')
      have hread := Backend.readBytes_of_look hv hlook
      unfold Backend.readBytes at hread
      rw [hbytes] at hread
      have hsame : bytes = c := hread
      exact ⟨hwritable, hsame ▸ hgood⟩
  | false =>
    rw [if_neg Bool.false_ne_true, wp_bind]
    refine wp_call cfg _ _ (fun d hd => ?_) fun _ _ => h₂
    have hclear' : Clear v p (K ∧ C) (w₀.heap r).vfs [(w₀.heap r).path] := by
      intro hKC hu q hq
      rw [List.mem_singleton.mp hq]
      rw [hu] at hd
      exact hclear rfl hKC hu (writable_of_write hv hd)
    have h₃ := (h₂.mono And.left).setDisk hv hd hclear'
    rw [wp_pure, wp_bind, wp_modifyFid, wp_bind, wp_modify, wp_pure]
    refine During.mono (K := K ∧ C) ?_ fun hK => ⟨hK.1, hK.2 rfl rfl⟩
    refine h₃.adopt hlt' hfree hidle rfl (fun hK hu hprior => ?_) fun hK hu hq => ?_
    · exact absurd hprior (hclear' hK hu _ (List.mem_singleton_self _))
    · exact absurd (hq ▸ List.prefix_refl _) (hclear' hK hu _ (List.mem_singleton_self _))

omit [DecidableEq V] hv in
/-- An open writer gets other bytes: good ones on the watched file, which the backend shows
already if they are not to be written. -/
theorem Stored.setWriter (h : Stored (cfg.backend v) v p good w) {r : Ref} {wr wr' : Writer}
    (hwr : (w.heap r).writer = some wr) (hpath : wr'.path = wr.path)
    (hbytes : (w.heap r).vfs = v → wr.path = p → good wr'.bytes ∧ (wr'.dirty = false →
      (cfg.backend v).look (w.disk v) p = .ok (some (.file wr'.bytes)))) :
    Stored (cfg.backend v) v p good (w.setFid r { w.heap r with writer := some wr' }) := by
  have hback : ∀ r' u q, WriterAt (w.setFid r { w.heap r with writer := some wr' }) r' u q →
      WriterAt w r' u q := fun r' u q => (writerAt_setFid_writer hwr wr' hpath r' u q).mp
  refine ⟨h.leaf, fun r' hr' => h.writable r' (hback r' v p hr'),
    fun r' q hr' => h.above r' q (hback r' v q hr'), fun r' x hx hu hq => ?_, fun hsettled => ?_⟩
  · by_cases heq : r' = r
    · subst heq
      rw [setFid_heap_self] at hx hu
      cases hx
      exact (hbytes hu (hpath.symm.trans hq)).1
    · rw [setFid_heap_of_ne w _ heq] at hx hu
      exact h.bytes r' x hx hu hq
  · by_cases hfile : (w.heap r).vfs = v ∧ wr.path = p
    · obtain ⟨hgood, hlook⟩ := hbytes hfile.1 hfile.2
      refine ⟨wr'.bytes, hlook (hsettled r wr' ?_ ?_ (hpath.trans hfile.2)), hgood⟩
      · rw [setFid_heap_self]
      · rw [setFid_heap_self]
        exact hfile.1
    · refine h.shown fun r' x hx hu hq => ?_
      have hne : r' ≠ r := by
        rintro rfl
        cases hwr.symm.trans hx
        exact hfile ⟨hu, hq⟩
      rw [← setFid_heap_of_ne w { w.heap r with writer := some wr' } hne] at hx hu
      exact hsettled r' x hx hu hq

omit [DecidableEq V] hv in
theorem During.setWriter (h : During cfg v p good K w₀ w) {wr wr' : Writer}
    (hwr : (w.heap r).writer = some wr) (hpath : wr'.path = wr.path)
    (hbytes : K → (w.heap r).vfs = v → wr.path = p → good wr'.bytes ∧
      (wr'.dirty = false → (cfg.backend v).look (w.disk v) p = .ok (some (.file wr'.bytes)))) :
    During cfg v p good K w₀ (w.setFid r { w.heap r with writer := some wr' }) :=
  ⟨⟨h.tidy.setWriter hwr hpath, fun hK => (h.stored hK).setWriter hwr hpath (hbytes hK)⟩,
    h.fids.setFid rfl rfl⟩

/-- Saving a writer's bytes. On the watched file the backend takes them. -/
theorem During.save (h : During cfg v p good K w₀ w) {wr : Writer}
    (hwr : (w.heap r).writer = some wr) :
    Wp (cfg.save r (w₀.heap r).vfs wr) (fun _ => During cfg v p good K w₀)
      (fun _ => During cfg v p good K w₀) w := by
  unfold Config.save
  rw [wp_bind]
  rw [← h.fids.vfs]
  by_cases hfile : (w.heap r).vfs = v ∧ wr.path = p
  · obtain ⟨hu, hq⟩ := hfile
    refine wp_call cfg _ _ (fun d hd => ?_) fun e _ => h
    rw [wp_modifyFid]
    refine ⟨⟨(h.tidy.setDisk _ d).setWriter hwr rfl, fun hK => ?_⟩,
      (h.fids.setDisk _ d).setFid rfl rfl⟩
    -- the file is shown with the bytes of its only writer
    have hs := h.stored hK
    have hgood := hs.bytes r wr hwr hu hq
    rw [hu] at hd ⊢
    rw [hq] at hd
    have hlook := look_of_write hv hs.leaf hd
    rw [← setDisk_disk_self w v d] at hlook
    exact (hs.write hv hd fun _ => hgood).setWriter hwr rfl fun _ _ => ⟨hgood, fun _ => hlook⟩
  · refine wp_call cfg _ _ (fun d hd => ?_) fun e _ => h
    rw [wp_modifyFid]
    refine (h.setDisk hv hd fun hK hu q hq => ?_).setWriter hwr rfl fun _ hu hq =>
      absurd ⟨hu, hq⟩ hfile
    rw [Call.replaced, List.mem_singleton] at hq
    rw [hq]
    exact fun hprior => hfile ⟨hu, (h.stored hK).above r wr.path ⟨wr, hwr, hu, rfl⟩ hprior⟩

/-- The watched file's writer takes its bytes, so that a throw is about another file. -/
theorem During.replaceBytes (h : During cfg v p good K w₀ w) {wr : Writer}
    (hwr : (w.heap r).writer = some wr) (bytes : List UInt8)
    (hgood : K ∧ C → (w₀.heap r).vfs = v → wr.path = p → good bytes) :
    Wp (cfg.replaceBytes r (w₀.heap r).vfs wr bytes) (fun _ => During cfg v p good (K ∧ C) w₀)
      (fun _ => During cfg v p good K w₀) w := by
  have hgrown : ∀ K' : Prop, (K' → K) → (K' → (w₀.heap r).vfs = v → wr.path = p → good bytes) →
      During cfg v p good K' w₀
        (w.setFid r { w.heap r with writer := some ⟨wr.path, bytes, true⟩ }) :=
    fun K' hK' hgood' => (h.mono hK').setWriter hwr rfl fun hK hu hq =>
      ⟨hgood' hK (h.fids.vfs r ▸ hu) hq, fun hfalse => by cases hfalse⟩
  have hdone := hgrown (K ∧ C) And.left hgood
  unfold Config.replaceBytes
  rw [wp_bind, wp_modifyFid, wp_ite]
  refine ⟨fun _ => ?_, fun _ => hdone⟩
  have hput : ((w.setFid r { w.heap r with writer := some ⟨wr.path, bytes, true⟩ }).heap r).writer =
      some ⟨wr.path, bytes, true⟩ := by rw [setFid_heap_self]
  have hsave := hdone.save hv hput
  have hthrow : Wp (cfg.save r (w₀.heap r).vfs ⟨wr.path, bytes, true⟩) (fun _ _ => True)
      (fun _ => During cfg v p good K w₀)
      (w.setFid r { w.heap r with writer := some ⟨wr.path, bytes, true⟩ }) := by
    unfold Config.save
    rw [wp_bind]
    refine wp_call cfg _ _ (fun d _ => ?_) fun e he => ?_
    · rw [wp_modifyFid]
      trivial
    · refine hgrown K id fun hK hu hq => ?_
      have hstored := h.stored hK
      have hwritable := hstored.writable r ⟨wr, hwr, (h.fids.vfs r).trans hu, hq⟩
      obtain ⟨d, hd, -⟩ := hv.write_leaf _ p bytes hstored.leaf hwritable
      rw [hu, hq] at he
      cases hd.symm.trans he
  exact (hsave.and hthrow).mono (fun _ _ h' => h'.1) fun _ _ h' => h'.2

/-- A write of a whole file: good bytes on the watched one, unless a writer will write over
them, and none above it. -/
theorem During.writeBytes (h : During cfg v p good K w₀ w) {u : V} {q : Path} {bytes : List UInt8}
    (hfile : K ∧ C → u = v → q = p → Settled v p w → good bytes)
    (hclear : K ∧ C → u = v → q ≠ p → ¬ q <+: p) :
    Wp (cfg.writeBytes u q bytes) (fun _ => During cfg v p good (K ∧ C) w₀)
      (fun _ => During cfg v p good K w₀) w := by
  by_cases hat : u = v ∧ q = p
  · obtain ⟨rfl, rfl⟩ := hat
    refine wp_call cfg u _ (fun d hd => ⟨⟨h.tidy.setDisk u d, fun hK => ?_⟩, h.fids.setDisk u d⟩)
      fun _ _ => h
    exact (h.stored hK.1).write hv hd (hfile hK rfl rfl)
  · refine h.call hv fun _ hK hu q' hq' => ?_
    rw [Call.replaced, List.mem_singleton] at hq'
    rw [hq']
    exact hclear hK hu fun hq => hat ⟨hu, hq⟩

/-- A file that is emptied, if it can be written, is not the watched one or above it. -/
theorem During.emptyFile (h : During cfg v p good K w₀ w) (hlt : r < w.next)
    (hclear : K ∧ C → (w₀.heap r).vfs = v →
      (cfg.backend v).isWritablePath (w₀.heap r).path = true → ¬ (w₀.heap r).path <+: p) :
    Wp (cfg.emptyFile r (w₀.heap r).vfs (w₀.heap r).path)
      (fun _ => During cfg v p good (K ∧ C) w₀) (fun _ => During cfg v p good K w₀) w := by
  unfold Config.emptyFile
  rw [wp_bind]
  refine (h.openWriter hv hlt false fun _ => hclear).mono (fun opened w' hw' => ?_) fun _ _ he => he
  rw [wp_ite]
  refine ⟨fun hopened => hw'.mono fun hK => ⟨hK.1, fun _ _ => hK.2⟩, fun hopened => ?_⟩
  have hw'' : During cfg v p good K w₀ w' := hw'.mono fun hK => ⟨hK, fun h' => absurd h' hopened⟩
  refine hw''.call hv fun hd hKC hu q hq => ?_
  obtain ⟨d, hd⟩ := hd
  rw [Call.replaced, List.mem_singleton] at hq
  rw [hq]
  rw [hu] at hd
  exact hclear hKC hu (writable_of_write hv hd)

theorem During.closeAll (h : During cfg v p good K w₀ w) (refs : List Ref) :
    Wp (cfg.closeAll refs) (fun _ => During cfg v p good K w₀)
      (fun _ => During cfg v p good K w₀) w := by
  induction refs generalizing w with
  | nil => exact h
  | cons r refs ih =>
    unfold Config.closeAll
    rw [wp_bind, wp_tryCatch, wp_bind]
    refine (h.closeWriter hv r).mono (fun _ w' hw' => ?_) fun e w' hw' => ?_
    · rw [wp_pure, wp_bind]
      exact (ih hw'.1).mono (fun _ _ h' => h') fun _ _ he => he
    · rw [wp_pure, wp_bind]
      exact (ih hw'.1).mono (fun _ _ h' => h') fun _ _ he => he

end Watching

end NixWasm.NinepServer
