import NixWasm.NinepWorlds

/-!
The streaming server beside the read-modify-write server. `Sim` relates their worlds: the
tables are the same, and where a fid has an open writer the plain backend already holds
the writer's bytes. Every helper of the server keeps it.
-/
namespace NixWasm.NinepServer

open Unicode Vfs NinepCodec Effects

variable {V σ : Type} [DecidableEq V]

/-- The same server over backends without `openWrite`. -/
def Config.plain (cfg : Config V σ) : Config V σ := { cfg with openWrite := fun _ => false }

/-- The fid has a writer open on the path. -/
def WriterAt (w : World V σ) (r : Ref) (v : V) (p : Path) : Prop :=
  ∃ wr, (w.heap r).writer = some wr ∧ (w.heap r).vfs = v ∧ wr.path = p

/-- An open writer and the node the plain backend shows for its file. -/
structure Holds (b : Backend σ) (streamed plain : σ) (wr : Writer) : Prop where
  writable : b.isWritablePath wr.path = true
  leaf : b.isLeaf streamed wr.path
  shows : ∃ n, b.look plain wr.path = .ok (some n) ∧ n.isFolder = false ∧ n.bytes = wr.bytes ∧
    (wr.dirty = true → n = .file wr.bytes) ∧
    (wr.dirty = false → b.look streamed wr.path = .ok (some n))

/-- The streaming world `s` and the plain world `t`. -/
structure Sim (cfg : Config V σ) (s t : World V σ) : Prop where
  conns : s.conns = t.conns
  next : s.next = t.next
  path : ∀ r, (s.heap r).path = (t.heap r).path
  vfs : ∀ r, (s.heap r).vfs = (t.heap r).vfs
  plain : ∀ r, (t.heap r).writer = none ∧ (t.heap r).writerPath = none
  unowned : ∀ k, t.owners k = none
  fresh : ∀ r, s.next ≤ r → (s.heap r).writer = none
  allocated : ∀ cid c fid r, s.conns.get cid = some c → c.fids.get fid = some r → r < s.next
  idle : ∀ r, (s.heap r).writer = none → (s.heap r).writerPath = none
  owned : ∀ r wr, (s.heap r).writer = some wr → wr.path = (s.heap r).path ∧
    (s.heap r).writerPath = some wr.path ∧ s.owners ((s.heap r).vfs, wr.path) = some r
  owner : ∀ v p r, s.owners (v, p) = some r → WriterAt s r v p
  bound : ∀ r wr, (s.heap r).writer = some wr →
    ∃ cid c fid, s.conns.get cid = some c ∧ c.fids.get fid = some r
  streams : ∀ r wr, (s.heap r).writer = some wr → cfg.openWrite (s.heap r).vfs = true
  holds : ∀ r wr, (s.heap r).writer = some wr →
    Holds (cfg.backend (s.heap r).vfs) (s.disk (s.heap r).vfs) (t.disk (s.heap r).vfs) wr
  same : ∀ v p, (∀ r, ¬ WriterAt s r v p) →
    (cfg.backend v).look (s.disk v) p = (cfg.backend v).look (t.disk v) p

section Sim
variable {cfg : Config V σ} {s t : World V σ}

omit [DecidableEq V]

theorem writerAt_of_sameCore {s s' : World V σ} (h : SameCore s s') (r : Ref) (v : V) (p : Path) :
    WriterAt s' r v p ↔ WriterAt s r v p := by
  simp only [WriterAt, h.writer, h.vfs]

theorem Sim.of_sameCore (h : Sim cfg s t) {s' t' : World V σ} (hs : SameCore s s')
    (ht : SameCore t t') : Sim cfg s' t' where
  conns := by rw [hs.conns, ht.conns, h.conns]
  next := by rw [hs.next, ht.next, h.next]
  path r := by rw [hs.path, ht.path, h.path]
  vfs r := by rw [hs.vfs, ht.vfs, h.vfs]
  plain r := by
    rw [ht.writer, ht.writerPath]
    exact h.plain r
  unowned k := by
    rw [ht.owners]
    exact h.unowned k
  fresh r hr := by
    rw [hs.writer]
    exact h.fresh r (hs.next ▸ hr)
  allocated cid c fid r hc hf := by
    rw [hs.next]
    exact h.allocated cid c fid r (hs.conns ▸ hc) hf
  idle r hr := by
    rw [hs.writerPath]
    exact h.idle r (hs.writer r ▸ hr)
  owned r wr hw := by
    rw [hs.path, hs.writerPath, hs.vfs, hs.owners]
    exact h.owned r wr (hs.writer r ▸ hw)
  owner v p r ho := by
    rw [writerAt_of_sameCore hs]
    exact h.owner v p r (hs.owners ▸ ho)
  bound r wr hw := by
    rw [hs.conns]
    exact h.bound r wr (hs.writer r ▸ hw)
  streams r wr hw := by
    rw [hs.vfs]
    exact h.streams r wr (hs.writer r ▸ hw)
  holds r wr hw := by
    rw [hs.vfs, hs.disk, ht.disk]
    exact h.holds r wr (hs.writer r ▸ hw)
  same v p hp := by
    rw [hs.disk, ht.disk]
    exact h.same v p fun r hr => hp r ((writerAt_of_sameCore hs r v p).mpr hr)

theorem Sim.of_coreFixed (h : Sim cfg s t) {α β : Type} {x : Handler V σ α} {y : Handler V σ β}
    (hx : CoreFixed x) (hy : CoreFixed y) : Sim cfg (after (x s)) (after (y t)) :=
  h.of_sameCore (hx s) (hy t)

/-- Two fids never have writers on one file. -/
theorem Sim.writerAt_unique (h : Sim cfg s t) {r r' : Ref} {v : V} {p : Path}
    (hr : WriterAt s r v p) (hr' : WriterAt s r' v p) : r = r' := by
  obtain ⟨wr, hw, rfl, rfl⟩ := hr
  obtain ⟨wr', hw', hv, hp⟩ := hr'
  have ho := (h.owned r wr hw).2.2
  have ho' := (h.owned r' wr' hw').2.2
  rw [hv, hp, ho] at ho'
  exact Option.some.inj ho'

/-- Both backends show a file where a fid has a writer. -/
theorem Sim.leaf_plain (h : Sim cfg s t) {r : Ref} {v : V} {p : Path} (hr : WriterAt s r v p) :
    (cfg.backend v).isLeaf (s.disk v) p ∧ (cfg.backend v).isLeaf (t.disk v) p := by
  obtain ⟨wr, hw, rfl, rfl⟩ := hr
  obtain ⟨n, hlook, hn, -⟩ := (h.holds r wr hw).shows
  exact ⟨(h.holds r wr hw).leaf, Backend.isLeaf_of_look hlook hn⟩

theorem Sim.agree (h : Sim cfg s t) (v : V) :
    (cfg.backend v).Agree (fun p => ∃ r, WriterAt s r v p) (s.disk v) (t.disk v) := by
  constructor
  · intro p hp
    exact h.same v p fun r hr => hp ⟨r, hr⟩
  · rintro p ⟨r, hr⟩
    exact h.leaf_plain hr

/-- On either side a path is missing, a folder or a file alike. -/
theorem Sim.isLeaf_eq (h : Sim cfg s t) (v : V) (p : Path) :
    (cfg.backend v).isLeaf (s.disk v) p = (cfg.backend v).isLeaf (t.disk v) p := by
  by_cases hp : ∃ r, WriterAt s r v p
  · obtain ⟨r, hr⟩ := hp
    obtain ⟨hs, ht⟩ := h.leaf_plain hr
    rw [hs, ht]
  · exact Backend.isLeaf_congr (h.same v p fun r hr => hp ⟨r, hr⟩)

/-- `stat` finds the same on both sides, up to what a writer has not put there yet. -/
theorem Sim.stat_cases (h : Sim cfg s t) (v : V) (p : Path) :
    (∃ e, (cfg.backend v).stat (s.disk v) p = .error e ∧
        (cfg.backend v).stat (t.disk v) p = .error e) ∨
      ((cfg.backend v).stat (s.disk v) p = .ok none ∧
        (cfg.backend v).stat (t.disk v) p = .ok none) ∨
      ∃ rec rec', (cfg.backend v).stat (s.disk v) p = .ok (some rec) ∧
        (cfg.backend v).stat (t.disk v) p = .ok (some rec') ∧
        (rec.type = .folder ↔ rec'.type = .folder) := by
  by_cases hp : ∃ r, WriterAt s r v p
  · obtain ⟨r, hr⟩ := hp
    obtain ⟨hs, ht⟩ := h.leaf_plain hr
    obtain ⟨rec, hrec, hkind⟩ := Backend.stat_of_isLeaf hs
    obtain ⟨rec', hrec', hkind'⟩ := Backend.stat_of_isLeaf ht
    exact Or.inr (Or.inr ⟨rec, rec', hrec, hrec', by simp [hkind, hkind']⟩)
  · exact Backend.stat_of_look_eq (h.same v p fun r hr => hp ⟨r, hr⟩)

end Sim

def World.setDisk (w : World V σ) (v : V) (d : σ) : World V σ :=
  { w with disk := Function.update w.disk v d }

/-- The world after a fid's writer, and its claim on the file, are set. -/
def World.setWriter (w : World V σ) (r : Ref) (wr : Option Writer) : World V σ :=
  { w with
    heap := Function.update w.heap r
      { w.heap r with writer := wr, writerPath := wr.map fun _ => (w.heap r).path }
    owners := Function.update w.owners ((w.heap r).vfs, (w.heap r).path) (wr.map fun _ => r) }

section Tables
variable (w : World V σ) (r : Ref) (v : V) (d : σ) (wr : Option Writer)

@[simp] theorem setDisk_heap : (w.setDisk v d).heap = w.heap := rfl
@[simp] theorem setDisk_owners : (w.setDisk v d).owners = w.owners := rfl
@[simp] theorem setDisk_disk_self : (w.setDisk v d).disk v = d := Function.update_self ..
theorem setDisk_disk_of_ne {u : V} (h : u ≠ v) : (w.setDisk v d).disk u = w.disk u :=
  Function.update_of_ne h ..

theorem setDisk_self : w.setDisk v (w.disk v) = w := by
  simp only [World.setDisk, Function.update_eq_self]

@[simp] theorem setWriter_disk : (w.setWriter r wr).disk = w.disk := rfl

theorem setWriter_heap_of_ne {r' : Ref} (h : r' ≠ r) :
    (w.setWriter r wr).heap r' = w.heap r' := Function.update_of_ne h ..

@[simp] theorem setWriter_path (r' : Ref) :
    ((w.setWriter r wr).heap r').path = (w.heap r').path := by
  by_cases h : r' = r
  · subst h
    simp [World.setWriter]
  · rw [setWriter_heap_of_ne w r wr h]

@[simp] theorem setWriter_vfs (r' : Ref) :
    ((w.setWriter r wr).heap r').vfs = (w.heap r').vfs := by
  by_cases h : r' = r
  · subst h
    simp [World.setWriter]
  · rw [setWriter_heap_of_ne w r wr h]

@[simp] theorem setWriter_writer_self : ((w.setWriter r wr).heap r).writer = wr := by
  simp [World.setWriter]

@[simp] theorem setWriter_writerPath_self : ((w.setWriter r wr).heap r).writerPath =
    wr.map fun _ => (w.heap r).path := by
  simp [World.setWriter]

@[simp] theorem setWriter_owners_self :
    (w.setWriter r wr).owners ((w.heap r).vfs, (w.heap r).path) = wr.map fun _ => r :=
  Function.update_self ..

theorem setWriter_owners_of_ne {k : V × Path} (h : k ≠ ((w.heap r).vfs, (w.heap r).path)) :
    (w.setWriter r wr).owners k = w.owners k := Function.update_of_ne h ..

omit [DecidableEq V] in
theorem writerAt_congr {w w' : World V σ} {r : Ref} (h : w'.heap r = w.heap r) (v : V) (p : Path) :
    WriterAt w' r v p ↔ WriterAt w r v p := by
  simp only [WriterAt, h]

end Tables

section Writers
variable {cfg : Config V σ} {s t : World V σ}

/-- Tables unchanged and the backends moved together. -/
theorem Sim.setDisk (h : Sim cfg s t) (v : V) {d d' : σ}
    (hholds : ∀ r wr, (s.heap r).writer = some wr → (s.heap r).vfs = v →
      Holds (cfg.backend v) d d' wr)
    (hsame : ∀ p, (∀ r, ¬ WriterAt s r v p) → (cfg.backend v).look d p =
      (cfg.backend v).look d' p) : Sim cfg (s.setDisk v d) (t.setDisk v d') where
  conns := h.conns
  next := h.next
  path := h.path
  vfs := h.vfs
  plain := h.plain
  unowned := h.unowned
  fresh := h.fresh
  allocated := h.allocated
  idle := h.idle
  owned := h.owned
  owner := h.owner
  bound := h.bound
  streams := h.streams
  holds r wr hw := by
    simp only [setDisk_heap] at hw ⊢
    by_cases hv : (s.heap r).vfs = v
    · rw [hv, setDisk_disk_self, setDisk_disk_self]
      exact hholds r wr hw hv
    · rw [setDisk_disk_of_ne s v d hv, setDisk_disk_of_ne t v d' hv]
      exact h.holds r wr hw
  same u p hp := by
    by_cases hu : u = v
    · subst hu
      rw [setDisk_disk_self, setDisk_disk_self]
      exact hsame p hp
    · rw [setDisk_disk_of_ne s v d hu, setDisk_disk_of_ne t v d' hu]
      exact h.same u p hp

omit [DecidableEq V] in
theorem Holds.congr {b : Backend σ} {d d' e e' : σ} {wr : Writer} (h : Holds b d d' wr)
    (hs : b.look e wr.path = b.look d wr.path) (ht : b.look e' wr.path = b.look d' wr.path) :
    Holds b e e' wr where
  writable := h.writable
  leaf := by
    rw [Backend.isLeaf_congr hs]
    exact h.leaf
  shows := by
    rw [hs, ht]
    exact h.shows

/-- The writers after one fid's writer is set. -/
theorem writerAt_setWriter (s : World V σ) (r : Ref) (wr : Option Writer)
    (hpath : ∀ x ∈ wr, x.path = (s.heap r).path) (r' : Ref) (v : V) (p : Path) :
    WriterAt (s.setWriter r wr) r' v p ↔
      if r' = r then wr.isSome ∧ (s.heap r).vfs = v ∧ (s.heap r).path = p
      else WriterAt s r' v p := by
  by_cases hr : r' = r
  · subst hr
    simp only [WriterAt, setWriter_writer_self, setWriter_vfs, if_true]
    constructor
    · rintro ⟨x, hx, hv, hp⟩
      refine ⟨by simp [hx], hv, ?_⟩
      rw [← hpath x hx]
      exact hp
    · rintro ⟨hsome, hv, hp⟩
      obtain ⟨x, hx⟩ := Option.isSome_iff_exists.mp hsome
      exact ⟨x, hx, hv, by rw [hpath x hx, hp]⟩
  · rw [if_neg hr]
    exact writerAt_congr (setWriter_heap_of_ne s r wr hr) v p

/-- Setting the writer of the only fid that has or gets one on its file. The file must
fit the new writer on both sides, and the rest of both backends is as it was. -/
theorem Sim.setWriter (h : Sim cfg s t) {r : Ref} (wr : Option Writer) {d e : σ}
    (hpath : ∀ x ∈ wr, x.path = (s.heap r).path)
    (hbound : ∃ cid c fid, s.conns.get cid = some c ∧ c.fids.get fid = some r)
    (hoffers : cfg.openWrite (s.heap r).vfs = true)
    (hfree : ∀ r', r' ≠ r → ¬ WriterAt s r' (s.heap r).vfs (s.heap r).path)
    (hold : ∀ x ∈ wr, Holds (cfg.backend (s.heap r).vfs) d e x)
    (hnone : wr = none → (cfg.backend (s.heap r).vfs).look d (s.heap r).path =
      (cfg.backend (s.heap r).vfs).look e (s.heap r).path)
    (hs : ∀ q, q ≠ (s.heap r).path → (cfg.backend (s.heap r).vfs).look d q =
      (cfg.backend (s.heap r).vfs).look (s.disk (s.heap r).vfs) q)
    (ht : ∀ q, q ≠ (s.heap r).path → (cfg.backend (s.heap r).vfs).look e q =
      (cfg.backend (s.heap r).vfs).look (t.disk (s.heap r).vfs) q) :
    Sim cfg ((s.setWriter r wr).setDisk (s.heap r).vfs d) (t.setDisk (s.heap r).vfs e) where
  conns := h.conns
  next := h.next
  path r' := by simpa using h.path r'
  vfs r' := by simpa using h.vfs r'
  plain := h.plain
  unowned := h.unowned
  fresh r' hr' := by
    have hne : r' ≠ r := by
      rintro rfl
      obtain ⟨cid, c, fid, hc, hf⟩ := hbound
      exact absurd (h.allocated cid c fid r' hc hf) (Nat.not_lt.mpr hr')
    rw [setDisk_heap, setWriter_heap_of_ne s r wr hne]
    exact h.fresh r' hr'
  allocated := h.allocated
  idle r' hw := by
    by_cases hr' : r' = r
    · subst hr'
      simp only [setDisk_heap, setWriter_writer_self] at hw
      simp [hw]
    · rw [setDisk_heap, setWriter_heap_of_ne s r wr hr'] at hw ⊢
      exact h.idle r' hw
  owned r' x hw := by
    by_cases hr' : r' = r
    · subst hr'
      simp only [setDisk_heap, setWriter_writer_self] at hw
      subst hw
      have hx := hpath x rfl
      simp [hx]
    · rw [setDisk_heap, setWriter_heap_of_ne s r wr hr'] at hw ⊢
      obtain ⟨hxpath, hxwriter, hxowner⟩ := h.owned r' x hw
      refine ⟨hxpath, hxwriter, ?_⟩
      rw [setDisk_owners, setWriter_owners_of_ne]
      · exact hxowner
      · intro hkey
        obtain ⟨hkv, hkp⟩ := Prod.mk.inj hkey
        exact hfree r' hr' ⟨x, hw, hkv, hkp⟩
  owner v p r' ho := by
    change WriterAt (s.setWriter r wr) r' v p
    rw [writerAt_setWriter s r wr hpath]
    by_cases hkey : (v, p) = ((s.heap r).vfs, (s.heap r).path)
    · rw [hkey, setDisk_owners, setWriter_owners_self] at ho
      obtain ⟨hkv, hkp⟩ := Prod.mk.inj hkey
      cases wr with
      | none => simp at ho
      | some x =>
        simp only [Option.map_some, Option.some.injEq] at ho
        rw [if_pos ho.symm]
        exact ⟨rfl, hkv.symm, hkp.symm⟩
    · rw [setDisk_owners, setWriter_owners_of_ne s r wr hkey] at ho
      have hat := h.owner v p r' ho
      by_cases hr' : r' = r
      · subst hr'
        obtain ⟨x, hw, hxv, hxp⟩ := hat
        rw [(h.owned r' x hw).1] at hxp
        exact absurd (by rw [hxv, hxp]) hkey
      · rw [if_neg hr']
        exact hat
  bound r' x hw := by
    by_cases hr' : r' = r
    · subst hr'
      exact hbound
    · rw [setDisk_heap, setWriter_heap_of_ne s r wr hr'] at hw
      exact h.bound r' x hw
  streams r' x hw := by
    by_cases hr' : r' = r
    · subst hr'
      simpa using hoffers
    · rw [setDisk_heap, setWriter_heap_of_ne s r wr hr'] at hw ⊢
      exact h.streams r' x hw
  holds r' x hw := by
    by_cases hr' : r' = r
    · subst hr'
      simp only [setDisk_heap, setWriter_writer_self] at hw
      simp only [setDisk_heap, setWriter_vfs, setDisk_disk_self]
      exact hold x hw
    · rw [setDisk_heap, setWriter_heap_of_ne s r wr hr'] at hw ⊢
      by_cases hv : (s.heap r').vfs = (s.heap r).vfs
      · have hxp : x.path ≠ (s.heap r).path := fun hxp => hfree r' hr' ⟨x, hw, hv, hxp⟩
        rw [hv, setDisk_disk_self, setDisk_disk_self]
        exact (hv ▸ h.holds r' x hw).congr (hs _ hxp) (ht _ hxp)
      · rw [setDisk_disk_of_ne _ _ _ hv, setDisk_disk_of_ne _ _ _ hv]
        exact h.holds r' x hw
  same u p hp := by
    have hother : ∀ r', r' ≠ r → ¬ WriterAt s r' u p := by
      intro r' hr' hat
      exact hp r' ((writerAt_congr (setWriter_heap_of_ne s r wr hr') u p).mpr hat)
    by_cases hu : u = (s.heap r).vfs
    · subst hu
      rw [setDisk_disk_self, setDisk_disk_self]
      by_cases hpr : p = (s.heap r).path
      · subst hpr
        apply hnone
        have hself := hp r
        change ¬ WriterAt (s.setWriter r wr) r _ _ at hself
        rw [writerAt_setWriter s r wr hpath, if_pos rfl] at hself
        simpa using hself
      · rw [hs p hpr, ht p hpr]
        apply h.same
        intro r' hat
        by_cases hr' : r' = r
        · subst hr'
          obtain ⟨x, hw, -, hxp⟩ := hat
          exact hpr (hxp.symm.trans (h.owned r' x hw).1)
        · exact hother r' hr' hat
    · rw [setDisk_disk_of_ne _ _ _ hu, setDisk_disk_of_ne _ _ _ hu]
      apply h.same
      intro r' hat
      by_cases hr' : r' = r
      · subst hr'
        obtain ⟨x, -, hxv, -⟩ := hat
        exact hu hxv.symm
      · exact hother r' hr' hat

end Writers

section Steps
variable {cfg : Config V σ} {s t : World V σ}

theorem call_ok {v : V} {c : Call} {d : σ} (h : (cfg.backend v).apply (s.disk v) c = .ok d) :
    cfg.call v c s = .ok () (s.setDisk v d) := by
  simp only [Config.call, run_bind, run_get, h]
  rfl

theorem call_error {v : V} {c : Call} {e : Fault}
    (h : (cfg.backend v).apply (s.disk v) c = .error e) : cfg.call v c s = .error e s := by
  simp only [Config.call, run_bind, run_get, h]
  rfl

omit [DecidableEq V] in
theorem readBlob_ok {v : V} {p : Path} {bytes : List UInt8}
    (h : (cfg.backend v).readBlob (s.disk v) p = .ok bytes) : cfg.readBlob v p s = .ok bytes s := by
  simp only [Config.readBlob, run_bind, run_get, h]
  rfl

omit [DecidableEq V] in
theorem readBlob_error {v : V} {p : Path} {e : Fault}
    (h : (cfg.backend v).readBlob (s.disk v) p = .error e) : cfg.readBlob v p s = .error e s := by
  simp only [Config.readBlob, run_bind, run_get, h]
  rfl

/-- Without a writer there is nothing to close. -/
theorem closeWriter_idle (cfg : Config V σ) {r : Ref} (hw : (s.heap r).writer = none)
    (hp : (s.heap r).writerPath = none) : cfg.closeWriter r s = .ok () s := by
  have hcell : ({ s.heap r with writer := none, writerPath := none } : Fid V) = s.heap r := by
    cases hf : s.heap r
    simp_all
  unfold Config.closeWriter
  rw [bind_ok (fidAt_eq r s), bind_ok (modifyFid_eq r _ s), hcell, Function.update_eq_self, hp, hw]
  rfl

theorem closeWriter_open (cfg : Config V σ) {r : Ref} {wr : Writer}
    (hw : (s.heap r).writer = some wr) (hp : (s.heap r).writerPath = some (s.heap r).path)
    (ho : s.owners ((s.heap r).vfs, (s.heap r).path) = some r) :
    cfg.closeWriter r s = (if wr.dirty then cfg.writeBytes (s.heap r).vfs wr.path wr.bytes
      else pure () : Handler V σ Unit) (s.setWriter r none) := by
  unfold Config.closeWriter
  rw [bind_ok (fidAt_eq r s), bind_ok (modifyFid_eq r _ s), hp, hw]
  change (if s.owners ((s.heap r).vfs, (s.heap r).path) = some r then _ else _ :
    Handler V σ Unit) _ = _
  rw [if_pos ho]
  rfl

variable (hv : ∀ v, (cfg.backend v).Lawful)

/-- The writer is gone from the world and its file is the same on both sides. -/
theorem Sim.detach (h : Sim cfg s t) {r : Ref} {wr : Writer} (hw : (s.heap r).writer = some wr)
    {d : σ} (hp : (cfg.backend (s.heap r).vfs).look d wr.path =
      (cfg.backend (s.heap r).vfs).look (t.disk (s.heap r).vfs) wr.path)
    (hq : ∀ q, q ≠ wr.path → (cfg.backend (s.heap r).vfs).look d q =
      (cfg.backend (s.heap r).vfs).look (s.disk (s.heap r).vfs) q) :
    Sim cfg ((s.setWriter r none).setDisk (s.heap r).vfs d) t := by
  have hpath := (h.owned r wr hw).1
  have hself : WriterAt s r (s.heap r).vfs (s.heap r).path := ⟨wr, hw, rfl, hpath⟩
  rw [hpath] at hp hq
  have hsim := h.setWriter (r := r) none (d := d) (e := t.disk (s.heap r).vfs) (by simp)
    (h.bound r wr hw) (h.streams r wr hw)
    (fun r' hr' hat => hr' (h.writerAt_unique hat hself)) (by simp) (fun _ => hp) hq
    (fun q _ => rfl)
  rwa [setDisk_self] at hsim

include hv in
theorem Sim.closeWriter (h : Sim cfg s t) (r : Ref) :
    ∃ s', cfg.closeWriter r s = .ok () s' ∧ Sim cfg s' t ∧ (s'.heap r).writer = none ∧
      ∀ r', r' ≠ r → s'.heap r' = s.heap r' := by
  cases hw : (s.heap r).writer with
  | none => exact ⟨s, closeWriter_idle cfg hw (h.idle r hw), h, hw, fun _ _ => rfl⟩
  | some wr =>
    obtain ⟨hpath, hwriterPath, howner⟩ := h.owned r wr hw
    have hholds := h.holds r wr hw
    obtain ⟨n, hlook, -, -, hdirty, hclean⟩ := hholds.shows
    rw [hpath] at hwriterPath howner
    rw [closeWriter_open cfg hw hwriterPath howner]
    have hheap : ∀ d, (((s.setWriter r none).setDisk (s.heap r).vfs d).heap r).writer = none ∧
        ∀ r', r' ≠ r → ((s.setWriter r none).setDisk (s.heap r).vfs d).heap r' = s.heap r' := by
      intro d
      exact ⟨setWriter_writer_self s r none, fun r' hr' => setWriter_heap_of_ne s r none hr'⟩
    by_cases hd : wr.dirty = true
    · obtain ⟨d, hwrite, hshows, hrest⟩ := (hv (s.heap r).vfs).write_leaf (s.disk (s.heap r).vfs)
        wr.path wr.bytes hholds.leaf hholds.writable
      refine ⟨(s.setWriter r none).setDisk (s.heap r).vfs d, ?_, ?_, hheap d⟩
      · rw [if_pos hd]
        exact call_ok hwrite
      · refine h.detach hw ?_ hrest
        rw [hshows, hlook, hdirty hd]
    · refine ⟨s.setWriter r none, ?_, ?_, ?_⟩
      · rw [if_neg hd]
        rfl
      · have hsim := h.detach hw (d := s.disk (s.heap r).vfs)
          (by rw [hclean (by simpa using hd), hlook]) fun q _ => rfl
        rwa [← setWriter_disk s r none, setDisk_self] at hsim
      · have hcells := hheap (s.disk (s.heap r).vfs)
        rwa [← setWriter_disk s r none, setDisk_self] at hcells

/-- No writers are opened on the way. -/
def Closing (s s' : World V σ) : Prop := ∀ r, s'.heap r = s.heap r ∨ (s'.heap r).writer = none

omit [DecidableEq V] in
theorem Closing.refl (s : World V σ) : Closing s s := fun _ => Or.inl rfl

omit [DecidableEq V] in
theorem Closing.writerAt {s s' : World V σ} (h : Closing s s') {r : Ref} {v : V} {p : Path}
    (hr : WriterAt s' r v p) : WriterAt s r v p := by
  rcases h r with heq | hnone
  · exact (writerAt_congr heq v p).mp hr
  · obtain ⟨wr, hw, -⟩ := hr
    rw [hnone] at hw
    cases hw

omit [DecidableEq V] in
theorem Closing.of_one {s s' : World V σ} {r : Ref} (hr : (s'.heap r).writer = none)
    (hother : ∀ r', r' ≠ r → s'.heap r' = s.heap r') : Closing s s' := by
  intro r'
  by_cases heq : r' = r
  · subst heq
    exact Or.inr hr
  · exact Or.inl (hother r' heq)

theorem closeConflictingWriter_none {r : Ref}
    (h : s.owners ((s.heap r).vfs, (s.heap r).path) = none) :
    cfg.closeConflictingWriter r s = .ok () s := by
  simp only [Config.closeConflictingWriter, Config.fidAt, run_bind, run_get, run_pure, h]

theorem closeConflictingWriter_some {r owner : Ref}
    (h : s.owners ((s.heap r).vfs, (s.heap r).path) = some owner) :
    cfg.closeConflictingWriter r s =
      (if owner ≠ r then cfg.closeWriter owner else pure () : Handler V σ Unit) s := by
  simp only [Config.closeConflictingWriter, Config.fidAt, run_bind, run_get, run_pure, h]

include hv in
/-- Afterwards no other fid has a writer on this fid's file. -/
theorem Sim.closeConflictingWriter (h : Sim cfg s t) (r : Ref) :
    ∃ s', cfg.closeConflictingWriter r s = .ok () s' ∧ Sim cfg s' t ∧ Closing s s' ∧
      s'.heap r = s.heap r ∧
      ∀ r', r' ≠ r → ¬ WriterAt s' r' (s.heap r).vfs (s.heap r).path := by
  have hnone : ∀ s', Sim cfg s' t → s'.owners ((s.heap r).vfs, (s.heap r).path) = none →
      ∀ r', ¬ WriterAt s' r' (s.heap r).vfs (s.heap r).path := by
    rintro s' hs' ho r' ⟨wr, hw, hvfs, hpath⟩
    have howned := (hs'.owned r' wr hw).2.2
    rw [hvfs, hpath, ho] at howned
    cases howned
  cases ho : s.owners ((s.heap r).vfs, (s.heap r).path) with
  | none =>
    exact ⟨s, closeConflictingWriter_none ho, h, Closing.refl s, rfl, fun r' _ => hnone s h ho r'⟩
  | some owner =>
    have hat := h.owner _ _ _ ho
    rw [closeConflictingWriter_some ho]
    by_cases hr : owner = r
    · refine ⟨s, ?_, h, Closing.refl s, rfl, ?_⟩
      · simp [hr]
        rfl
      · intro r' hr' hat'
        exact hr' ((h.writerAt_unique hat' hat).trans hr)
    · obtain ⟨s', hclose, hsim, hgone, hother⟩ := h.closeWriter hv owner
      refine ⟨s', ?_, hsim, Closing.of_one hgone hother, hother r (Ne.symm hr), ?_⟩
      · simpa [hr] using hclose
      · intro r' hr' hat'
        have heq := h.writerAt_unique ((Closing.of_one hgone hother).writerAt hat') hat
        subst heq
        obtain ⟨wr, hw, -⟩ := hat'
        rw [hgone] at hw
        cases hw

include hv in
/-- A call that stays clear of open writers does the same on both sides. -/
theorem Sim.call (h : Sim cfg s t) (v : V) (c : Call)
    (hclear : ∀ p ∈ c.replaced, ∀ r q, WriterAt s r v q → ¬ p <+: q) :
    (∃ e e', (cfg.backend v).apply (s.disk v) c = .error e ∧
        (cfg.backend v).apply (t.disk v) c = .error e') ∨
      ∃ d d', (cfg.backend v).apply (s.disk v) c = .ok d ∧
        (cfg.backend v).apply (t.disk v) c = .ok d' ∧ Sim cfg (s.setDisk v d) (t.setDisk v d') := by
  have hframe := (hv v).frame (fun p => ∃ r, WriterAt s r v p) (s.disk v) (t.disk v) c
    (fun p hp q ⟨r, hr⟩ => hclear p hp r q hr) (h.agree v)
  cases hs : (cfg.backend v).apply (s.disk v) c with
  | error e =>
    cases ht : (cfg.backend v).apply (t.disk v) c with
    | error e' => exact Or.inl ⟨e, e', rfl, rfl⟩
    | ok d' =>
      rw [hs, ht] at hframe
      exact hframe.elim
  | ok d =>
    cases ht : (cfg.backend v).apply (t.disk v) c with
    | error e' =>
      rw [hs, ht] at hframe
      exact hframe.elim
    | ok d' =>
      rw [hs, ht] at hframe
      refine Or.inr ⟨d, d', rfl, rfl, h.setDisk v ?_ ?_⟩
      · intro r wr hw hvfs
        have hat : WriterAt s r v wr.path := ⟨wr, hw, hvfs, rfl⟩
        obtain ⟨hleaf, hleaf'⟩ := h.leaf_plain hat
        have hkeep := (hv v).keep (s.disk v) c d wr.path hs hleaf
          fun p hp => hclear p hp r wr.path hat
        have hkeep' := (hv v).keep (t.disk v) c d' wr.path ht hleaf'
          fun p hp => hclear p hp r wr.path hat
        exact (hvfs ▸ h.holds r wr hw).congr hkeep hkeep'
      · intro p hp
        exact hframe.1 p fun ⟨r, hr⟩ => hp r hr

/-- A fid number is bound to the object. -/
def Bound (w : World V σ) (r : Ref) : Prop :=
  ∃ cid c fid, w.conns.get cid = some c ∧ c.fids.get fid = some r

omit [DecidableEq V] in
theorem Sim.bound_of_conns (h : Sim cfg s t) {s' : World V σ} (h' : Sim cfg s' t) {r : Ref}
    (hr : Bound s r) : Bound s' r := by
  unfold Bound
  rw [h'.conns, ← h.conns]
  exact hr

/-- A new writer on a file no fid has a writer on; both sides show the same there. -/
theorem Sim.attach (h : Sim cfg s t) {r : Ref} (hr : Bound s r)
    (hoffers : cfg.openWrite (s.heap r).vfs = true) (bytes : List UInt8) {n : Node}
    (hfree : ∀ r', ¬ WriterAt s r' (s.heap r).vfs (s.heap r).path)
    (hwritable : (cfg.backend (s.heap r).vfs).isWritablePath (s.heap r).path = true)
    (hlook : (cfg.backend (s.heap r).vfs).look (s.disk (s.heap r).vfs) (s.heap r).path =
      .ok (some n)) (hn : n.isFolder = false) (hbytes : n.bytes = bytes) :
    Sim cfg (s.setWriter r (some ⟨(s.heap r).path, bytes, false⟩)) t := by
  have hplain := h.same _ _ hfree
  rw [hlook] at hplain
  have hholds : Holds (cfg.backend (s.heap r).vfs) (s.disk (s.heap r).vfs)
      (t.disk (s.heap r).vfs) ⟨(s.heap r).path, bytes, false⟩ :=
    ⟨hwritable, Backend.isLeaf_of_look hlook hn, n, hplain.symm, hn, hbytes,
      fun hd => absurd hd (by simp), fun _ => hlook⟩
  have hsim := h.setWriter (r := r) (some ⟨(s.heap r).path, bytes, false⟩)
    (d := s.disk (s.heap r).vfs) (e := t.disk (s.heap r).vfs) (by simp) hr hoffers
    (fun r' _ => hfree r') (by simpa using hholds) (by simp) (fun q _ => rfl) (fun q _ => rfl)
  rw [setDisk_self] at hsim
  rwa [← setWriter_disk s r (some ⟨(s.heap r).path, bytes, false⟩), setDisk_self] at hsim

/-- What `openWriter` does once the writers of the file are closed. -/
def Config.openAt (cfg : Config V σ) (r : Ref) (v : V) (p : Path) (append : Bool) :
    Handler V σ Bool := do
  let writer ← cfg.openWriteAt v p append
  Config.modifyFid r fun f => { f with writer := some writer, writerPath := some f.path }
  modify fun w => { w with owners := Function.update w.owners (v, p) (some r) }
  return true

include hv in
theorem Sim.openWriter (h : Sim cfg s t) (r : Ref) (append : Bool)
    (hoffers : cfg.openWrite (s.heap r).vfs = true) :
    ∃ s', cfg.openWriter r append s = cfg.openAt r (s.heap r).vfs (s.heap r).path append s' ∧
      Sim cfg s' t ∧ Closing s s' ∧ (s'.heap r).writer = none ∧
      ∀ r', ¬ WriterAt s' r' (s.heap r).vfs (s.heap r).path := by
  obtain ⟨s₁, hrun₁, hsim₁, hclosing₁, hcell₁, hother₁⟩ := h.closeConflictingWriter hv r
  obtain ⟨s₂, hrun₂, hsim₂, hgone₂, hcells₂⟩ := hsim₁.closeWriter hv r
  have hclosing₂ : Closing s₁ s₂ := Closing.of_one hgone₂ hcells₂
  refine ⟨s₂, ?_, hsim₂, ?_, hgone₂, ?_⟩
  · unfold Config.openWriter
    rw [bind_ok (fidAt_eq r s), if_pos hoffers, bind_ok hrun₁, bind_ok hrun₂]
    rfl
  · intro r'
    by_cases hr : r' = r
    · subst hr
      exact Or.inr hgone₂
    · rw [hcells₂ r' hr]
      exact hclosing₁ r'
  · intro r' hat
    by_cases hr : r' = r
    · subst hr
      obtain ⟨wr, hw, -⟩ := hat
      rw [hgone₂] at hw
      cases hw
    · exact hother₁ r' hr (hclosing₂.writerAt hat)

theorem openAt_ok {r : Ref} {append : Bool} {wr : Writer} {s' : World V σ}
    (h : cfg.openWriteAt (s.heap r).vfs (s.heap r).path append s = .ok wr s')
    (hcell : s'.heap r = s.heap r) :
    cfg.openAt r (s.heap r).vfs (s.heap r).path append s = .ok true (s'.setWriter r (some wr)) := by
  unfold Config.openAt
  rw [bind_ok h, bind_ok (modifyFid_eq r _ s')]
  simp only [World.setWriter, ← hcell]
  rfl

theorem openAt_error {r : Ref} {v : V} {p : Path} {append : Bool} {e : Fault} {s' : World V σ}
    (h : cfg.openWriteAt v p append s = .error e s') : cfg.openAt r v p append s = .error e s' :=
  bind_error h

include hv in
/-- Opening for append: the plain side does nothing, and a file that can be written gets
a writer. -/
theorem Sim.openWriter_append (h : Sim cfg s t) {r : Ref} (hr : Bound s r)
    (hoffers : cfg.openWrite (s.heap r).vfs = true) :
    ∃ s', Sim cfg s' t ∧ (∀ r', r' ≠ r → s'.heap r' = s.heap r' ∨ (s'.heap r').writer = none) ∧
      ((∃ wr, cfg.openWriter r true s = .ok true s' ∧ (s'.heap r).writer = some wr) ∨
        ∃ e, cfg.openWriter r true s = .error e s' ∧ (s'.heap r).writer = none ∧
          ((cfg.backend (s.heap r).vfs).isWritablePath (s.heap r).path = false ∨
            (cfg.backend (s.heap r).vfs).isLeaf (s'.disk (s.heap r).vfs) (s.heap r).path =
              false)) := by
  obtain ⟨s₁, hrun, hsim, hclosing, hgone, hfree⟩ := h.openWriter hv r true hoffers
  have hpath : (s₁.heap r).path = (s.heap r).path := (hsim.path r).trans (h.path r).symm
  have hvfs : (s₁.heap r).vfs = (s.heap r).vfs := (hsim.vfs r).trans (h.vfs r).symm
  rw [← hpath, ← hvfs] at hrun hfree ⊢
  rw [← hvfs] at hoffers
  rw [hrun]
  by_cases hwritable : (cfg.backend (s₁.heap r).vfs).isWritablePath (s₁.heap r).path = true
  · have hopen : cfg.openWriteAt (s₁.heap r).vfs (s₁.heap r).path true s₁ =
        (do return ⟨(s₁.heap r).path, ← cfg.readBlob (s₁.heap r).vfs (s₁.heap r).path, false⟩ :
          Handler V σ Writer) s₁ := by
      simp only [Config.openWriteAt, if_true, hwritable]
    by_cases hleaf : (cfg.backend (s₁.heap r).vfs).isLeaf (s₁.disk (s₁.heap r).vfs)
        (s₁.heap r).path = true
    · obtain ⟨n, hlook, hn⟩ := (Backend.isLeaf_iff _ _).mp hleaf
      have hread : cfg.readBlob (s₁.heap r).vfs (s₁.heap r).path s₁ = .ok n.bytes s₁ :=
        readBlob_ok (Backend.readBlob_of_look (hv _) hlook hn)
      rw [bind_ok hread] at hopen
      refine ⟨s₁.setWriter r (some ⟨(s₁.heap r).path, n.bytes, false⟩), ?_, ?_,
        Or.inl ⟨⟨(s₁.heap r).path, n.bytes, false⟩, ?_, setWriter_writer_self ..⟩⟩
      · exact hsim.attach (h.bound_of_conns hsim hr) hoffers n.bytes hfree hwritable hlook hn rfl
      · intro r' hr'
        rw [setWriter_heap_of_ne s₁ r _ hr']
        exact hclosing r'
      · exact openAt_ok hopen rfl
    · have hnot : ∀ bytes, (cfg.backend (s₁.heap r).vfs).readBlob (s₁.disk (s₁.heap r).vfs)
          (s₁.heap r).path ≠ .ok bytes := by
        intro bytes hread
        exact hleaf (((hv _).readBlob_leaf _ _).mp ⟨bytes, hread⟩)
      cases hread : (cfg.backend (s₁.heap r).vfs).readBlob (s₁.disk (s₁.heap r).vfs)
          (s₁.heap r).path with
      | ok bytes => exact absurd hread (hnot bytes)
      | error e =>
        rw [bind_error (readBlob_error hread)] at hopen
        exact ⟨s₁, hsim, fun r' _ => hclosing r', Or.inr ⟨e, openAt_error hopen, hgone,
          Or.inr (by simpa using hleaf)⟩⟩
  · have hopen : cfg.openWriteAt (s₁.heap r).vfs (s₁.heap r).path true s₁ =
        .error (.code .erofs) s₁ := by
      simp only [Config.openWriteAt, if_true, hwritable]
      rfl
    exact ⟨s₁, hsim, fun r' _ => hclosing r', Or.inr ⟨_, openAt_error hopen, hgone,
      Or.inl (by simpa using hwritable)⟩⟩

include hv in
/-- Opening with truncation against writing the empty file. -/
theorem Sim.openWriter_truncate (h : Sim cfg s t) {r : Ref} (hr : Bound s r)
    (hoffers : cfg.openWrite (s.heap r).vfs = true)
    (hshown : (s.heap r).path ≠ [] ∨
      (cfg.backend (s.heap r).vfs).isLeaf (t.disk (s.heap r).vfs) (s.heap r).path = true)
    (hbelow : ∀ r' q, r' ≠ r → WriterAt s r' (s.heap r).vfs q → q ≠ (s.heap r).path →
      ¬ (s.heap r).path <+: q) :
    ∃ s' t', Sim cfg s' t' ∧
      ((cfg.openWriter r false s = .ok true s' ∧
          cfg.plain.writeBytes (s.heap r).vfs (s.heap r).path [] t = .ok () t') ∨
        ∃ e e', cfg.openWriter r false s = .error e s' ∧
          cfg.plain.writeBytes (s.heap r).vfs (s.heap r).path [] t = .error e' t') := by
  obtain ⟨s₁, hrun, hsim, hclosing, hgone, hfree⟩ := h.openWriter hv r false hoffers
  have hpath : (s₁.heap r).path = (s.heap r).path := (hsim.path r).trans (h.path r).symm
  have hvfs : (s₁.heap r).vfs = (s.heap r).vfs := (hsim.vfs r).trans (h.vfs r).symm
  have hclear : ∀ p ∈ (Call.write (s₁.heap r).path (.file [])).replaced, ∀ r' q,
      WriterAt s₁ r' (s₁.heap r).vfs q → ¬ p <+: q := by
    intro p hp r' q hat
    obtain rfl : p = (s₁.heap r).path := by simpa [Call.replaced] using hp
    by_cases hq : q = (s₁.heap r).path
    · rw [hpath] at hq
      rw [hvfs, hq] at hat
      exact absurd hat (hfree r')
    · have hne : r' ≠ r := by
        rintro rfl
        obtain ⟨wr, hw, -⟩ := hat
        rw [hgone] at hw
        cases hw
      rw [hpath] at hq ⊢
      rw [hvfs] at hat
      exact hbelow r' q hne (hclosing.writerAt hat) hq
  rw [← hpath, ← hvfs] at hrun hfree hshown ⊢
  rw [← hvfs] at hoffers
  rw [hrun]
  rcases hsim.call hv (s₁.heap r).vfs (.write (s₁.heap r).path (.file [])) hclear with
    ⟨e, e', hs, ht⟩ | ⟨d, d', hs, ht, hsim'⟩
  · have hopen : cfg.openWriteAt (s₁.heap r).vfs (s₁.heap r).path false s₁ = .error e s₁ :=
      bind_error (call_error hs)
    exact ⟨s₁, t, hsim, Or.inr ⟨e, e', openAt_error hopen, call_error ht⟩⟩
  · have hopen : cfg.openWriteAt (s₁.heap r).vfs (s₁.heap r).path false s₁ =
        .ok ⟨(s₁.heap r).path, [], false⟩ (s₁.setDisk (s₁.heap r).vfs d) :=
      bind_ok (call_ok hs)
    have hwritable : (cfg.backend (s₁.heap r).vfs).isWritablePath (s₁.heap r).path = true := by
      by_contra hnot
      obtain ⟨e, hrefused⟩ := (hv (s₁.heap r).vfs).write_refused (s₁.disk (s₁.heap r).vfs)
        (s₁.heap r).path [] (by simpa using hnot)
      have hs' : (cfg.backend (s₁.heap r).vfs).write (s₁.disk (s₁.heap r).vfs) (s₁.heap r).path
        (.file []) = .ok d := hs
      rw [hrefused] at hs'
      cases hs'
    have hlook : (cfg.backend (s₁.heap r).vfs).look d (s₁.heap r).path =
        .ok (some (.file [])) := by
      rcases hshown with hroot | hleaf
      · exact (hv (s₁.heap r).vfs).write_shows _ _ _ _ hroot hs
      · rw [← hsim.isLeaf_eq] at hleaf
        obtain ⟨d₁, hwrite, hshow, -⟩ := (hv (s₁.heap r).vfs).write_leaf _ _ [] hleaf hwritable
        cases hs.symm.trans hwrite
        exact hshow
    refine ⟨_, _, ?_, Or.inl ⟨openAt_ok hopen rfl, call_ok ht⟩⟩
    refine hsim'.attach (n := .file []) (h.bound_of_conns hsim hr) hoffers
      [] hfree hwritable ?_ rfl rfl
    simpa using hlook

/-- A fid that has a writer gets another one on the same file. -/
theorem Sim.modifyWriter (h : Sim cfg s t) {r : Ref} {wr : Writer}
    (hw : (s.heap r).writer = some wr) (wr' : Writer) :
    (Config.modifyFid r fun f => { f with writer := some wr' } : Handler V σ Unit) s =
      .ok () (s.setWriter r (some wr')) := by
  obtain ⟨hpath, hwriterPath, howner⟩ := h.owned r wr hw
  rw [hpath] at hwriterPath howner
  rw [modifyFid_eq]
  simp only [World.setWriter, Option.map_some, ← hwriterPath, ← howner, Function.update_eq_self]

theorem modifyFid_setWriter (r : Ref) (wr wr' : Writer) (v : V) (d : σ) :
    (Config.modifyFid r fun f => { f with writer := some wr' } : Handler V σ Unit)
      ((s.setWriter r (some wr)).setDisk v d) =
      .ok () ((s.setWriter r (some wr')).setDisk v d) := by
  rw [modifyFid_eq]
  simp only [World.setDisk, World.setWriter, Option.map_some, Function.update_self,
    Function.update_idem]

include hv in
/-- The world with new bytes in a fid's writer, saved or not, and with them in the plain
backend. -/
theorem Sim.newBytes (h : Sim cfg s t) {r : Ref} {wr : Writer}
    (hw : (s.heap r).writer = some wr) (bytes : List UInt8) :
    ∃ d d', (cfg.backend (s.heap r).vfs).write (s.disk (s.heap r).vfs) wr.path (.file bytes) =
        .ok d ∧
      (cfg.backend (s.heap r).vfs).write (t.disk (s.heap r).vfs) wr.path (.file bytes) = .ok d' ∧
      Sim cfg (s.setWriter r (some ⟨wr.path, bytes, true⟩)) (t.setDisk (s.heap r).vfs d') ∧
      Sim cfg ((s.setWriter r (some ⟨wr.path, bytes, false⟩)).setDisk (s.heap r).vfs d)
        (t.setDisk (s.heap r).vfs d') := by
  have hholds := h.holds r wr hw
  have hpath := (h.owned r wr hw).1
  have hself : WriterAt s r (s.heap r).vfs (s.heap r).path := ⟨wr, hw, rfl, hpath⟩
  have hfree : ∀ r', r' ≠ r → ¬ WriterAt s r' (s.heap r).vfs (s.heap r).path :=
    fun r' hr' hat => hr' (h.writerAt_unique hat hself)
  obtain ⟨d, hd, hshow, hrest⟩ := (hv (s.heap r).vfs).write_leaf (s.disk (s.heap r).vfs)
    wr.path bytes hholds.leaf hholds.writable
  obtain ⟨d', hd', hshow', hrest'⟩ := (hv (s.heap r).vfs).write_leaf (t.disk (s.heap r).vfs)
    wr.path bytes (hpath ▸ (h.leaf_plain hself).2) hholds.writable
  refine ⟨d, d', hd, hd', ?_, ?_⟩
  · have hnew : Holds (cfg.backend (s.heap r).vfs) (s.disk (s.heap r).vfs) d'
        ⟨wr.path, bytes, true⟩ :=
      ⟨hholds.writable, hholds.leaf, .file bytes, hshow', rfl, rfl, fun _ => rfl,
        fun hclean => absurd hclean (by simp)⟩
    rw [hpath] at hrest'
    have hsim := h.setWriter (r := r) (some ⟨wr.path, bytes, true⟩)
      (d := s.disk (s.heap r).vfs) (e := d') (by simpa using hpath) (h.bound r wr hw)
      (h.streams r wr hw) hfree
      (by simpa using hnew) (by simp) (fun q _ => rfl) hrest'
    rwa [← setWriter_disk s r (some ⟨wr.path, bytes, true⟩), setDisk_self] at hsim
  · have hnew : Holds (cfg.backend (s.heap r).vfs) d d' ⟨wr.path, bytes, false⟩ :=
      ⟨hholds.writable, Backend.isLeaf_of_look hshow rfl, .file bytes, hshow', rfl, rfl,
        fun hdirty => absurd hdirty (by simp), fun _ => hshow⟩
    rw [hpath] at hrest hrest'
    exact h.setWriter (r := r) (some ⟨wr.path, bytes, false⟩) (by simpa using hpath)
      (h.bound r wr hw) (h.streams r wr hw) hfree (by simpa using hnew) (by simp) hrest hrest'

include hv in
/-- New bytes through an open writer against writing them at once. -/
theorem Sim.replaceBytes (h : Sim cfg s t) {r : Ref} {wr : Writer}
    (hw : (s.heap r).writer = some wr) (bytes : List UInt8) :
    ∃ s' t', Sim cfg s' t' ∧ cfg.replaceBytes r (s.heap r).vfs wr bytes s = .ok () s' ∧
      cfg.plain.writeBytes (s.heap r).vfs (s.heap r).path bytes t = .ok () t' := by
  obtain ⟨d, d', hd, hd', hunsaved, hsaved⟩ := h.newBytes hv hw bytes
  have hplain : cfg.plain.writeBytes (s.heap r).vfs (s.heap r).path bytes t =
      .ok () (t.setDisk (s.heap r).vfs d') := by
    rw [← (h.owned r wr hw).1]
    exact call_ok hd'
  have hrun : cfg.replaceBytes r (s.heap r).vfs wr bytes s =
      (if cfg.eager (s.heap r).vfs ⟨wr.path, bytes, true⟩ then
        cfg.save r (s.heap r).vfs ⟨wr.path, bytes, true⟩ else pure () : Handler V σ Unit)
        (s.setWriter r (some ⟨wr.path, bytes, true⟩)) :=
    bind_ok (h.modifyWriter hw ⟨wr.path, bytes, true⟩)
  by_cases heager : cfg.eager (s.heap r).vfs ⟨wr.path, bytes, true⟩ = true
  · refine ⟨_, _, hsaved, ?_, hplain⟩
    rw [hrun, if_pos heager]
    have hwrite : cfg.writeBytes (s.heap r).vfs wr.path bytes
        (s.setWriter r (some ⟨wr.path, bytes, true⟩)) =
        .ok () ((s.setWriter r (some ⟨wr.path, bytes, true⟩)).setDisk (s.heap r).vfs d) :=
      call_ok hd
    exact (bind_ok hwrite).trans (modifyFid_setWriter r _ _ _ d)
  · refine ⟨_, _, hunsaved, ?_, hplain⟩
    rw [hrun, if_neg heager]
    rfl

include hv in
/-- Flushing changes nothing the plain side does not have. -/
theorem Sim.flush (h : Sim cfg s t) {r : Ref} {wr : Writer} (hw : (s.heap r).writer = some wr) :
    ∃ s', Sim cfg s' t ∧ cfg.flush r (s.heap r).vfs wr s = .ok () s' := by
  unfold Config.flush
  by_cases hd : wr.dirty = true
  · have hholds := h.holds r wr hw
    have hpath := (h.owned r wr hw).1
    have hself : WriterAt s r (s.heap r).vfs (s.heap r).path := ⟨wr, hw, rfl, hpath⟩
    obtain ⟨n, hlook, -, -, hdirty, -⟩ := hholds.shows
    obtain ⟨d, hwrite, hshow, hrest⟩ := (hv (s.heap r).vfs).write_leaf (s.disk (s.heap r).vfs)
      wr.path wr.bytes hholds.leaf hholds.writable
    rw [hdirty hd] at hlook
    have hnew : Holds (cfg.backend (s.heap r).vfs) d (t.disk (s.heap r).vfs)
        { wr with dirty := false } :=
      ⟨hholds.writable, Backend.isLeaf_of_look hshow rfl, .file wr.bytes, hlook, rfl, rfl,
        fun hfalse => absurd hfalse (by simp), fun _ => hshow⟩
    rw [hpath] at hrest
    have hsim := h.setWriter (r := r) (some { wr with dirty := false })
      (e := t.disk (s.heap r).vfs) (by simpa using hpath) (h.bound r wr hw) (h.streams r wr hw)
      (fun r' hr' hat => hr' (h.writerAt_unique hat hself)) (by simpa using hnew) (by simp)
      hrest (fun q _ => rfl)
    rw [setDisk_self] at hsim
    refine ⟨_, hsim, ?_⟩
    rw [if_pos hd]
    have hcall : cfg.writeBytes (s.heap r).vfs wr.path wr.bytes s =
        .ok () (s.setDisk (s.heap r).vfs d) := call_ok hwrite
    have hmark := h.modifyWriter hw { wr with dirty := false }
    rw [modifyFid_eq] at hmark
    refine (bind_ok hcall).trans ?_
    rw [modifyFid_eq]
    have hworld := congrArg after hmark
    exact congrArg (fun w : World V σ => EStateM.Result.ok () (w.setDisk (s.heap r).vfs d)) hworld
  · rw [if_neg hd]
    exact ⟨s, h, rfl⟩

/-- The object a fid number of a connection is bound to. -/
def ref (w : World V σ) (cid fid : ℕ) : Option Ref := (w.conns.get cid).bind fun c => c.fids.get fid

omit [DecidableEq V] in
theorem bound_of_ref {w : World V σ} {cid fid : ℕ} {r : Ref} (h : ref w cid fid = some r) :
    Bound w r := by
  obtain ⟨c, hc, hf⟩ := Option.bind_eq_some_iff.mp h
  exact ⟨cid, c, fid, hc, hf⟩

def World.setConns (w : World V σ) (conns : JsMap ℕ Conn) : World V σ :=
  { w with conns := conns }

/-- The world with one more fid object. -/
def World.push (w : World V σ) (f : Fid V) : World V σ :=
  { w with heap := Function.update w.heap w.next f, next := w.next + 1 }

omit [DecidableEq V] in
/-- The tables of fid numbers changed alike; a fid with a writer stays bound. -/
theorem Sim.setConns (h : Sim cfg s t) (conns : JsMap ℕ Conn)
    (hbound : ∀ r wr, (s.heap r).writer = some wr →
      ∃ cid c fid, conns.get cid = some c ∧ c.fids.get fid = some r)
    (halloc : ∀ cid c fid r, conns.get cid = some c → c.fids.get fid = some r → r < s.next) :
    Sim cfg (s.setConns conns) (t.setConns conns) :=
  { h with conns := rfl, allocated := halloc, bound := hbound }

omit [DecidableEq V] in
theorem heap_cases (w : World V σ) (f : Fid V) (r : Ref) :
    r = w.next ∧ Function.update w.heap w.next f r = f ∨
      r ≠ w.next ∧ Function.update w.heap w.next f r = w.heap r := by
  by_cases hr : r = w.next
  · subst hr
    exact Or.inl ⟨rfl, Function.update_self ..⟩
  · exact Or.inr ⟨hr, Function.update_of_ne hr ..⟩

omit [DecidableEq V] in
/-- A new fid object on both sides. -/
theorem Sim.alloc (h : Sim cfg s t) (f : Fid V) (hf : f.writer = none) (hfp : f.writerPath = none) :
    Sim cfg (s.push f) (t.push f) := by
  have hold : ∀ r wr, (Function.update s.heap s.next f r).writer = some wr →
      r ≠ s.next ∧ Function.update s.heap s.next f r = s.heap r := by
    intro r wr hw
    rcases heap_cases s f r with ⟨-, hnew⟩ | hother
    · rw [hnew, hf] at hw
      cases hw
    · exact hother
  have hwriterAt : ∀ r v p, WriterAt (s.push f) r v p ↔ WriterAt s r v p := by
    intro r v p
    rcases heap_cases s f r with ⟨rfl, hnew⟩ | ⟨-, hother⟩
    · simp only [WriterAt, World.push, hnew, hf, h.fresh s.next (Nat.le_refl _), reduceCtorEq,
        false_and, exists_false]
    · exact writerAt_congr hother v p
  refine
    { conns := h.conns
      next := congrArg (· + 1) h.next
      path := ?_
      vfs := ?_
      plain := ?_
      unowned := h.unowned
      fresh := ?_
      allocated := ?_
      idle := ?_
      owned := ?_
      owner := fun v p r ho => (hwriterAt r v p).mpr (h.owner v p r ho)
      bound := ?_
      streams := ?_
      holds := ?_
      same := fun v p hp => h.same v p fun r hr => hp r ((hwriterAt r v p).mpr hr) }
  · intro r
    simp only [World.push, ← h.next]
    by_cases hr : r = s.next
    · simp [hr]
    · simpa [Function.update_of_ne hr] using h.path r
  · intro r
    simp only [World.push, ← h.next]
    by_cases hr : r = s.next
    · simp [hr]
    · simpa [Function.update_of_ne hr] using h.vfs r
  · intro r
    rcases heap_cases t f r with ⟨-, hnew⟩ | ⟨-, hother⟩
    · simp only [World.push, hnew]
      exact ⟨hf, hfp⟩
    · simp only [World.push, hother]
      exact h.plain r
  · intro r hr
    have hnext : s.next ≤ r := Nat.le_of_succ_le hr
    rcases heap_cases s f r with ⟨-, hnew⟩ | ⟨-, hother⟩
    · simp only [World.push, hnew, hf]
    · simp only [World.push, hother]
      exact h.fresh r hnext
  · intro cid c fid r hc hfid
    exact Nat.lt_succ_of_lt (h.allocated cid c fid r hc hfid)
  · intro r hr
    rcases heap_cases s f r with ⟨-, hnew⟩ | ⟨-, hother⟩
    · simp only [World.push, hnew, hfp]
    · simp only [World.push, hother] at hr ⊢
      exact h.idle r hr
  · intro r wr hw
    have hr := (hold r wr hw).2
    simp only [World.push, hr] at hw ⊢
    exact h.owned r wr hw
  · intro r wr hw
    have hr := (hold r wr hw).2
    simp only [World.push, hr] at hw
    exact h.bound r wr hw
  · intro r wr hw
    have hr := (hold r wr hw).2
    simp only [World.push, hr] at hw ⊢
    exact h.streams r wr hw
  · intro r wr hw
    have hr := (hold r wr hw).2
    simp only [World.push, hr] at hw ⊢
    exact h.holds r wr hw

omit [DecidableEq V] in
theorem conn_found (k : Config V σ) {w : World V σ} {cid : ℕ} {c : Conn}
    (h : w.conns.get cid = some c) : k.conn cid w = .ok c w := by
  simp only [Config.conn, run_bind, run_get, h]
  rfl

omit [DecidableEq V] in
theorem conn_new (k : Config V σ) {w : World V σ} {cid : ℕ} (h : w.conns.get cid = none) :
    k.conn cid w = .ok ⟨k.maxMsize, JsMap.empty⟩
      (w.setConns (w.conns.set cid ⟨k.maxMsize, JsMap.empty⟩)) := by
  simp only [Config.conn, run_bind, run_get, h]
  rfl

omit [DecidableEq V] in
/-- The connection is there afterwards, on both sides the same. -/
theorem Sim.conn (h : Sim cfg s t) (cid : ℕ) :
    ∃ c s' t', cfg.conn cid s = .ok c s' ∧ cfg.plain.conn cid t = .ok c t' ∧ Sim cfg s' t' ∧
      s'.conns.get cid = some c ∧ s'.heap = s.heap ∧ s'.next = s.next ∧ s'.disk = s.disk ∧
      (∀ fid, c.fids.get fid = ref s cid fid) := by
  have hconns := h.conns
  cases hc : s.conns.get cid with
  | some c =>
    refine ⟨c, s, t, conn_found cfg hc, conn_found cfg.plain (hconns ▸ hc), h, hc, rfl, rfl, rfl,
      fun fid => ?_⟩
    simp [ref, hc]
  | none =>
    refine ⟨⟨cfg.maxMsize, JsMap.empty⟩,
      s.setConns (s.conns.set cid ⟨cfg.maxMsize, JsMap.empty⟩),
      t.setConns (s.conns.set cid ⟨cfg.maxMsize, JsMap.empty⟩), conn_new cfg hc, ?_,
      h.setConns _ ?_ ?_, JsMap.get_set_self .., rfl, rfl, rfl, fun fid => by simp [ref, hc]⟩
    · rw [hconns]
      exact conn_new cfg.plain (hconns ▸ hc)
    · intro r wr hw
      obtain ⟨cid', c', fid, hc', hfid⟩ := h.bound r wr hw
      have hne : cid' ≠ cid := by
        rintro rfl
        rw [hc] at hc'
        cases hc'
      refine ⟨cid', c', fid, ?_, hfid⟩
      rw [JsMap.get_set_of_ne _ _ hne]
      exact hc'
    · intro cid' c' fid r hc' hfid
      by_cases hne : cid' = cid
      · subst hne
        rw [JsMap.get_set_self] at hc'
        cases hc'
        simp at hfid
      · rw [JsMap.get_set_of_ne _ _ hne] at hc'
        exact h.allocated cid' c' fid r hc' hfid

omit [DecidableEq V] in
/-- A bound fid number is found on both sides; otherwise both throw. -/
theorem Sim.getFid (h : Sim cfg s t) (cid fid : ℕ) :
    (∃ r, ref s cid fid = some r ∧ cfg.getFid cid fid s = .ok r s ∧
        cfg.plain.getFid cid fid t = .ok r t) ∨
      ∃ e s' t', cfg.getFid cid fid s = .error e s' ∧ cfg.plain.getFid cid fid t = .error e t' ∧
        Sim cfg s' t' := by
  obtain ⟨c, s', t', hs, ht, hsim, -, -, -, -, hfids⟩ := h.conn cid
  cases hfid : c.fids.get fid with
  | none =>
    refine Or.inr ⟨.p9errno E.badf, s', t', ?_, ?_, hsim⟩
    · refine (bind_ok hs).trans ?_
      rw [hfid]
      rfl
    · refine (bind_ok ht).trans ?_
      rw [hfid]
      rfl
  | some r =>
    have hr : ref s cid fid = some r := (hfids fid).symm.trans hfid
    obtain ⟨c', hc', -⟩ := Option.bind_eq_some_iff.mp hr
    -- the connection was there, so `conn` changed nothing
    have hs' := conn_found cfg hc'
    have ht' := conn_found cfg.plain (h.conns ▸ hc')
    have hget : c'.fids.get fid = some r := by
      simpa only [ref, hc', Option.bind_some] using hr
    refine Or.inl ⟨r, hr, (bind_ok hs').trans ?_, (bind_ok ht').trans ?_⟩
    · rw [hget]
      rfl
    · rw [hget]
      rfl

omit [DecidableEq V] in
/-- Changing one entry of a connection's table, whose old object has no writer. -/
theorem Sim.setFids (h : Sim cfg s t) {cid : ℕ} {c k : Conn} (hc : s.conns.get cid = some c)
    (hold : ∀ fid r wr, c.fids.get fid = some r → (s.heap r).writer = some wr →
      ∃ fid', k.fids.get fid' = some r)
    (hnew : ∀ fid r, k.fids.get fid = some r → r < s.next) :
    Sim cfg (s.setConns (s.conns.set cid k)) (t.setConns (t.conns.set cid k)) := by
  rw [← h.conns]
  refine h.setConns _ ?_ ?_
  · intro r wr hw
    obtain ⟨cid₁, c₁, fid₁, hc₁, hfid₁⟩ := h.bound r wr hw
    by_cases hcid : cid₁ = cid
    · subst hcid
      cases hc.symm.trans hc₁
      obtain ⟨fid', hfid'⟩ := hold fid₁ r wr hfid₁ hw
      exact ⟨cid₁, k, fid', JsMap.get_set_self .., hfid'⟩
    · refine ⟨cid₁, c₁, fid₁, ?_, hfid₁⟩
      rw [JsMap.get_set_of_ne _ _ hcid]
      exact hc₁
  · intro cid₁ c₁ fid₁ r hc₁ hfid₁
    by_cases hcid : cid₁ = cid
    · subst hcid
      rw [JsMap.get_set_self] at hc₁
      cases hc₁
      exact hnew fid₁ r hfid₁
    · rw [JsMap.get_set_of_ne _ _ hcid] at hc₁
      exact h.allocated cid₁ c₁ fid₁ r hc₁ hfid₁

omit [DecidableEq V] in
theorem Sim.bindFid (h : Sim cfg s t) (cid fid : ℕ) (v : V) (p : Path)
    (hidle : ∀ r, ref s cid fid = some r → (s.heap r).writer = none) :
    ∃ s' t', cfg.bindFid cid fid v p s = .ok () s' ∧ cfg.plain.bindFid cid fid v p t = .ok () t' ∧
      Sim cfg s' t' := by
  obtain ⟨c, s₁, t₁, hs, ht, hsim, hc, hheap, hnext, -, hfids⟩ := h.conn cid
  have hpush := hsim.alloc ⟨p, v, false, none, none, none⟩ rfl rfl
  have hset := hpush.setFids (c := c)
    (k := { c with fids := c.fids.set fid s₁.next }) hc ?_ ?_
  · refine ⟨_, _, (bind_ok hs).trans rfl, (bind_ok ht).trans ?_, hset⟩
    rw [hsim.next]
    rfl
  · intro fid₁ r wr hfid₁ hw
    by_cases hfid : fid₁ = fid
    · subst hfid
      have hold := hidle r ((hfids fid₁).symm.trans hfid₁)
      rcases heap_cases s₁ ⟨p, v, false, none, none, none⟩ r with ⟨-, hnew⟩ | ⟨-, hother⟩
      · simp only [World.push, hnew] at hw
        cases hw
      · simp only [World.push, hother] at hw
        rw [hheap, hold] at hw
        cases hw
    · exact ⟨fid₁, by rw [JsMap.get_set_of_ne _ _ hfid]; exact hfid₁⟩
  · intro fid₁ r hfid₁
    by_cases hfid : fid₁ = fid
    · subst hfid
      rw [JsMap.get_set_self] at hfid₁
      cases hfid₁
      exact Nat.lt_succ_self _
    · rw [JsMap.get_set_of_ne _ _ hfid] at hfid₁
      exact Nat.lt_succ_of_lt (hsim.allocated cid c fid₁ r hc hfid₁)

omit [DecidableEq V] in
theorem Sim.dropFid (h : Sim cfg s t) (cid fid : ℕ)
    (hidle : ∀ r, ref s cid fid = some r → (s.heap r).writer = none) :
    ∃ s' t', cfg.dropFid cid fid s = .ok () s' ∧ cfg.plain.dropFid cid fid t = .ok () t' ∧
      Sim cfg s' t' := by
  obtain ⟨c, s₁, t₁, hs, ht, hsim, hc, hheap, -, -, hfids⟩ := h.conn cid
  have hset := hsim.setFids (c := c) (k := { c with fids := c.fids.delete fid }) hc
    ?_ ?_
  · exact ⟨_, _, (bind_ok hs).trans rfl, (bind_ok ht).trans rfl, hset⟩
  · intro fid₁ r wr hfid₁ hw
    have hfid : fid₁ ≠ fid := by
      rintro rfl
      rw [hheap, hidle r ((hfids fid₁).symm.trans hfid₁)] at hw
      cases hw
    exact ⟨fid₁, by rw [JsMap.get_delete_of_ne _ hfid]; exact hfid₁⟩
  · intro fid₁ r hfid₁
    by_cases hfid : fid₁ = fid
    · subst hfid
      rw [JsMap.get_delete_self] at hfid₁
      cases hfid₁
    · rw [JsMap.get_delete_of_ne _ hfid] at hfid₁
      exact hsim.allocated cid c fid₁ r hc hfid₁

end Steps

end NixWasm.NinepServer
