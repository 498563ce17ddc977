import NixWasm.NinepWritten

/-!
Fids and renames. A fid holds the path it was walked to, and a rename moves a path in
the backend. Of all the fids on the moved path or below it, only the one a Trename
names is given the new path; the others keep the old one.
-/
namespace NixWasm.NinepServer

open Unicode Vfs NinepCodec Effects Runs

variable {V σ : Type} [DecidableEq V]

/-- The move a request asks for in a world: the backend, the old and the new path. -/
def moves (w : World V σ) (cid : ℕ) : Body → Option (V × Path × Path)
  | .trename fid dfid name =>
    (ref w cid fid).bind fun r => (ref w cid dfid).bind fun d =>
      (joinName (w.heap d).path name).toOption.map fun dst =>
        ((w.heap r).vfs, (w.heap r).path, dst)
  | .trenameat olddirfid oldname newdirfid newname =>
    (ref w cid olddirfid).bind fun od => (ref w cid newdirfid).bind fun nd =>
      (joinName (w.heap od).path oldname).toOption.bind fun src =>
        (joinName (w.heap nd).path newname).toOption.map fun dst => ((w.heap od).vfs, src, dst)
  | _ => none

/-- The request is a Trename of this very fid object. -/
def Renames (w : World V σ) (cid : ℕ) (body : Body) (r : Ref) : Prop :=
  ∃ fid dfid name, body = .trename fid dfid name ∧ ref w cid fid = some r

omit [DecidableEq V] in
theorem Renames.unique {w : World V σ} {cid : ℕ} {body : Body} {r r' : Ref}
    (h : Renames w cid body r) (h' : Renames w cid body r') : r = r' := by
  obtain ⟨fid, dfid, name, rfl, hr⟩ := h
  obtain ⟨fid', dfid', name', heq, hr'⟩ := h'
  cases heq
  exact Option.some.inj (hr.symm.trans hr')

/-- A backend whose records name inodes: writing a file keeps its inode, and moving a
path carries the inodes at it and below it along. -/
structure KeepsInodes (b : Backend σ) : Prop where
  write : ∀ s p bytes t rec i, b.write s p (.file bytes) = .ok t →
    b.stat s p = .ok (some rec) → rec.id = some i →
    ∃ rec', b.stat t p = .ok (some rec') ∧ rec'.id = some i
  move : ∀ s src dst t rest rec i, b.move s src dst = .ok t → (src <+: dst → src = dst) →
    b.stat s (src ++ rest) = .ok (some rec) → rec.id = some i →
    ∃ rec', b.stat t (dst ++ rest) = .ok (some rec') ∧ rec'.id = some i

section Mounted
variable {o : MemVfs.Options} {s t : MemVfs.Mounted o}

/-- Two paths that lead to one node show the same inode. -/
theorem mounted_inode {p q : Path} {rec : VfsRecord} {id : Utf16}
    (hstat : (MemVfs.mounted o).stat s p = .ok (some rec)) (hid : rec.id = some id)
    (hsame : ∀ i, Hierarchy.follow (MemVfs.seen s.fs) .root (MemVfs.names p) = some i →
      MemVfs.Present s.fs i →
      Hierarchy.follow (MemVfs.seen t.fs) .root (MemVfs.names q) = some i ∧
        MemVfs.Present t.fs i) :
    ∃ rec', (MemVfs.mounted o).stat t q = .ok (some rec') ∧ rec'.id = some id := by
  obtain ⟨i, node, hi, hnode, rfl⟩ := MemVfs.mounted_stat_some.mp hstat
  have hthere : MemVfs.Present s.fs i := by
    rw [MemVfs.Present, hnode]
    rfl
  obtain ⟨hi', hthere'⟩ := hsame i hi hthere
  obtain ⟨node', hnode'⟩ := Option.isSome_iff_exists.mp hthere'
  exact ⟨_, MemVfs.mounted_stat_some.mpr ⟨i, node', hi', hnode', rfl⟩, hid⟩

theorem mounted_keepsInodes (o : MemVfs.Options) : KeepsInodes (MemVfs.mounted o) where
  write _ _ _ _ _ _ hwrite hstat hid :=
    mounted_inode hstat hid fun _ hi _ => MemVfs.mounted_write_id hwrite hi
  move _ _ _ _ _ _ _ hmove hbelow hstat hid :=
    mounted_inode hstat hid fun _ hi hthere => MemVfs.mounted_move_id hmove hbelow hi hthere

end Mounted

/-- The backend before a fid's path is moved: its writer has been closed. -/
def ClosedDisk (b : Backend σ) (f : Fid V) (s s' : σ) : Prop :=
  s' = s ∨ ∃ wr, f.writer = some wr ∧ b.write s wr.path (.file wr.bytes) = .ok s'

/-- A fid object and its path have been moved to the destination; the other fids
keep their paths. -/
structure Renamed (cfg : Config V σ) (w : World V σ) (r : Ref) (dst : Path) (w' : World V σ) :
    Prop where
  conns : w'.conns = w.conns
  path : (w'.heap r).path = dst
  idle : (w'.heap r).writer = none
  others : ∀ r', r' ≠ r → (w'.heap r').path = (w.heap r').path
  disk : ∃ s, ClosedDisk (cfg.backend (w.heap r).vfs) (w.heap r) (w.disk (w.heap r).vfs) s ∧
    (cfg.backend (w.heap r).vfs).move s (w.heap r).path dst = .ok (w'.disk (w.heap r).vfs)

section Steps

variable {cfg : Config V σ} {w : World V σ} {cid : ℕ}

/-- What Trename does once the writer of its fid is closed. -/
theorem wp_move_fid {u : World V σ} {r : Ref} (dst : Path) (hsame : SameFids w u)
    (hidle : (u.heap r).writer = none)
    (hclosed : ClosedDisk (cfg.backend (w.heap r).vfs) (w.heap r) (w.disk (w.heap r).vfs)
      (u.disk (w.heap r).vfs)) :
    Wp (do
        let f ← Config.fidAt r
        cfg.call f.vfs (.move f.path dst)
        Config.modifyFid r fun f => { f with path := dst }
        return Body.rrename)
      (fun _ => Renamed cfg w r dst) (fun _ _ => True) u := by
  refine wp_fidAt_bind ?_
  rw [wp_bind, hsame.vfs, hsame.path]
  refine wp_call cfg _ _ (fun e he => ?_) fun _ _ => trivial
  rw [wp_bind, wp_modifyFid]
  refine ⟨hsame.conns, by simp, by simpa using hidle, fun r' hne => ?_, _, hclosed, ?_⟩
  · rw [setFid_heap_of_ne _ _ hne]
    exact hsame.path r'
  · change _ = Except.ok (Function.update u.disk (w.heap r).vfs e (w.heap r).vfs)
    rw [Function.update_self]
    exact he

theorem trename_spec (cfg : Config V σ) (w : World V σ) (cid fid dfid : ℕ) (name : Utf16) :
    Wp (cfg.trename cid fid dfid name) (fun _ w' => ∃ r d dst, ref w cid fid = some r ∧
        ref w cid dfid = some d ∧ joinName (w.heap d).path name = .ok dst ∧
        Renamed cfg w r dst w') (fun _ _ => True) w := by
  unfold Config.trename
  rw [wp_bind]
  refine wp_getFid cfg cid fid (fun r hr => ?_) fun _ => trivial
  rw [wp_bind]
  refine wp_getFid cfg cid dfid (fun d hd => wp_fidAt_bind ?_) fun _ => trivial
  rw [wp_bind]
  refine wp_lift _ (fun dst hdst => ?_) fun _ _ => trivial
  refine Wp.mono (?_ : Wp _ (fun _ => Renamed cfg w r dst) (fun _ _ => True) w)
    (fun _ w' h => ⟨r, d, dst, hr, hd, hdst, h⟩) fun _ _ h => h
  have hidle : ((w.release r).heap r).writer = none := by rw [release_heap_self]
  rw [wp_bind]
  refine wp_closeWriter cfg r (fun _ => ?_) fun wr hwr _ => ?_
  · exact wp_move_fid dst ((SameFids.refl w).release r) hidle (Or.inl rfl)
  · refine wp_call cfg _ _ (fun e he => ?_) fun _ _ => trivial
    refine wp_move_fid dst (((SameFids.refl w).release r).setDisk _ e) hidle (Or.inr ⟨wr, hwr, ?_⟩)
    change _ = Except.ok (Function.update (w.release r).disk (w.heap r).vfs e (w.heap r).vfs)
    rw [Function.update_self]
    exact he

theorem trenameat_spec (cfg : Config V σ) (w : World V σ) (cid olddirfid : ℕ) (oldname : Utf16)
    (newdirfid : ℕ) (newname : Utf16) :
    Wp (cfg.trenameat cid olddirfid oldname newdirfid newname)
      (fun _ w' => w'.conns = w.conns ∧ ∀ r, (w'.heap r).path = (w.heap r).path)
      (fun _ _ => True) w := by
  unfold Config.trenameat
  rw [wp_bind]
  refine wp_getFid cfg cid olddirfid (fun od _ => wp_fidAt_bind ?_) fun _ => trivial
  rw [wp_bind]
  refine wp_getFid cfg cid newdirfid (fun nd _ => wp_fidAt_bind ?_) fun _ => trivial
  rw [wp_bind]
  refine wp_lift _ (fun src _ => ?_) fun _ _ => trivial
  rw [wp_bind]
  refine wp_lift _ (fun dst _ => ?_) fun _ _ => trivial
  rw [wp_bind]
  exact wp_call cfg _ _ (fun e _ => ⟨rfl, fun _ => rfl⟩) fun _ _ => trivial

/-- The fid of a Trename is moved, and no fid is by any other request that moves. -/
theorem dispatch_moves {body : Body} {v : V} {src dst : Path} {reply : Body} {w' : World V σ}
    (hmoves : moves w cid body = some (v, src, dst))
    (hok : cfg.dispatch cid body w = .ok reply w') :
    (∃ r, Renames w cid body r ∧ (w.heap r).vfs = v ∧ (w.heap r).path = src ∧
      Renamed cfg w r dst w') ∨
    (∀ r, ¬ Renames w cid body r) ∧ w'.conns = w.conns ∧
      ∀ r, (w'.heap r).path = (w.heap r).path := by
  cases body with
  | trename fid dfid name =>
    have hspec := trename_spec cfg w cid fid dfid name
    change cfg.trename cid fid dfid name w = .ok reply w' at hok
    unfold Wp at hspec
    rw [hok] at hspec
    obtain ⟨r, d, dst', hr, hd, hdst, hrenamed⟩ := hspec
    simp only [moves, hr, hd, hdst, Option.bind_some, Except.toOption, Option.map_some,
      Option.some.injEq, Prod.mk.injEq] at hmoves
    obtain ⟨hv, hsrc, rfl⟩ := hmoves
    exact Or.inl ⟨r, ⟨fid, dfid, name, rfl, hr⟩, hv, hsrc, hrenamed⟩
  | trenameat olddirfid oldname newdirfid newname =>
    have hspec := trenameat_spec cfg w cid olddirfid oldname newdirfid newname
    change cfg.trenameat cid olddirfid oldname newdirfid newname w = .ok reply w' at hok
    unfold Wp at hspec
    rw [hok] at hspec
    refine Or.inr ⟨?_, hspec.1, hspec.2⟩
    rintro r ⟨fid, dfid, name, hbody, -⟩
    cases hbody
  | _ => cases hmoves

omit [DecidableEq V] in
/-- The renamed fid shows the inode it showed before. -/
theorem Renamed.inode {r : Ref} {dst : Path} {w' : World V σ} (h : Renamed cfg w r dst w')
    (htidy : Tidy w) (hinodes : KeepsInodes (cfg.backend (w.heap r).vfs))
    (hbelow : (w.heap r).path <+: dst → (w.heap r).path = dst) {rec : VfsRecord} {i : Utf16}
    (hstat : (cfg.backend (w.heap r).vfs).stat (w.disk (w.heap r).vfs) (w.heap r).path =
      .ok (some rec)) (hid : rec.id = some i) :
    ∃ rec', (cfg.backend (w.heap r).vfs).stat (w'.disk (w.heap r).vfs) (w'.heap r).path =
      .ok (some rec') ∧ rec'.id = some i := by
  obtain ⟨s, hclosed, hmove⟩ := h.disk
  have hbefore : ∃ rec', (cfg.backend (w.heap r).vfs).stat s (w.heap r).path = .ok (some rec') ∧
      rec'.id = some i := by
    rcases hclosed with rfl | ⟨wr, hwr, hwrite⟩
    · exact ⟨rec, hstat, hid⟩
    · rw [(htidy.owned r wr hwr).1] at hwrite
      exact hinodes.write _ _ _ _ rec i hwrite hstat hid
  obtain ⟨rec₁, hstat₁, hid₁⟩ := hbefore
  have hmoved := hinodes.move s _ dst _ [] rec₁ i hmove hbelow (by simpa using hstat₁) hid₁
  rw [h.path]
  simpa using hmoved

end Steps

/-- In every state the server reaches, after an answered rename a fid on the moved path
or below it has the moved path exactly when the request is a Trename of that fid, or
moves nothing. The renamed fid then has no deferred bytes for the old path and shows the
same inode, unless the path was moved below itself. -/
theorem fid_follows_rename_iff (cfg : Config V σ) (w₀ : World V σ) (hfresh : Fresh w₀)
    (before : List (ℕ × List UInt8)) (cid : ℕ) (frame : List UInt8) (tag : Option ℕ) (body : Body)
    (hdecode : decode frame = some ⟨tag, body⟩) (v : V) (src dst rest : Path)
    (hmoves : moves (run cfg.serve w₀ before) cid body = some (v, src, dst))
    (hanswer : ¬ IsRlerror (cfg.handle cid frame (run cfg.serve w₀ before)).1)
    (cid' fid' : ℕ) (r : Ref) (hbound : ref (run cfg.serve w₀ before) cid' fid' = some r)
    (hvfs : ((run cfg.serve w₀ before).heap r).vfs = v)
    (hpath : ((run cfg.serve w₀ before).heap r).path = src ++ rest) :
    ((ref (run cfg.serve w₀ (before ++ [(cid, frame)])) cid' fid' = some r ∧
        ((run cfg.serve w₀ (before ++ [(cid, frame)])).heap r).path = dst ++ rest) ↔
      Renames (run cfg.serve w₀ before) cid body r ∨ src = dst) ∧
    (Renames (run cfg.serve w₀ before) cid body r →
      ((run cfg.serve w₀ (before ++ [(cid, frame)])).heap r).writer = none ∧
      ((cfg.backend v).Lawful → KeepsInodes (cfg.backend v) → (src <+: dst → src = dst) →
        ∀ rec i, (cfg.backend v).stat ((run cfg.serve w₀ before).disk v) (src ++ rest) =
            .ok (some rec) → rec.id = some i →
          ∃ rec', (cfg.backend v).stat ((run cfg.serve w₀ (before ++ [(cid, frame)])).disk v)
            ((run cfg.serve w₀ (before ++ [(cid, frame)])).heap r).path = .ok (some rec') ∧
            rec'.id = some i)) := by
  obtain ⟨reply, hok⟩ := dispatch_of_answer hdecode hanswer
  have hrun : run cfg.serve w₀ (before ++ [(cid, frame)]) =
      cfg.serve (run cfg.serve w₀ before) (cid, frame) := by
    rw [run_append]
    rfl
  rw [hrun]
  -- a fid the request leaves alone has the moved path only when nothing moves
  have hkept : ¬ Renames (run cfg.serve w₀ before) cid body r →
      (cfg.serve (run cfg.serve w₀ before) (cid, frame)).conns = (run cfg.serve w₀ before).conns →
      ((cfg.serve (run cfg.serve w₀ before) (cid, frame)).heap r).path = src ++ rest →
      ((ref (cfg.serve (run cfg.serve w₀ before) (cid, frame)) cid' fid' = some r ∧
          ((cfg.serve (run cfg.serve w₀ before) (cid, frame)).heap r).path = dst ++ rest) ↔
        Renames (run cfg.serve w₀ before) cid body r ∨ src = dst) := by
    intro hnot hconns hsame
    rw [hsame, ← hbound, or_iff_right hnot, List.append_left_inj]
    unfold ref
    rw [hconns]
    exact and_iff_right rfl
  rcases dispatch_moves hmoves hok with ⟨r₁, hrenames, hv, hsrc, hrenamed⟩ | ⟨hnone, hconns, hpaths⟩
  · by_cases heq : r = r₁
    · subst heq
      have hrest : rest = [] := by
        rw [hsrc] at hpath
        exact List.append_right_eq_self.mp hpath.symm
      subst hrest
      refine ⟨⟨fun _ => Or.inl hrenames, fun _ => ⟨?_, ?_⟩⟩, fun _ => ⟨hrenamed.idle, ?_⟩⟩
      · rw [← hbound]
        unfold ref
        rw [hrenamed.conns]
      · rw [hrenamed.path, List.append_nil]
      · intro hlawful hinodes hbelow rec i hstat hid
        subst hvfs
        exact hrenamed.inode (tidy_run hlawful hfresh before) hinodes (by rwa [hsrc])
          (by rwa [hpath]) hid
    · have hnot : ¬ Renames (run cfg.serve w₀ before) cid body r :=
        fun h => heq (h.unique hrenames)
      refine ⟨hkept hnot hrenamed.conns ?_, fun h => absurd h hnot⟩
      rw [hrenamed.others r heq, hpath]
  · refine ⟨hkept (hnone r) hconns ?_, fun h => absurd h (hnone r)⟩
    rw [hpaths r, hpath]

section TwoFids

def nameB : Component := ⟨ofString "b", by decide⟩

/-- Fids 1 and 2 are bound to the file "a". -/
def twoFidsRun : List (ℕ × List UInt8) := createRun ++ [frame (.twalk 0 2 [ofString "a"])]

def rootOptions : MemVfs.Options := ⟨[[slash]], List.mem_singleton.mpr rfl⟩

/-- A server that exports the in-memory file system. -/
def memServer : Config Unit (MemVfs.Mounted rootOptions) :=
  ⟨65536, 0, 0, [(ofString "/", ⟨(), []⟩)], fun _ => MemVfs.mounted rootOptions, fun _ => true,
    fun _ _ => false⟩

def memWorld : World Unit (MemVfs.Mounted rootOptions) :=
  ⟨JsMap.empty, fun _ => ⟨[], (), false, none, none, none⟩, 0, fun _ => none, fun _ => none, 1,
    65536, fun _ => MemVfs.Mounted.new rootOptions⟩

/-- A fid renamed through itself has the new path, and shows the same inode there. -/
theorem fid_follows_own_rename :
    ref (run memServer.serve memWorld (twoFidsRun ++ [frame (.trename 1 0 (ofString "b"))]))
        0 1 = some 1 ∧
      ((run memServer.serve memWorld (twoFidsRun ++
        [frame (.trename 1 0 (ofString "b"))])).heap 1).path = [nameB] ∧
      ∃ rec, (MemVfs.mounted rootOptions).stat
          ((run memServer.serve memWorld (twoFidsRun ++
            [frame (.trename 1 0 (ofString "b"))])).disk ())
          ((run memServer.serve memWorld (twoFidsRun ++
            [frame (.trename 1 0 (ofString "b"))])).heap 1).path = .ok (some rec) ∧
        rec.id = some (ofString "n1") := by
  have hanswer : (memServer.handle 0 (frame (.trename 1 0 (ofString "b"))).2
      (run memServer.serve memWorld twoFidsRun)).1 = encode ⟨some 1, .rrename⟩ := by
    decide +kernel
  have hworks : ¬ IsRlerror (memServer.handle 0 (frame (.trename 1 0 (ofString "b"))).2
      (run memServer.serve memWorld twoFidsRun)).1 := by
    rintro ⟨tag, ecode, herror⟩
    cases type_of_encode_eq (hanswer.symm.trans herror)
  have hrenames : Renames (run memServer.serve memWorld twoFidsRun) 0
      (.trename 1 0 (ofString "b")) 1 := ⟨1, 0, ofString "b", rfl, by decide +kernel⟩
  have hfollows := fid_follows_rename_iff memServer memWorld
    ⟨rfl, fun _ => ⟨rfl, rfl⟩, fun _ => rfl⟩ twoFidsRun 0
    (frame (.trename 1 0 (ofString "b"))).2 (some 1) (.trename 1 0 (ofString "b"))
    (by decide +kernel) () [nameA] [nameB] [] (by decide +kernel) hworks 0 1 1
    (by decide +kernel) rfl (by decide +kernel)
  have hinode : (((MemVfs.mounted rootOptions).stat
      ((run memServer.serve memWorld twoFidsRun).disk ()) [nameA]).toOption.join.bind
        VfsRecord.id) = some (ofString "n1") := by
    decide +kernel
  obtain ⟨found, hfound⟩ := (MemVfs.mounted_isTree rootOptions).answers
    ((run memServer.serve memWorld twoFidsRun).disk ()) [nameA]
  rw [hfound] at hinode
  obtain ⟨rec, rfl, hid⟩ := Option.bind_eq_some_iff.mp hinode
  have hmoved := hfollows.1.mpr (Or.inl hrenames)
  exact ⟨hmoved.1, hmoved.2, (hfollows.2 hrenames).2 (MemVfs.mounted_lawful _)
    (mounted_keepsInodes _) (by decide) rec _ hfound hid⟩

/-- The other fid on the same file keeps the old path, where nothing is any more; and a
Trenameat does not move any fid. -/
theorem other_fid_left_behind :
    moves (run oneDirectory.serve emptyWorld twoFidsRun) 0 (.trename 1 0 (ofString "b")) =
        some ((), [nameA], [nameB]) ∧
      ((run oneDirectory.serve emptyWorld twoFidsRun).heap 2).path = [nameA] ∧
      (oneDirectory.handle 0 (frame (.trename 1 0 (ofString "b"))).2
        (run oneDirectory.serve emptyWorld twoFidsRun)).1 = encode ⟨some 1, .rrename⟩ ∧
      ref (run oneDirectory.serve emptyWorld (twoFidsRun ++ [frame (.trename 1 0 (ofString "b"))]))
        0 2 = some 2 ∧
      ((run oneDirectory.serve emptyWorld (twoFidsRun ++
        [frame (.trename 1 0 (ofString "b"))])).heap 2).path ≠ [nameB] ∧
      (oneDirectory.handle 0 (frame (.tgetattr 2 0)).2 (run oneDirectory.serve emptyWorld
        (twoFidsRun ++ [frame (.trename 1 0 (ofString "b"))]))).1 =
        encode ⟨some 1, .rlerror E.noent⟩ ∧
      (oneDirectory.handle 0 (frame (.trenameat 0 (ofString "a") 0 (ofString "b"))).2
        (run oneDirectory.serve emptyWorld twoFidsRun)).1 = encode ⟨some 1, .rrenameat⟩ ∧
      ((run oneDirectory.serve emptyWorld (twoFidsRun ++
        [frame (.trenameat 0 (ofString "a") 0 (ofString "b"))])).heap 1).path ≠ [nameB] := by
  refine ⟨?_, ?_, ?_, ?_, ?_, ?_, ?_, ?_⟩ <;> decide +kernel

end TwoFids

end NixWasm.NinepServer
