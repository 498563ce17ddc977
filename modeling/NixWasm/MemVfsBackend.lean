import NixWasm.MemVfsWays
import NixWasm.VfsTree

/-!
The in-memory file system as a backend of the 9P server, mounted with a read-only prefix
that guards its root. Its states are the sound ones whose entries all have names that a
path may have; every call keeps them, and it is a tree of files. So it meets what the
server relies on.
-/
namespace NixWasm.MemVfs

open Unicode NinepServer Effects Hierarchy

section Strings

theorem plain_iff {s : Utf16} : Plain s ↔ Vfs.Plain s :=
  ⟨fun h => ⟨h.ne_nil, h.ne_dot, h.ne_dotdot, h.no_slash⟩, fun h => ⟨h.1, h.2.1, h.2.2.1, h.2.2.2⟩⟩

/-- The names along a path. -/
def names (p : Vfs.Path) : List Utf16 := p.map Subtype.val

theorem plain_names (p : Vfs.Path) : ∀ s ∈ names p, Plain s := by
  intro s hs
  obtain ⟨c, -, rfl⟩ := List.mem_map.mp hs
  exact plain_iff.mpr c.2

theorem names_injective : Function.Injective names :=
  List.map_injective_iff.mpr Subtype.val_injective

theorem prefix_names_iff {p q : Vfs.Path} : names p <+: names q ↔ p <+: q :=
  List.prefix_map_iff_of_injective Subtype.val_injective

theorem names_eq_nil {p : Vfs.Path} : names p = [] ↔ p = [] := List.map_eq_nil_iff

theorem names_append (p q : Vfs.Path) : names (p ++ q) = names p ++ names q := List.map_append

theorem names_dropLast (p : Vfs.Path) : names p.dropLast = (names p).dropLast :=
  List.map_dropLast

theorem pathString_eq (p : Vfs.Path) : pathString p = slash :: join (names p) := by
  have hflat : ∀ (c : Vfs.Component) (p : Vfs.Path),
      (c :: p).flatMap (fun seg => slash :: seg.1) = slash :: join (names (c :: p)) := by
    intro c p
    induction p generalizing c with
    | nil => simp [names, join_singleton]
    | cons d p ih =>
      rw [List.flatMap_cons, ih]
      simp [names, join_cons]
  cases p with
  | nil => rfl
  | cons c p => exact hflat c p

theorem segments_pathString (p : Vfs.Path) : segments (pathString p) = names p := by
  rw [pathString_eq, segments_join (plain_names p)]

theorem place_pathString {p : Vfs.Path} (h : p ≠ []) : place (pathString p) = names p := by
  have hne : segments (pathString p) ≠ [] := by
    rwa [segments_pathString, Ne, names_eq_nil]
  rw [place_eq hne, segments_pathString]

/-- The path that a string spells. -/
def pathOf (path : Utf16) : Vfs.Path :=
  (segments path).attach.map fun s => ⟨s.1, plain_iff.mp (plain_segments path s.1 s.2)⟩

theorem names_pathOf (path : Utf16) : names (pathOf path) = segments path := by
  rw [names, pathOf, List.map_map]
  exact List.attach_map_subtype_val _

theorem pathOf_normalize (p : Vfs.Path) : pathOf (normalize (pathString p)) = p :=
  names_injective (by rw [names_pathOf, segments_normalize, segments_pathString])

theorem plain_basename {path : Utf16} (h : segments path ≠ []) : Plain (basename path) := by
  refine plain_segments path _ ?_
  rw [← place_eq h, place]
  exact List.mem_concat_self

end Strings

section Mounted

/-- The options of a mounted file system: the root is among its read-only prefixes. -/
structure Options where
  readOnlyPrefixes : List Utf16
  root : [] ∈ readOnlyPrefixes.map segments

/-- All entries have names that a path may have. -/
def Named (fs : Fs) : Prop := ∀ i x c, entries fs i x = some c → Plain x

/-- A state of a mounted file system. -/
structure Mounted (o : Options) where
  fs : Fs
  sound : Sound fs
  named : Named fs
  options : fs.readOnly = o.readOnlyPrefixes.map normalize

variable {fs fs' : Fs}

theorem Named.stored (hn : Named fs) (h : Sound fs) {path : Utf16} {i : NodeId} {node : MemNode}
    (hs : Stored path i node fs fs') (hroot : segments path ≠ [])
    (hkids : ∀ x c, kids (some node) x = some c → entries fs i x = some c) : Named fs' := by
  intro a x c hc
  obtain ⟨p, nd, ch, hp, hplace, hget⟩ := hs.parent
  rw [entries_stored hp (hp.ne_placed h hplace) hget] at hc
  split_ifs at hc with hat hi
  · exact hat.2 ▸ plain_basename hroot
  · exact hn i x c (hkids x c hc)
  · exact hn a x c hc

theorem Named.removed (hn : Named fs) {path : Utf16} {i : NodeId} {node : MemNode}
    (hs : Removed path i node fs fs') : Named fs' := by
  intro a x c hc
  obtain ⟨p, nd, ch, hp, hget⟩ := hs.parent
  rw [entries_removed hp hget] at hc
  split_ifs at hc
  exact hn a x c hc

theorem Named.moved (hn : Named fs) (h : Sound fs) {srcPath dstPath : Utf16} {i : NodeId}
    (hs : Moved srcPath dstPath i fs fs') (hroot : segments dstPath ≠ []) : Named fs' := by
  intro a x c hc
  obtain ⟨p₁, nd₁, ch₁, p₂, nd₂, ch₂, -, hp₂, hget⟩ := hs.parents
  rw [entries_moved h hp₂ hget] at hc
  unfold relink at hc
  split_ifs at hc with hat
  · exact hat.2 ▸ plain_basename hroot
  · exact hn a x c hc

variable {o : Options}

theorem Mounted.ne_root (s : Mounted o) {path : Utf16} (h : Writable s.fs path) :
    segments path ≠ [] := by
  intro hpath
  obtain ⟨ro, hro, hnil⟩ := List.mem_map.mp o.root
  refine free_of_writable s.options hro h ?_
  rw [Guards, if_pos hnil, hpath]

/-- A call, whether it returns or throws, keeps what holds of a mounted file system. -/
theorem Mounted.kept (s : Mounted o) (c : Call) : Sound (step s.fs c) ∧ Named (step s.fs c) ∧
    (step s.fs c).readOnly = s.fs.readOnly := by
  refine ⟨s.sound.step fun _ _ _ _ hsrc _ _ => s.ne_root hsrc, ?_⟩
  rcases step_cases s.sound c with hsame | hchanged
  · rw [hsame]
    exact ⟨s.named, rfl⟩
  · cases hchanged with
    | written path rec i hguard hs given hrec =>
      exact ⟨s.named.stored s.sound hs (s.ne_root hguard) fun x c hc => kids_writeResult hc,
        hs.readOnly⟩
    | made path hguard hnone hs =>
      refine ⟨s.named.stored s.sound hs (s.ne_root hguard) fun x c hc => ?_, hs.readOnly⟩
      rw [kids_newFolder] at hc
      cases hc
    | removed path i node hguard hs => exact ⟨s.named.removed hs, hs.readOnly⟩
    | moved srcPath dstPath i hsrc hdst hs =>
      exact ⟨s.named.moved s.sound hs (s.ne_root hdst), hs.readOnly⟩

def Mounted.step (s : Mounted o) (c : Call) : Mounted o :=
  ⟨MemVfs.step s.fs c, (s.kept c).1, (s.kept c).2.1, (s.kept c).2.2.trans s.options⟩

/-- An empty file system. -/
def Mounted.new (o : Options) : Mounted o where
  fs := MemVfs.new o.readOnlyPrefixes
  sound := (wellFormed_new _).sound
  named i x c hc := by
    unfold entries at hc
    rw [MemVfs.new, JsMap.get_set] at hc
    split_ifs at hc
    · cases hc
    · cases hc
  options := rfl

end Mounted

section Backend
variable {o : Options}

/-- The server maps the code of an error; a corrupt tree has none. -/
def fault : Thrown → Vfs.Fault
  | .vfsError code _ => .code code
  | .noChildren _ | .dangling _ => .plain

def idText : NodeId → Utf16
  | .root => ofString "root"
  | .n seq => 0x6E :: (Nat.toDigits 10 seq).map fun digit => UInt16.ofNat digit.toNat

def reported (rec : VfsRecord) : Vfs.VfsRecord where
  id := some (idText rec.id)
  type := kindOf rec.type
  name := rec.name
  path := pathOf rec.path
  modifiedAt := some rec.modifiedAt
  size := rec.size
  target := rec.target

/-- The records that the server writes. -/
def requested : Vfs.VfsWriteRecord → VfsWriteRecord
  | .file blob => ⟨some fileType, none, some blob, none, none,
      some (ofString "application/octet-stream")⟩
  | .alias target => ⟨some aliasType, none, none, none, some target, none⟩

def Mounted.call (s : Mounted o) (c : Call) : Except Vfs.Fault (Mounted o) :=
  match perform c s.fs with
  | .ok _ _ => .ok (s.step c)
  | .error e _ => .error (fault e)

def mounted (o : Options) : Vfs.Backend (Mounted o) where
  stat s p := ((stat (pathString p) s.fs).map (Option.map reported)).mapError fault
  list s p := ((list (pathString p) s.fs).map (List.map reported)).mapError fault
  readBlob s p := (readBlob (pathString p) s.fs).mapError fault
  write s p rec := s.call (.write (pathString p) (requested rec))
  mkdir s p := s.call (.mkdir (pathString p))
  remove s p := s.call (.remove (pathString p))
  move s src dst := s.call (.move (pathString src) (pathString dst))
  isWritablePath p := isWritablePath (pathString p) (new o.readOnlyPrefixes)

end Backend

section Calls
variable {o : Options}

theorem Mounted.call_ok {s t : Mounted o} {c : Call} (h : s.call c = .ok t) :
    (t.fs = s.fs ∧ ∃ path, c = .mkdir path ∧ Writable s.fs path ∧ IsFolder s.fs path) ∨
      Changed s.fs t.fs c := by
  have hdone := wp_perform s.sound c
  unfold Wp at hdone
  unfold Mounted.call at h
  cases hrun : perform c s.fs with
  | ok a fs' =>
    rw [hrun] at hdone h
    cases h
    have hfinal : (s.step c).fs = fs' := by
      change final (perform c s.fs) = fs'
      rw [hrun]
      rfl
    rw [hfinal]
    exact hdone
  | error e fs' =>
    rw [hrun] at h
    cases h

theorem Mounted.call_works (s : Mounted o) {c : Call} (h : Works (perform c) s.fs) :
    ∃ t, s.call c = .ok t := by
  obtain ⟨a, fs', hrun, -⟩ := h.returned
  unfold Mounted.call
  rw [hrun]
  exact ⟨_, rfl⟩

theorem mounted_write_ok {s t : Mounted o} {p : Vfs.Path} {rec : Vfs.VfsWriteRecord}
    (h : (mounted o).write s p rec = .ok t) : Writable s.fs (pathString p) ∧ ∃ i,
      Stored (pathString p) i (writeResult s.fs (pathString p)
        { requested rec with bytes := payload (requested rec) } (s.fs.nodes.get i)) s.fs t.fs := by
  rcases Mounted.call_ok (c := .write (pathString p) (requested rec)) h with ⟨-, _, hcall, -⟩ | hw
  · cases hcall
  · cases hw with
    | written path rec' i hguard hs given hrec =>
      subst hrec
      exact ⟨hguard, i, hs⟩
    | moved srcPath dstPath i hsrc hdst hs call hcall =>
      rcases hcall with hcall | hcall <;> cases hcall

theorem mounted_mkdir_ok {s t : Mounted o} {p : Vfs.Path} (h : (mounted o).mkdir s p = .ok t) :
    Writable s.fs (pathString p) ∧ (t.fs = s.fs ∧ IsFolder s.fs (pathString p) ∨
      resolve (pathString p) s.fs = .ok none ∧ Stored (pathString p) (.n (s.fs.seq + 1))
        (newFolder (basename (pathString p)) (s.fs.clock + 1000)) s.fs t.fs) := by
  rcases Mounted.call_ok (c := .mkdir (pathString p)) h with
    ⟨hsame, path, hcall, hguard, hfolder⟩ | hm
  · cases hcall
    exact ⟨hguard, Or.inl ⟨hsame, hfolder⟩⟩
  · cases hm with
    | made path hguard hnone hs => exact ⟨hguard, Or.inr ⟨hnone, hs⟩⟩
    | moved srcPath dstPath i hsrc hdst hs call hcall =>
      rcases hcall with hcall | hcall <;> cases hcall

theorem mounted_remove_ok {s t : Mounted o} {p : Vfs.Path} (h : (mounted o).remove s p = .ok t) :
    Writable s.fs (pathString p) ∧ ∃ i node, Removed (pathString p) i node s.fs t.fs := by
  rcases Mounted.call_ok (c := .remove (pathString p)) h with ⟨-, _, hcall, -⟩ | hr
  · cases hcall
  · cases hr with
    | removed path i node hguard hs => exact ⟨hguard, i, node, hs⟩
    | moved srcPath dstPath i hsrc hdst hs call hcall =>
      rcases hcall with hcall | hcall <;> cases hcall

theorem mounted_move_ok {s t : Mounted o} {src dst : Vfs.Path}
    (h : (mounted o).move s src dst = .ok t) :
    Writable s.fs (pathString src) ∧ Writable s.fs (pathString dst) ∧
      ∃ i, Moved (pathString src) (pathString dst) i s.fs t.fs := by
  rcases Mounted.call_ok (c := .move (pathString src) (pathString dst)) h with ⟨-, _, hcall, -⟩ | hm
  · cases hcall
  · cases hm with
    | moved srcPath dstPath i hsrc hdst hs call hcall =>
      obtain ⟨rfl, rfl⟩ : pathString src = srcPath ∧ pathString dst = dstPath := by
        rcases hcall with hcall | hcall <;> cases hcall
        exact ⟨rfl, rfl⟩
      exact ⟨hsrc, hdst, i, hs⟩

theorem mounted_stat (s : Mounted o) (p : Vfs.Path) : (mounted o).stat s p =
    .ok ((follow (seen s.fs) .root (names p)).bind fun i => (s.fs.nodes.get i).map fun node =>
      reported (record (i, node) (pathString p))) := by
  change ((stat (pathString p) s.fs).map (Option.map reported)).mapError fault = _
  unfold stat
  rw [resolve_sound s.sound, segments_pathString]
  cases follow (seen s.fs) .root (names p) with
  | none => rfl
  | some i =>
    rw [Option.bind_some, Option.bind_some]
    cases s.fs.nodes.get i <;> rfl

theorem mounted_stat_some {s : Mounted o} {p : Vfs.Path} {rec : Vfs.VfsRecord} :
    (mounted o).stat s p = .ok (some rec) ↔ ∃ i node,
      follow (seen s.fs) .root (names p) = some i ∧ s.fs.nodes.get i = some node ∧
        rec = reported (record (i, node) (pathString p)) := by
  rw [mounted_stat, Except.ok.injEq, Option.bind_eq_some_iff]
  refine exists_congr fun i => ?_
  rw [Option.map_eq_some_iff]
  exact ⟨fun ⟨hi, node, hnode, heq⟩ => ⟨node, hi, hnode, heq.symm⟩,
    fun ⟨node, hi, hnode, heq⟩ => ⟨hi, node, hnode, heq.symm⟩⟩

theorem mounted_readBlob {s : Mounted o} {p : Vfs.Path} {i : NodeId} {node : MemNode}
    (hi : follow (seen s.fs) .root (names p) = some i) (hnode : s.fs.nodes.get i = some node) :
    (mounted o).readBlob s p = if node.type = folderType then .error (.code .eisdir)
      else .ok (node.bytes.getD []) := by
  change (readBlob (pathString p) s.fs).mapError fault = _
  unfold readBlob
  rw [resolve_sound s.sound, segments_pathString, hi, Option.bind_some, hnode]
  simp only [Option.map_some, bind, Except.bind]
  split_ifs <;> rfl

theorem mounted_node {s : Mounted o} {p : Vfs.Path} {i : NodeId} {node : MemNode}
    (hi : follow (seen s.fs) .root (names p) = some i) (hnode : s.fs.nodes.get i = some node) :
    (mounted o).node s p (reported (record (i, node) (pathString p))) = shown node := by
  have hkind : (reported (record (i, node) (pathString p))).type = kindOf node.type := rfl
  unfold Vfs.Backend.node Vfs.Backend.readBytes shown
  rw [mounted_readBlob hi hnode, hkind]
  by_cases hfolder : node.type = folderType
  · rw [kindOf, if_pos hfolder]
  · rw [if_neg hfolder, kindOf, if_neg hfolder]
    split_ifs with halias
    · have htarget : (reported (record (i, node) (pathString p))).target = node.target :=
        if_pos halias
      rw [htarget]
    · rfl

/-- What the backend shows is what its nodes show. -/
theorem mounted_tree (s : Mounted o) (p : Vfs.Path) :
    (mounted o).tree s p = view s.fs (names p) := by
  unfold Vfs.Backend.tree Vfs.Backend.look
  rw [mounted_stat]
  change Option.map ((mounted o).node s p) _ = _
  rw [Option.map_bind]
  refine Option.bind_congr fun i hi => ?_
  cases hnode : s.fs.nodes.get i with
  | none => simp [hnode]
  | some node => simp [hnode, mounted_node hi hnode]

end Calls

section Tree
variable {o : Options}

theorem writable_iff (s : Mounted o) (p : Vfs.Path) :
    (mounted o).isWritablePath p = true ↔ Writable s.fs (pathString p) := by
  change (!readOnlyPath (new o.readOnlyPrefixes) (normalize (pathString p))) = true ↔ _
  have hsame : readOnlyPath s.fs (normalize (pathString p)) =
      readOnlyPath (new o.readOnlyPrefixes) (normalize (pathString p)) := by
    unfold readOnlyPath
    rw [s.options]
    rfl
  rw [Writable, hsame, Bool.not_eq_true']

theorem Mounted.path_ne_nil (s : Mounted o) {p : Vfs.Path} (h : Writable s.fs (pathString p)) :
    p ≠ [] := by
  have hroot := s.ne_root h
  rwa [segments_pathString, Ne, names_eq_nil] at hroot

theorem tree_parent {s : Mounted o} {p : Vfs.Path} {i : NodeId} {node : MemNode}
    {ch : JsMap Utf16 NodeId} (h : ParentOf s.fs (pathString p) i node ch) :
    (mounted o).tree s p.dropLast = some .folder := by
  rw [mounted_tree, names_dropLast, ← segments_pathString]
  exact h.view

theorem tree_stored {s t : Mounted o} {p : Vfs.Path} {i : NodeId} {node : MemNode} (hp : p ≠ [])
    (hs : Stored (pathString p) i node s.fs t.fs) (hempty : ∀ x, looks (some node) x = none) :
    (mounted o).tree t = ((mounted o).tree s).put p (shown node) := by
  funext q
  unfold Vfs.FileTree.put
  rw [mounted_tree, mounted_tree, view_stored s.sound hs hempty, place_pathString hp]
  simp only [names_injective.eq_iff, prefix_names_iff]

theorem tree_removed {s t : Mounted o} {p : Vfs.Path} {i : NodeId} {node : MemNode} (hp : p ≠ [])
    (hs : Removed (pathString p) i node s.fs t.fs) :
    (mounted o).tree t = ((mounted o).tree s).erase p := by
  have hroot : segments (pathString p) ≠ [] := by
    rwa [segments_pathString, Ne, names_eq_nil]
  funext q
  unfold Vfs.FileTree.erase
  rw [mounted_tree, mounted_tree, view_removed s.sound hs hroot, segments_pathString]
  simp only [prefix_names_iff]

theorem tree_moved {s t : Mounted o} {src dst : Vfs.Path} {i : NodeId} (hsrc : src ≠ [])
    (hdst : dst ≠ []) (hs : Moved (pathString src) (pathString dst) i s.fs t.fs) :
    (mounted o).tree t = ((mounted o).tree s).graft src dst := by
  have hroot : segments (pathString src) ≠ [] := by
    rwa [segments_pathString, Ne, names_eq_nil]
  funext q
  have hdrop : (names q).drop (names dst).length = names (q.drop dst.length) := by
    simp [names, List.map_drop]
  unfold Vfs.FileTree.graft
  rw [mounted_tree, mounted_tree, mounted_tree, view_moved s.sound hs hroot,
    place_pathString hdst, segments_pathString, hdrop, ← names_append]
  simp only [names_injective.ne_iff, prefix_names_iff]

/-- What the node of a requested record shows. -/
theorem shown_requested (node : MemNode) (rec : Vfs.VfsWriteRecord) (t : ℕ) :
    shown (written node { requested rec with bytes := payload (requested rec) } t) = rec.node ∧
      ∀ x, looks (some (written node { requested rec with bytes := payload (requested rec) } t)) x =
        none := by
  cases rec <;> exact ⟨rfl, fun _ => rfl⟩

theorem tree_none {s : Mounted o} {p : Vfs.Path} :
    (mounted o).tree s p = none ↔ resolve (pathString p) s.fs = .ok none := by
  rw [mounted_tree, ← segments_pathString]
  exact (resolve_of_view s.sound).1

theorem tree_some {s : Mounted o} {p : Vfs.Path} {n : Vfs.Node} :
    (mounted o).tree s p = some n ↔
      ∃ found, resolve (pathString p) s.fs = .ok (some found) ∧ shown found.2 = n := by
  rw [mounted_tree, ← segments_pathString]
  exact (resolve_of_view s.sound).2 n

/-- A path that leads to a node shows something. -/
theorem tree_ne_none {s : Mounted o} {p : Vfs.Path} {i : NodeId}
    (hi : follow (seen s.fs) .root (segments (pathString p)) = some i)
    (hthere : Present s.fs i) : (mounted o).tree s p ≠ none := by
  obtain ⟨node, hnode⟩ := Option.isSome_iff_exists.mp hthere
  rw [segments_pathString] at hi
  rw [mounted_tree, view_of_follow hi hnode]
  exact Option.some_ne_none _

/-- Nothing is below a node that is taken out. -/
theorem tree_below_removed {s t : Mounted o} {p : Vfs.Path} {i : NodeId} {node : MemNode}
    (hs : Removed (pathString p) i node s.fs t.fs) (x : Vfs.Component) :
    (mounted o).tree s (p ++ [x]) = none := by
  have hway := hs.way
  rw [segments_pathString] at hway
  have hnone : seen s.fs i x.1 = none := by
    unfold seen
    rw [hs.found, Option.bind_some]
    split_ifs with hfolder
    · obtain ⟨ch, hch, hentries⟩ := Option.map_eq_some_iff.mp (hs.leaf hfolder)
      rw [hch, Option.bind_some, JsMap.get, hentries]
      rfl
    · rfl
  rw [mounted_tree, names_append, view, follow_append_of hway, names, List.map_singleton,
    follow_cons, hnone]
  rfl

/-- A call that is not refused does to the tree what it says. -/
theorem mounted_does (s : Mounted o) (c : Vfs.Call) (t : Mounted o)
    (h : (mounted o).apply s c = .ok t) :
    Vfs.FileTree.Does (mounted o).isWritablePath ((mounted o).tree s) c ((mounted o).tree t) := by
  cases c with
  | write p rec =>
    obtain ⟨hguard, i, hs⟩ := mounted_write_ok h
    obtain ⟨q, nd, ch, hp, -⟩ := hs.parent
    have hshown := shown_requested ((s.fs.nodes.get i).getD
      ⟨fileType, basename (pathString p), 0, none, none, none, none⟩) rec (s.fs.clock + 1000)
    rw [tree_stored (s.path_ne_nil hguard) hs hshown.2]
    unfold writeResult
    rw [hshown.1]
    exact .write p rec ((writable_iff s p).mpr hguard) (tree_parent hp)
  | mkdir p =>
    obtain ⟨hguard, ⟨hsame, found, hfound, hfolder⟩ | ⟨hnone, hs⟩⟩ := mounted_mkdir_ok h
    · have htree : (mounted o).tree t = (mounted o).tree s := by
        funext q
        rw [mounted_tree, mounted_tree, hsame]
      rw [htree]
      exact .present p ((writable_iff s p).mpr hguard)
        (tree_some.mpr ⟨found, hfound, shown_eq_folder.mpr hfolder⟩)
    · obtain ⟨q, nd, ch, hp, -⟩ := hs.parent
      rw [tree_stored (s.path_ne_nil hguard) hs fun _ => rfl]
      exact .mkdir p ((writable_iff s p).mpr hguard) (tree_none.mpr hnone) (tree_parent hp)
  | remove p =>
    obtain ⟨hguard, i, node, hs⟩ := mounted_remove_ok h
    rw [tree_removed (s.path_ne_nil hguard) hs]
    refine .remove p ((writable_iff s p).mpr hguard) (tree_ne_none hs.way ?_)
      (tree_below_removed hs)
    rw [Present, hs.found]
    rfl
  | move src dst =>
    obtain ⟨hsrc, hdst, i, hs⟩ := mounted_move_ok h
    rw [tree_moved (s.path_ne_nil hsrc) (s.path_ne_nil hdst) hs]
    obtain ⟨p₁, nd₁, ch₁, p₂, nd₂, ch₂, -, hp₂, -⟩ := hs.parents
    exact .move src dst ((writable_iff s src).mpr hsrc) ((writable_iff s dst).mpr hdst)
      (tree_ne_none hs.way hs.present) (tree_parent hp₂)

/-- A call that the tree admits is not refused. -/
theorem mounted_works (s : Mounted o) (c : Vfs.Call) (T : Vfs.FileTree)
    (h : Vfs.FileTree.Does (mounted o).isWritablePath ((mounted o).tree s) c T) :
    ∃ t, (mounted o).apply s c = .ok t := by
  have hview : ∀ p : Vfs.Path, (mounted o).tree s p.dropLast = some .folder →
      view s.fs (segments (pathString p)).dropLast = some .folder := by
    intro p hp
    rwa [mounted_tree, names_dropLast, ← segments_pathString] at hp
  have hresolve : ∀ p, (mounted o).tree s p ≠ none →
      ∃ found, resolve (pathString p) s.fs = .ok (some found) := by
    intro p hp
    obtain ⟨n, hn⟩ := Option.ne_none_iff_exists'.mp hp
    obtain ⟨found, hfound, -⟩ := tree_some.mp hn
    exact ⟨found, hfound⟩
  cases h with
  | write p rec hwritable hparent =>
    refine s.call_works (c := .write (pathString p) (requested rec)) (wp_discard _ |>.mpr ?_)
    exact works_write s.sound _ ((writable_iff s p).mp hwritable) (hview p hparent)
  | present p hwritable hfolder =>
    refine s.call_works (c := .mkdir (pathString p)) (wp_discard _ |>.mpr ?_)
    rw [mounted_tree, ← segments_pathString] at hfolder
    exact works_mkdir s.sound ((writable_iff s p).mp hwritable) (Or.inl hfolder)
  | mkdir p hwritable hnone hparent =>
    refine s.call_works (c := .mkdir (pathString p)) (wp_discard _ |>.mpr ?_)
    rw [mounted_tree, ← segments_pathString] at hnone
    exact works_mkdir s.sound ((writable_iff s p).mp hwritable) (Or.inr ⟨hnone, hview p hparent⟩)
  | remove p hwritable hthere hempty =>
    obtain ⟨found, hfound⟩ := hresolve p hthere
    have hguard := (writable_iff s p).mp hwritable
    obtain ⟨hway, hnode⟩ := resolve_some s.sound hfound
    refine s.call_works (c := .remove (pathString p)) ?_
    refine works_remove s.sound hguard (s.ne_root hguard) hfound fun hfolder x => ?_
    cases hx : entries s.fs found.1 x with
    | none => rfl
    | some i =>
      -- the entry has a name that a path may have, and its node is there
      obtain ⟨node, hchild⟩ := s.sound.present_child hx
      have hnone := hempty ⟨x, plain_iff.mp (s.named _ _ _ hx)⟩
      have hseen : seen s.fs found.1 x = some i := (seen_eq_entries hnode hfolder x).trans hx
      have hbelow : follow (seen s.fs) .root (names p ++ [x]) = some i :=
        follow_snoc_eq_some.mpr ⟨found.1, segments_pathString p ▸ hway, hseen⟩
      rw [mounted_tree, names_append] at hnone
      cases hnone.symm.trans (view_of_follow hbelow hchild)
  | move src dst hsrc hdst hthere hparent =>
    obtain ⟨found, hfound⟩ := hresolve src hthere
    have hguard := (writable_iff s src).mp hsrc
    refine s.call_works (c := .move (pathString src) (pathString dst)) (wp_discard _ |>.mpr ?_)
    exact works_move s.sound hguard ((writable_iff s dst).mp hdst) (s.ne_root hguard) hfound
      (hview dst hparent)

/-- Only what shows a folder has something below. -/
theorem mounted_nested (s : Mounted o) : ((mounted o).tree s).Nested := by
  intro p q n hle hne hq
  obtain ⟨rest, rfl⟩ := hle
  cases rest with
  | nil => exact absurd (List.append_nil p).symm hne
  | cons x rest =>
    rw [mounted_tree, names_append, view, follow_append] at hq
    obtain ⟨j, hj, -⟩ := Option.bind_eq_some_iff.mp hq
    obtain ⟨i, hi, hbelow⟩ := Option.bind_eq_some_iff.mp hj
    rw [names, List.map_cons, follow_cons] at hbelow
    obtain ⟨c, hc, -⟩ := Option.bind_eq_some_iff.mp hbelow
    obtain ⟨node, hnode, hfound⟩ := Option.bind_eq_some_iff.mp hc
    split_ifs at hfound with hfolder
    rw [mounted_tree, view_of_follow hi hnode, shown_eq_folder.mpr hfolder]

/-- Files and aliases have bytes, and nothing else does. -/
theorem mounted_bytes (s : Mounted o) (p : Vfs.Path) :
    (∃ bytes, (mounted o).readBlob s p = .ok bytes) ↔
      ∃ n, (mounted o).tree s p = some n ∧ n.isFolder = false := by
  cases hfound : resolve (pathString p) s.fs with
  | error e =>
    rw [resolve_sound s.sound] at hfound
    cases hfound
  | ok found =>
    cases found with
    | none =>
      have hread : (mounted o).readBlob s p = .error (.code .enoent) := by
        change (readBlob (pathString p) s.fs).mapError fault = _
        unfold readBlob
        rw [hfound]
        rfl
      rw [tree_none.mpr hfound, hread]
      simp
    | some found =>
      obtain ⟨hway, hnode⟩ := resolve_some s.sound hfound
      rw [segments_pathString] at hway
      rw [tree_some.mpr ⟨found, hfound, rfl⟩, mounted_readBlob hway hnode]
      simp only [Option.some.injEq, exists_eq_left', shown_isFolder]
      split_ifs with hfolder
      · simp [hfolder]
      · simp [hfolder]

theorem mounted_isTree (o : Options) : (mounted o).IsTree where
  answers s p := ⟨_, mounted_stat s p⟩
  bytes := mounted_bytes
  nested := mounted_nested
  rooted := by
    have hguard : Writable (Mounted.new o).fs (pathString []) → False := fun h =>
      (Mounted.new o).path_ne_nil h rfl
    rwa [← writable_iff, imp_false, Bool.not_eq_true] at hguard
  does := mounted_does
  works := mounted_works

/-- The in-memory file system meets what the server relies on. -/
theorem mounted_lawful (o : Options) : (mounted o).Lawful := (mounted_isTree o).lawful

end Tree

section Ids
variable {o : Options} {s t : Mounted o} {i : NodeId}

/-- A write keeps the node of its path. -/
theorem mounted_write_id {p : Vfs.Path} {rec : Vfs.VfsWriteRecord}
    (h : (mounted o).write s p rec = .ok t)
    (hi : follow (seen s.fs) .root (names p) = some i) :
    follow (seen t.fs) .root (names p) = some i ∧ Present t.fs i := by
  obtain ⟨hguard, j, hs⟩ := mounted_write_ok h
  obtain ⟨q, nd, ch, hp, hplace, hget⟩ := hs.parent
  have hat := place_pathString (s.path_ne_nil hguard)
  have hentry : ch.get (basename (pathString p)) = some i := by
    rw [← hp.way_place, hat, hi]
  obtain rfl : i = j := by
    rcases hplace with ⟨hj, -⟩ | ⟨hnone, -⟩
    · exact Option.some.inj (hentry.symm.trans hj)
    · cases hentry.symm.trans hnone
  constructor
  · rw [follow_stored s.sound hs (shown_requested _ rec _).2, hat, if_pos rfl]
  · rw [Present, hget, if_neg (hp.ne_child s.sound hentry), if_pos rfl]
    rfl

/-- A move carries the nodes at its path and below along, unless the path is moved below
itself. -/
theorem mounted_move_id {src dst rest : Vfs.Path} (h : (mounted o).move s src dst = .ok t)
    (hbelow : src <+: dst → src = dst)
    (hi : follow (seen s.fs) .root (names (src ++ rest)) = some i) (hthere : Present s.fs i) :
    follow (seen t.fs) .root (names (dst ++ rest)) = some i ∧ Present t.fs i := by
  obtain ⟨hsrc, hdst, j, hs⟩ := mounted_move_ok h
  have hroot := s.ne_root hsrc
  have harrive : follow (seen t.fs) .root (names (dst ++ rest)) = some i := by
    rw [follow_moved s.sound hs hroot, place_pathString (s.path_ne_nil hdst), segments_pathString,
      if_pos, names_append, List.drop_left, ← names_append, hi]
    refine ⟨names_append dst rest ▸ List.prefix_append _ _, fun hinto => hinto.2 ?_⟩
    exact congrArg names (hbelow (prefix_names_iff.mp hinto.1))
  refine ⟨harrive, ?_⟩
  have hkept := congrArg Option.isSome (shown_moved s.sound hs hroot harrive)
  rw [Option.isSome_map, Option.isSome_map] at hkept
  exact hkept.trans hthere

end Ids

end NixWasm.MemVfs
