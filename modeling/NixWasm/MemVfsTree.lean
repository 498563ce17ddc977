import NixWasm.MemVfsCalls

/-!
The in-memory file system is a tree. The nodes in the map are those that the root leads to,
through one entry each, and the folders are those with a map. Three kinds of calls break
this: a write over a folder that does not make a folder of it, the removal of an empty root,
and a move into what is moved or over a folder that has other children.
-/
namespace NixWasm.MemVfs

open Unicode NinepServer Effects Hierarchy Relation

/-- The nodes in the map are a tree of folders and leaves below the root. -/
structure Tree (fs : Fs) : Prop where
  root : ∃ node, fs.nodes.get .root = some node ∧ node.type = folderType
  reachable : ∀ i, Present fs i ↔ ReflTransGen (Child (entries fs)) .root i
  one_entry : ∀ i, Present fs i → i ≠ .root →
    ∃! place : NodeId × Utf16, entries fs place.1 place.2 = some i
  acyclic : ∀ i, ¬ TransGen (Child (entries fs)) i i
  folders : ∀ i node, fs.nodes.get i = some node →
    (node.type = folderType ↔ node.children.isSome = true)

/-- The ids that the counter has not given out yet are free. -/
def FreshIds (fs : Fs) : Prop := ∀ k, fs.seq < k → fs.nodes.get (.n k) = none

structure WellFormed (fs : Fs) : Prop where
  rooted : Rooted (Present fs) (entries fs) .root
  root : ∃ node, fs.nodes.get .root = some node ∧ node.type = folderType
  folders : ∀ i node, fs.nodes.get i = some node →
    (node.type = folderType ↔ node.children.isSome = true)
  fresh : FreshIds fs

section WellFormed
variable {fs : Fs}

theorem WellFormed.sound (h : WellFormed fs) : Sound fs :=
  ⟨h.rooted.toTidy, fun i node hnode hfolder => (h.folders i node hnode).mp hfolder, h.fresh⟩

theorem WellFormed.tree (h : WellFormed fs) : Tree fs := by
  refine ⟨h.root, fun i => ⟨fun hi => ?_, fun hi => ?_⟩, fun i hi hne => ?_, fun i hcycle => ?_,
    h.folders⟩
  · obtain ⟨path, hpath⟩ := h.rooted.reach i hi
    exact reaches_of_follow hpath
  · obtain ⟨path, hpath⟩ := follow_of_reaches hi
    exact h.rooted.mem_of_follow h.rooted.root_mem hpath
  · obtain ⟨j, x, hj⟩ := h.rooted.entry hi hne
    refine ⟨(j, x), hj, fun place hplace => ?_⟩
    obtain ⟨hnode, hname⟩ := h.rooted.once hplace hj
    exact Prod.ext hnode hname
  · obtain ⟨c, ⟨x, hc⟩, -⟩ := TransGen.head'_iff.mp hcycle
    obtain ⟨path, hpath⟩ := h.rooted.reach i (h.rooted.closed hc).1
    exact h.rooted.acyclic hpath hcycle

theorem Tree.wellFormed (h : Tree fs) (hfresh : FreshIds fs) : WellFormed fs := by
  have hpresent : ∀ {i c x}, entries fs i x = some c → Present fs i := by
    intro i c x hc
    unfold entries kids at hc
    obtain ⟨node, hnode, -⟩ := Option.bind_eq_some_iff.mp hc
    rw [Present, hnode]
    rfl
  have hroot : Present fs .root := by
    obtain ⟨node, hnode, -⟩ := h.root
    rw [Present, hnode]
    rfl
  have hfree : ∀ i x, entries fs i x ≠ some .root := by
    intro i x hi
    exact h.acyclic .root (TransGen.tail' ((h.reachable i).mp (hpresent hi)) ⟨x, hi⟩)
  have hclosed : ∀ {i c x}, entries fs i x = some c → Present fs c := fun {i c x} hc =>
    (h.reachable c).mpr (((h.reachable i).mp (hpresent hc)).tail ⟨x, hc⟩)
  refine ⟨⟨⟨⟨?_, hfree⟩, fun hc => ⟨hpresent hc, hclosed hc⟩⟩, hroot, fun i hi => ?_⟩, h.root,
    h.folders, hfresh⟩
  · intro i j x y c hi hj
    have hne : c ≠ .root := by
      rintro rfl
      exact hfree i x hi
    obtain ⟨place, -, honly⟩ := h.one_entry c (hclosed hi) hne
    have heq : (i, x) = (j, y) := (honly (i, x) hi).trans (honly (j, y) hj).symm
    exact Prod.mk.inj heq
  · exact follow_of_reaches ((h.reachable i).mp hi)

end WellFormed

/-- A write leaves a folder a folder, or makes a file of one without children; the root is
removed only when it is not empty, which throws; and a node is moved neither below itself
nor over a folder with other children than the node. Calls that throw are all admitted. -/
def KeepsTree (fs : Fs) : Call → Prop
  | .write path record => Writable fs path → ∀ p nd ch i node, ParentOf fs path p nd ch →
      ch.get (basename path) = some i → fs.nodes.get i = some node → node.type = folderType →
      recordType record = folderType ∨
        recordType record ≠ aliasType ∧ ∀ x, entries fs i x = none
  | .mkdir _ => True
  | .remove path => Writable fs path → segments path = [] → ∃ x c, entries fs .root x = some c
  | .move srcPath dstPath | .rename srcPath dstPath =>
      Writable fs srcPath → Writable fs dstPath → ∀ i p nd ch,
        follow (seen fs) .root (segments srcPath) = some i → ParentOf fs dstPath p nd ch →
        (segments srcPath <+: place dstPath → segments srcPath = place dstPath) ∧
          ∀ k, ch.get (basename dstPath) = some k → k = i ∨ ∀ x c, entries fs k x = some c → c = i

section Keeps
variable {fs fs' : Fs}

/-- A node is put into the tree that has the children of the one it takes the place of. -/
theorem WellFormed.stored (h : WellFormed fs) {path : Utf16} {i : NodeId} {node : MemNode}
    (hs : Stored path i node fs fs')
    (hkids : ∀ x, kids (some node) x = entries fs i x)
    (hfolder : node.type = folderType ↔ node.children.isSome = true) : WellFormed fs' := by
  obtain ⟨p, nd, ch, hp, hplace, hget⟩ := hs.parent
  have hsound := h.sound.stored hs (fun x c hc => (hkids x).symm.trans hc) hfolder.mp
  have hne := hp.ne_placed h.sound hplace
  have hentries : entries fs' = link (entries fs) p (basename path) i := by
    funext a x
    rw [entries_stored hp hne hget, link]
    refine if_congr Iff.rfl rfl ?_
    by_cases hi : a = i
    · rw [if_pos hi, hkids, hi]
    · rw [if_neg hi]
  have hpresent := present_stored hp hget
  have hroot : NodeId.root ≠ i := by
    rintro rfl
    rcases hplace with ⟨hi, -⟩ | ⟨-, heq, -⟩
    · exact h.rooted.free p _ ((hp.entry _).trans hi)
    · cases heq
  refine ⟨?_, ?_, fun j node' hj => ?_, hsound.fresh⟩
  · rw [hentries]
    rcases hplace with ⟨hi, -⟩ | ⟨hfree, rfl, -⟩
    · have hsame : link (entries fs) p (basename path) i = entries fs := by
        funext a x
        unfold link
        split_ifs with hat
        · rw [hat.1, hat.2, hp.entry, hi]
        · rfl
      have hnodes : Present fs' = Present fs := by
        funext j
        rw [hpresent]
        refine propext ⟨fun hj => hj.elim (fun hj => hj) ?_, Or.inl⟩
        rintro rfl
        exact (h.rooted.closed ((hp.entry _).trans hi)).2
      rw [hsame, hnodes]
      exact h.rooted
    · have hnodes : Present fs' = fun j => Present fs j ∨ j = .n (fs.seq + 1) :=
        funext fun j => propext (hpresent j)
      rw [hnodes]
      exact h.rooted.add hp.present ((hp.entry _).trans hfree) fun hnew =>
        h.sound.fresh_ne hnew rfl
  · obtain ⟨node', hnode', htype⟩ := h.root
    rw [hget, if_neg hroot]
    split_ifs
    · exact ⟨_, rfl, hp.isFolder⟩
    · exact ⟨node', hnode', htype⟩
  · rw [hget] at hj
    split_ifs at hj with hjp hji
    · obtain rfl := Option.some.inj hj
      exact iff_of_true hp.isFolder rfl
    · obtain rfl := Option.some.inj hj
      exact hfolder
    · exact h.folders j node' hj

theorem WellFormed.removed (h : WellFormed fs) {path : Utf16} {i : NodeId} {node : MemNode}
    (hs : Removed path i node fs fs') (hguard : Writable fs path)
    (hkeep : KeepsTree fs (.remove path)) : WellFormed fs' := by
  obtain ⟨p, nd, ch, hp, hget⟩ := hs.parent
  have hsound := h.sound.removed hs
  have hleaf : ∀ x, entries fs i x = none := by
    intro x
    unfold entries
    rw [hs.found]
    cases hch : node.children with
    | none => simp [kids, hch]
    | some own =>
      have hempty := hs.leaf ((h.folders i node hs.found).mpr (by rw [hch]; rfl))
      rw [hch, Option.map_some] at hempty
      rw [kids_some hch, JsMap.get, Option.some.inj hempty]
      rfl
  have hroot : segments path ≠ [] := by
    intro hnil
    obtain ⟨x, c, hc⟩ := hkeep hguard hnil
    have hway := hs.way
    rw [hnil] at hway
    rw [Option.some.inj hway, hleaf] at hc
    cases hc
  have hentry : entries fs p (basename path) = some i :=
    (hp.entry _).trans (hp.entry_of_way hs.way hroot)
  have hentries : entries fs' = unlink (entries fs) p (basename path) := by
    funext a x
    rw [entries_removed hp hget, unlink]
    split_ifs with hi hat hat
    · rfl
    · rw [hi, hleaf]
    · rfl
    · rfl
  have hnodes : Present fs' = fun j => Present fs j ∧ j ≠ i :=
    funext fun j => propext (present_removed hp hget j)
  refine ⟨?_, ?_, fun j node' hj => ?_, hsound.fresh⟩
  · rw [hentries, hnodes]
    exact h.rooted.prune hentry hleaf
  · obtain ⟨node', hnode', htype⟩ := h.root
    rw [hget, if_neg]
    · split_ifs
      · exact ⟨_, rfl, hp.isFolder⟩
      · exact ⟨node', hnode', htype⟩
    · rintro rfl
      exact h.rooted.free p _ hentry
  · rw [hget] at hj
    split_ifs at hj with hji hjp
    · obtain rfl := Option.some.inj hj
      exact iff_of_true hp.isFolder rfl
    · exact h.folders j node' hj

theorem WellFormed.moved (h : WellFormed fs) {srcPath dstPath : Utf16} {i : NodeId}
    (hs : Moved srcPath dstPath i fs fs') (hsrc : Writable fs srcPath) (hdst : Writable fs dstPath)
    (hkeep : KeepsTree fs (.move srcPath dstPath)) : WellFormed fs' := by
  obtain ⟨p₁, nd₁, ch₁, p₂, nd₂, ch₂, hp₁, hp₂, hget⟩ := hs.parents
  obtain ⟨hapart, hclash⟩ := hkeep hsrc hdst i p₂ nd₂ ch₂ hs.way hp₂
  have hroot : segments srcPath ≠ [] := by
    intro hnil
    exact place_ne_nil dstPath ((hapart (hnil ▸ List.nil_prefix)).symm.trans hnil)
  have hsound := h.sound.moved hs hroot
  have hway := follow_entries_of_seen hs.way
  have hentry : entries fs p₁ (basename srcPath) = some i :=
    (hp₁.entry _).trans (hp₁.entry_of_way hs.way hroot)
  have hnodes := funext fun j => propext (present_moved hp₂ hget j)
  refine ⟨?_, ?_, fun j node hj => ?_, hsound.fresh⟩
  · rw [hnodes, entries_moved h.sound hp₂ hget]
    refine h.rooted.move hentry hp₂.present (fun path hpath => ?_) fun k hk =>
      hclash k ((hp₂.entry _).symm.trans hk)
    · have hdir : segments srcPath ++ path = (segments dstPath).dropLast := by
        refine h.rooted.path_unique ?_ (follow_entries_of_seen hp₂.way)
        rw [follow_append_of hway]
        exact hpath
      have hprefix : segments srcPath <+: place dstPath :=
        ⟨path ++ [basename dstPath], by rw [place, ← hdir, List.append_assoc]⟩
      have hlen := congrArg List.length (hapart hprefix)
      rw [place, ← hdir, List.length_append, List.length_append, List.length_singleton] at hlen
      omega
  · obtain ⟨node, hnode, htype⟩ := h.root
    rw [hget, if_neg, hnode]
    · exact ⟨_, rfl, (relocated_type ..).trans htype⟩
    · exact fun hover => h.rooted.free p₂ _ ((hp₂.entry _).trans hover.1)
  · rw [hget] at hj
    split_ifs at hj
    obtain ⟨nd, hnd, rfl⟩ := Option.map_eq_some_iff.mp hj
    rw [relocated_type, relocated_children]
    exact h.folders j nd hnd

/-- The children of a node that a write of its own kind leaves as they are. -/
theorem WellFormed.kids_written (h : WellFormed fs) {path : Utf16} {record : VfsWriteRecord}
    {i : NodeId} (hstored : Stored path i (writeResult fs path record (fs.nodes.get i)) fs fs')
    (hguard : Writable fs path) (hkeep : KeepsTree fs (.write path record)) :
    (∀ x, kids (some (writeResult fs path record (fs.nodes.get i))) x = entries fs i x) ∧
      ((writeResult fs path record (fs.nodes.get i)).type = folderType ↔
        (writeResult fs path record (fs.nodes.get i)).children.isSome = true) := by
  unfold writeResult
  rw [written_type, written_children]
  unfold entries kids
  simp only [Option.bind_some, written_children]
  cases hnode : fs.nodes.get i with
  | none =>
    simp only [Option.getD_none, Option.bind_none]
    split_ifs with hfolder halias <;> simp [hfolder, JsMap.get_empty]
  | some node =>
    simp only [Option.getD_some, Option.bind_some]
    have hchildren : node.type ≠ folderType → node.children = none := by
      intro hne
      cases hch : node.children with
      | none => rfl
      | some ch => exact absurd ((h.folders i node hnode).mpr (by rw [hch]; rfl)) hne
    have hkept : node.type = folderType → recordType record = folderType ∨
        recordType record ≠ aliasType ∧ ∀ x, entries fs i x = none := by
      obtain ⟨p, nd, ch, hp, hplace, -⟩ := hstored.parent
      rcases hplace with ⟨hi, -⟩ | ⟨-, rfl, -⟩
      · exact hkeep hguard p nd ch i node hp hi hnode
      · rw [h.fresh _ (Nat.lt_succ_self _)] at hnode
        cases hnode
    by_cases hwas : node.type = folderType
    · rcases hkept hwas with hfolder | ⟨hnotAlias, hnone⟩
      · obtain ⟨ch, hch⟩ := Option.isSome_iff_exists.mp ((h.folders i node hnode).mp hwas)
        simp [hfolder, hch]
      · by_cases hfolder : recordType record = folderType
        · obtain ⟨ch, hch⟩ := Option.isSome_iff_exists.mp ((h.folders i node hnode).mp hwas)
          simp [hfolder, hch]
        · simp only [hfolder, hnotAlias, if_false]
          refine ⟨fun x => ?_, by simp⟩
          have hx := hnone x
          unfold entries kids at hx
          rw [hnode] at hx
          exact hx.symm
    · rw [hchildren hwas]
      split_ifs with hfolder halias <;> simp [hfolder, JsMap.get_empty]

theorem WellFormed.step (h : WellFormed fs) (call : Call) (hkeep : KeepsTree fs call) :
    WellFormed (step fs call) := by
  rcases step_cases h.sound call with hsame | hchanged
  · rwa [hsame]
  · cases hchanged with
    | written path rec i hguard hs given hrec =>
      have hkept : KeepsTree fs (.write path rec) := by
        rw [hrec]
        exact hkeep
      obtain ⟨hkids, hfolder⟩ := h.kids_written hs hguard hkept
      exact h.stored hs hkids hfolder
    | made path hguard hnone hs =>
      refine h.stored hs (fun x => ?_) (iff_of_true rfl rfl)
      unfold entries
      rw [h.fresh _ (Nat.lt_succ_self _)]
      exact kids_newFolder _ _ x
    | removed path i node hguard hs => exact h.removed hs hguard hkeep
    | moved srcPath dstPath i hsrc hdst hs call hcall =>
      refine h.moved hs hsrc hdst ?_
      rcases hcall with rfl | rfl
      · exact hkeep
      · exact hkeep

end Keeps

theorem wellFormed_new (readOnlyPrefixes : List Utf16) : WellFormed (new readOnlyPrefixes) := by
  have hget : ∀ i, (new readOnlyPrefixes).nodes.get i =
      if i = .root then some (rootNode 1700000001000) else none := by
    intro i
    rw [new, JsMap.get_set]
    rfl
  have hentries : ∀ i x, entries (new readOnlyPrefixes) i x = none := by
    intro i x
    unfold entries
    rw [hget]
    split_ifs <;> rfl
  have hpresent : ∀ {i}, Present (new readOnlyPrefixes) i → i = .root := by
    intro i hi
    unfold Present at hi
    rw [hget] at hi
    split_ifs at hi with hroot
    · exact hroot
    · cases hi
  refine ⟨⟨⟨⟨fun ha => ?_, fun i x ha => ?_⟩, fun ha => ?_⟩, rfl, fun i hi => ?_⟩,
    ⟨_, rfl, rfl⟩, fun i node hnode => ?_, fun k _ => ?_⟩
  · rw [hentries] at ha
    cases ha
  · rw [hentries] at ha
    cases ha
  · rw [hentries] at ha
    cases ha
  · exact ⟨[], congrArg some (hpresent hi).symm⟩
  · rw [hget] at hnode
    split_ifs at hnode
    rw [← Option.some.inj hnode]
    exact iff_of_true rfl rfl
  · rw [hget, if_neg]
    exact fun heq => by cases heq

/-- From any tree on, the state after calls that all keep the tree is a tree, and a call
that throws there changes nothing. -/
theorem tree_of_calls (fs : Fs) (htree : Tree fs) (hfresh : FreshIds fs) (calls : List Call)
    (hkeeps : Runs.Along KeepsTree step fs calls) :
    Tree (Runs.run step fs calls) ∧
      ∀ call e fs', perform call (Runs.run step fs calls) = .error e fs' →
        fs' = Runs.run step fs calls := by
  have hwell : WellFormed (Runs.run step fs calls) :=
    Runs.run_along WellFormed (fun s call hs hkeep => hs.step call hkeep) calls
      (htree.wellFormed hfresh) hkeeps
  exact ⟨hwell.tree, fun call e fs' hthrow => throws_unchanged hwell.sound hthrow⟩

theorem tree_of_two_calls :
    Tree (Runs.run step (new [])
      [.mkdir (ofString "/a"), .move (ofString "/a") (ofString "b/.")]) := by
  have hstart := wellFormed_new []
  refine (tree_of_calls (new []) hstart.tree hstart.fresh
    [.mkdir (ofString "/a"), .move (ofString "/a") (ofString "b/.")]
    ⟨trivial, fun _ _ i p nd ch _ hp => ⟨?_, fun k hk => ?_⟩, trivial⟩).1
  · decide +kernel
  · have hnone : follow (seen (step (new []) (.mkdir (ofString "/a")))) .root
        (place (ofString "b/.")) = none := by decide +kernel
    rw [hp.way_place, hk] at hnone
    cases hnone

/-- Three runs that leave no tree: the empty root removed, a symbolic link written over a
folder, a folder moved into itself. -/
theorem broken_trees :
    ¬ Tree (Runs.run step (new []) [.remove (ofString "/")]) ∧
    ¬ Tree (Runs.run step (new []) [.mkdir (ofString "/a"),
      .write (ofString "/a") ⟨some aliasType, none, none, none, some (ofString "b"), none⟩]) ∧
    ¬ Tree (Runs.run step (new []) [.mkdir (ofString "/a"),
      .move (ofString "/a") (ofString "/a/b")]) := by
  refine ⟨fun h => ?_, fun h => ?_, fun h => h.acyclic (.n 1) (TransGen.single ⟨ofString "b", ?_⟩)⟩
  · obtain ⟨node, hnode, -⟩ := h.root
    have hnone : (Runs.run step (new []) [.remove (ofString "/")]).nodes.get .root = none := by
      decide +kernel
    rw [hnone] at hnode
    cases hnode
  · have hlink : ((Runs.run step (new []) [.mkdir (ofString "/a"), .write (ofString "/a")
        ⟨some aliasType, none, none, none, some (ofString "b"), none⟩]).nodes.get (.n 1)).map
          (fun node => (decide (node.type = folderType), node.children.isSome)) =
        some (false, true) := by decide +kernel
    obtain ⟨node, hnode, hpair⟩ := Option.map_eq_some_iff.mp hlink
    have hfolder := (h.folders (.n 1) node hnode).mpr (congrArg Prod.snd hpair)
    exact of_decide_eq_false (congrArg Prod.fst hpair) hfolder
  · decide +kernel

end NixWasm.MemVfs
