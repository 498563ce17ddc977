import NixWasm.MemVfsReadOnly

/-!
Where every path leads after a call of the in-memory file system, and which calls are not
refused. What was written, made, removed or moved is all that a path can tell of a call:
beside it every way is the old one, and the other nodes are what they were, but for the
times and the maps of the folders.
-/
namespace NixWasm.MemVfs

open Unicode NinepServer Effects Hierarchy

section Ways
variable {fs fs' : Fs}

/-- Where paths lead once a node without visible children was put into the tree. -/
theorem follow_stored (h : Sound fs) {path : Utf16} {i : NodeId} {node : MemNode}
    (hs : Stored path i node fs fs') (hempty : ∀ x, looks (some node) x = none) (q : List Utf16) :
    follow (seen fs') .root q =
      if q = place path then some i
      else if place path <+: q then none
      else follow (seen fs) .root q := by
  by_cases hpq : place path <+: q
  · obtain ⟨p, nd, ch, hp, hplace, hget⟩ := hs.parent
    have hne := hp.ne_placed h hplace
    have hparent : follow (seen fs') .root (segments path).dropLast = some p :=
      (beside_stored h hs (snoc_not_le _ _)).trans hp.way
    have hput : seen fs' p (basename path) = some i := by
      rw [seen_stored hp hne hget, if_pos ⟨rfl, rfl⟩]
    have harrive : follow (seen fs') .root (place path) = some i :=
      follow_snoc_eq_some.mpr ⟨p, hparent, hput⟩
    obtain ⟨rest, rfl⟩ := hpq
    cases rest with
    | nil => rw [List.append_nil, harrive, if_pos rfl]
    | cons x rest =>
      have hnone : seen fs' i x = none := by
        rw [seen_stored hp hne hget, if_neg fun heq : i = p ∧ _ => hne heq.1, if_pos rfl, hempty]
      have hlong : place path ++ x :: rest ≠ place path := by simp
      rw [follow_append_of harrive, follow_cons, hnone, if_neg hlong,
        if_pos (List.prefix_append _ _)]
      rfl
  · have hne : q ≠ place path := fun heq => hpq (heq ▸ List.prefix_rfl)
    rw [beside_stored h hs hpq, if_neg hne, if_neg hpq]

/-- Where paths lead once a node was removed. -/
theorem follow_removed (h : Sound fs) {path : Utf16} {i : NodeId} {node : MemNode}
    (hs : Removed path i node fs fs') (hroot : segments path ≠ []) (q : List Utf16) :
    follow (seen fs') .root q =
      if segments path <+: q then none else follow (seen fs) .root q := by
  obtain ⟨p, nd, ch, hp, hget⟩ := hs.parent
  have hseen := seen_removed hp hget
  have hbeside : ∀ q, ¬ segments path <+: q →
      follow (seen fs') .root q = follow (seen fs) .root q := by
    intro q hq
    refine follow_congr fun a x b l hsplit hl => ?_
    rw [hseen, if_neg, if_neg]
    · rintro ⟨rfl, rfl⟩
      exact hq (place_eq hroot ▸ h.single_seen.path_of_entry hp.way hsplit hl ⟨rfl, rfl⟩)
    · rintro rfl
      exact hq ⟨x :: b, by rw [hsplit, h.single_seen.path_unique hl hs.way]⟩
  split_ifs with hpq
  · refine follow_none_below ?_ hpq
    rw [← place_eq hroot, place, follow_snoc, hbeside _ fun hle => ?_, hp.way, Option.bind_some,
      hseen]
    · split_ifs with hi hlast
      · rfl
      · rfl
      · exact absurd ⟨rfl, rfl⟩ hlast
    · have hlen := hle.length_le
      rw [List.length_dropLast] at hlen
      have hpos := List.length_pos_iff.mpr hroot
      omega
  · exact hbeside q hpq

/-- Where paths lead once a node was moved. -/
theorem follow_moved (h : Sound fs) {srcPath dstPath : Utf16} {i : NodeId}
    (hs : Moved srcPath dstPath i fs fs') (hsrc : segments srcPath ≠ []) (q : List Utf16) :
    follow (seen fs') .root q =
      if place dstPath <+: q ∧ ¬ (segments srcPath <+: place dstPath ∧
          segments srcPath ≠ place dstPath) then
        follow (seen fs) .root (segments srcPath ++ q.drop (place dstPath).length)
      else if segments srcPath <+: q then none
      else follow (seen fs) .root q := by
  obtain ⟨p₁, nd₁, ch₁, p₂, nd₂, ch₂, hp₁, hp₂, hget⟩ := hs.parents
  have hsingle := h.single_seen
  have hplace : (segments srcPath).dropLast ++ [basename srcPath] = segments srcPath :=
    place_eq hsrc
  have hentry : seen fs p₁ (basename srcPath) = some i :=
    (hp₁.seen _).trans (hp₁.entry_of_way hs.way hsrc)
  rw [seen_moved h hp₂ hget]
  split_ifs with hto hfrom
  · obtain ⟨⟨rest, rfl⟩, hinto⟩ := hto
    rw [List.drop_left, follow_append_of hs.way]
    refine hsingle.follow_relink_arrived hp₁.way hp₂.way hentry ?_ rest
    rw [hplace]
    intro hle
    refine hinto ⟨hle.trans (List.prefix_append _ _), fun heq => ?_⟩
    rw [heq, place] at hle
    exact snoc_not_le _ _ hle
  · refine hsingle.follow_relink_gone hp₁.way hp₂.way (hplace.symm ▸ hfrom) ?_
    rw [hplace]
    intro hback
    refine hto ⟨hback.trans hfrom, fun hinto => hinto.2 ?_⟩
    exact hinto.1.eq_of_length (Nat.le_antisymm hinto.1.length_le hback.length_le)
  · refine hsingle.follow_relink_beside hp₁.way hp₂.way (hplace.symm ▸ hfrom) fun hle => ?_
    exact hto ⟨hle, fun hinto => hfrom (hinto.1.trans hle)⟩

end Ways

section Views

/-- Anything but a folder or an alias is a byte file. -/
def kindOf (type : Utf16) : Vfs.Kind :=
  if type = folderType then .folder else if type = aliasType then .alias else .file

/-- What a node shows. -/
def shown (node : MemNode) : Vfs.Node :=
  match kindOf node.type with
  | .folder => .folder
  | .alias => .alias (node.target.getD []) (node.bytes.getD [])
  | .file => .file (node.bytes.getD [])

theorem kindOf_eq_folder {type : Utf16} : kindOf type = .folder ↔ type = folderType := by
  unfold kindOf
  split_ifs with hfolder
  · exact iff_of_true rfl hfolder
  · exact iff_of_false (fun h => by cases h) hfolder
  · exact iff_of_false (fun h => by cases h) hfolder

theorem shown_eq_folder {node : MemNode} : shown node = .folder ↔ node.type = folderType := by
  rw [← kindOf_eq_folder]
  unfold shown
  cases kindOf node.type <;> simp

theorem isFolder_iff (n : Vfs.Node) : n.isFolder = true ↔ n = .folder := by
  cases n <;> simp [Vfs.Node.isFolder]

theorem shown_isFolder (node : MemNode) :
    (shown node).isFolder = decide (node.type = folderType) := by
  rw [Bool.eq_iff_iff, isFolder_iff, shown_eq_folder, decide_eq_true_iff]

/-- What is at a path. -/
def view (fs : Fs) (q : List Utf16) : Option Vfs.Node :=
  (follow (seen fs) .root q).bind fun i => (fs.nodes.get i).map shown

variable {fs fs' : Fs}

theorem view_of_follow {q : List Utf16} {i : NodeId} {node : MemNode}
    (hq : follow (seen fs) .root q = some i) (hnode : fs.nodes.get i = some node) :
    view fs q = some (shown node) := by
  rw [view, hq, Option.bind_some, hnode, Option.map_some]

theorem view_stored (h : Sound fs) {path : Utf16} {i : NodeId} {node : MemNode}
    (hs : Stored path i node fs fs') (hempty : ∀ x, looks (some node) x = none) (q : List Utf16) :
    view fs' q =
      if q = place path then some (shown node)
      else if place path <+: q then none
      else view fs q := by
  unfold view
  rw [follow_stored h hs hempty]
  obtain ⟨p, nd, ch, hp, hplace, hget⟩ := hs.parent
  have hne := hp.ne_placed h hplace
  split_ifs with hat hbelow
  · rw [Option.bind_some, hget, if_neg hne, if_pos rfl, Option.map_some]
  · rfl
  · refine Option.bind_congr fun j hj => ?_
    have hji : j ≠ i := by
      rintro rfl
      exact hat (hp.way_placed h hplace hj)
    rw [hget, if_neg hji]
    split_ifs with hjp
    · rw [hjp, hp.found, Option.map_some, Option.map_some]
      rfl
    · rfl

theorem view_removed (h : Sound fs) {path : Utf16} {i : NodeId} {node : MemNode}
    (hs : Removed path i node fs fs') (hroot : segments path ≠ []) (q : List Utf16) :
    view fs' q = if segments path <+: q then none else view fs q := by
  unfold view
  rw [follow_removed h hs hroot]
  obtain ⟨p, nd, ch, hp, hget⟩ := hs.parent
  split_ifs with hbelow
  · rfl
  · refine Option.bind_congr fun j hj => ?_
    have hji : j ≠ i := by
      rintro rfl
      exact hbelow (h.single_seen.path_unique hj hs.way ▸ List.prefix_rfl)
    rw [hget, if_neg hji]
    split_ifs with hjp
    · rw [hjp, hp.found, Option.map_some, Option.map_some]
      rfl
    · rfl

theorem shown_relocated (i p₁ p₂ : NodeId) (x₁ x₂ : Utf16) (t : ℕ) (j : NodeId) (nd : MemNode) :
    shown (relocated i p₁ p₂ x₁ x₂ t j nd) = shown nd := by
  unfold relocated
  split_ifs <;> rfl

/-- A node that a path leads to after a move shows what it showed. -/
theorem shown_moved (h : Sound fs) {srcPath dstPath : Utf16} {i : NodeId}
    (hs : Moved srcPath dstPath i fs fs') (hsrc : segments srcPath ≠ []) {q : List Utf16}
    {j : NodeId} (hj : follow (seen fs') .root q = some j) :
    (fs'.nodes.get j).map shown = (fs.nodes.get j).map shown := by
  have hthere : q ≠ [] → Present fs' j := fun hne => (h.moved hs hsrc).present_of_follow hne hj
  obtain ⟨p₁, nd₁, ch₁, p₂, nd₂, ch₂, -, hp₂, hget⟩ := hs.parents
  have hover : ¬ (ch₂.get (basename dstPath) = some j ∧ j ≠ i) := by
    intro hover
    by_cases hnil : q = []
    · rw [hnil] at hj
      obtain rfl : NodeId.root = j := Option.some.inj hj
      exact h.tidy.free p₂ _ ((hp₂.entry _).trans hover.1)
    · have hgone := hthere hnil
      rw [Present, hget, if_pos hover] at hgone
      cases hgone
  rw [hget, if_neg hover, Option.map_map]
  exact congrArg (Option.map · (fs.nodes.get j)) (funext fun nd => shown_relocated ..)

theorem view_moved (h : Sound fs) {srcPath dstPath : Utf16} {i : NodeId}
    (hs : Moved srcPath dstPath i fs fs') (hsrc : segments srcPath ≠ []) (q : List Utf16) :
    view fs' q =
      if place dstPath <+: q ∧ ¬ (segments srcPath <+: place dstPath ∧
          segments srcPath ≠ place dstPath) then
        view fs (segments srcPath ++ q.drop (place dstPath).length)
      else if segments srcPath <+: q then none
      else view fs q := by
  have hnodes : view fs' q = (follow (seen fs') .root q).bind fun j =>
      (fs.nodes.get j).map shown :=
    Option.bind_congr fun j hj => shown_moved h hs hsrc hj
  rw [hnodes, follow_moved h hs hsrc]
  split_ifs <;> rfl

end Views

section Working
variable {fs : Fs}

/-- The program returns. -/
abbrev Works {α : Type} (x : Op α) (fs : Fs) : Prop := Wp x (fun _ _ => True) (fun _ _ => False) fs

theorem works_of_wp {α : Type} {x : Op α} {Q : α → Fs → Prop}
    (h : Wp x Q (fun _ _ => False) fs) : Works x fs :=
  h.mono (fun _ _ _ => trivial) fun _ _ hfalse => hfalse

theorem works_read {α β : Type} {f : Fs → Except Thrown α} {k : α → Op β} {a : α}
    (hf : f fs = .ok a) (hk : Works (k a) fs) : Works (read f >>= k) fs := by
  rw [Works, wp_bind, wp_read, hf]
  exact ⟨fun _ heq => Except.ok.inj heq ▸ hk, fun _ heq => by cases heq⟩

theorem works_edit {α : Type} {o : Found} {f : JsMap Utf16 NodeId → JsMap Utf16 NodeId}
    {k : Unit → Op α} {ch : JsMap Utf16 NodeId} (hread : children o fs = .ok ch)
    (hk : Works (k ()) (alter o.1 (fun node => { node with children := node.children.map f }) fs)) :
    Works (editChildren o f >>= k) fs := by
  rw [Works, wp_bind]
  exact wp_editChildren hread hk

theorem assert_of_writable {path : Utf16} (h : Writable fs path) (op : String) :
    assertWritable op path fs = .ok () := by
  unfold assertWritable
  rw [Writable] at h
  simp only [h, Bool.false_eq_true, if_false]

theorem ParentOf.parentFolder (hs : Sound fs) {path : Utf16} {p : NodeId} {node : MemNode}
    {ch : JsMap Utf16 NodeId} (h : ParentOf fs path p node ch) :
    parentFolder path fs = .ok (p, node) := by
  have hresolve : resolve (dirname path) fs = .ok (some (p, node)) := by
    rw [resolve_sound hs, segments_dirname, h.way, Option.bind_some, h.found]
    rfl
  unfold MemVfs.parentFolder
  rw [hresolve]
  simp only [bind, Except.bind]
  rw [if_neg (not_not.mpr h.isFolder)]
  rfl

/-- A path that shows a folder is the parent of paths below it. -/
theorem parentOf_of_view (hs : Sound fs) {path : Utf16}
    (h : view fs (segments path).dropLast = some .folder) :
    ∃ p node ch, ParentOf fs path p node ch := by
  obtain ⟨p, hp, hview⟩ := Option.bind_eq_some_iff.mp h
  obtain ⟨node, hnode, hshown⟩ := Option.map_eq_some_iff.mp hview
  have hfolder := shown_eq_folder.mp hshown
  obtain ⟨ch, hch⟩ := Option.isSome_iff_exists.mp (hs.folders p node hnode hfolder)
  exact ⟨p, node, ch, hp, hnode, hfolder, hch⟩

theorem ParentOf.view {path : Utf16} {p : NodeId} {node : MemNode} {ch : JsMap Utf16 NodeId}
    (h : ParentOf fs path p node ch) : view fs (segments path).dropLast = some .folder := by
  rw [view_of_follow h.way h.found, shown_eq_folder.mpr h.isFolder]

theorem resolve_of_view (hs : Sound fs) {path : Utf16} :
    (view fs (segments path) = none ↔ resolve path fs = .ok none) ∧
      ∀ n, view fs (segments path) = some n ↔
        ∃ o, resolve path fs = .ok (some o) ∧ shown o.2 = n := by
  rw [resolve_sound hs]
  unfold MemVfs.view
  cases follow (seen fs) .root (segments path) with
  | none => simp
  | some i => cases hnode : fs.nodes.get i <;> simp [hnode]

/-- The end of a write, when its node is not the folder it is put into. -/
theorem works_put {path name : Utf16} {rec : VfsWriteRecord} {p : NodeId} {node : MemNode}
    {ch : JsMap Utf16 NodeId} (hp : fs.nodes.get p = some node) (hch : node.children = some ch)
    (o : Found) (hne : p ≠ o.1) :
    Works (do
      let modifiedAt ← tick
      let node' := (o.1, written o.2 rec modifiedAt)
      modify (put node'.1 node'.2)
      editChildren (p, node) (·.set name node'.1)
      return record node' path) fs := by
  simp only [Works, tick, wp_bind, wp_modify, wp_get, wp_pure]
  refine wp_editChildren (children_of_get ?_ hch) trivial
  change ((fs.nodes.set o.1 _).get p) = some node
  rw [JsMap.get_set_of_ne _ _ hne, hp]

theorem works_write (hs : Sound fs) {path : Utf16} (rec : VfsWriteRecord)
    (hwritable : Writable fs path)
    (hparent : MemVfs.view fs (segments path).dropLast = some .folder) :
    Works (write path rec) fs := by
  obtain ⟨p, node, ch, hp⟩ := parentOf_of_view hs hparent
  refine works_read (assert_of_writable hwritable _) ?_
  unfold writeSync
  refine works_read (hp.parentFolder hs) (works_read (children_of_get hp.found hp.has) ?_)
  unfold writeTarget
  cases hget : ch.get (basename path) with
  | some i =>
    obtain ⟨old, hold⟩ := hs.present_child ((hp.entry _).trans hget)
    have hat : nodeAt i fs = .ok (i, old) := by
      unfold nodeAt
      rw [hold]
    exact works_read hat (works_put hp.found hp.has (i, old) (hp.ne_child hs hget).symm)
  | none =>
    simp only [Works, freshId, tick, wp_bind, wp_modify, wp_get, wp_pure]
    refine wp_editChildren (children_of_get ?_ hp.has) trivial
    change ((fs.nodes.set (.n (fs.seq + 1)) _).get p) = some node
    rw [JsMap.get_set_of_ne _ _ (hs.fresh_ne hp.present).symm, hp.found]

theorem works_mkdir (hs : Sound fs) {path : Utf16} (hwritable : Writable fs path)
    (h : MemVfs.view fs (segments path) = some .folder ∨
      MemVfs.view fs (segments path) = none ∧
        MemVfs.view fs (segments path).dropLast = some .folder) :
    Works (mkdir path) fs := by
  refine works_read (assert_of_writable hwritable _) ?_
  unfold mkdirSync
  rcases h with hfolder | ⟨hnone, hparent⟩
  · obtain ⟨o, ho, hshown⟩ := ((resolve_of_view hs).2 _).mp hfolder
    refine works_read ho ?_
    simp only
    rw [if_pos (shown_eq_folder.mp hshown)]
    trivial
  · obtain ⟨p, node, ch, hp⟩ := parentOf_of_view hs hparent
    refine works_read ((resolve_of_view hs).1.mp hnone) (works_read (hp.parentFolder hs) ?_)
    simp only [Works, freshId, tick, wp_bind, wp_modify, wp_get, wp_pure]
    refine wp_editChildren (children_of_get ?_ hp.has) trivial
    change ((fs.nodes.set (.n (fs.seq + 1)) _).get p) = some node
    rw [JsMap.get_set_of_ne _ _ (hs.fresh_ne hp.present).symm, hp.found]

/-- A node resolved by a path other than the root's is in a folder. -/
theorem parentOf_of_resolve (hs : Sound fs) {path : Utf16} {o : Found}
    (hroot : segments path ≠ []) (ho : resolve path fs = .ok (some o)) :
    ∃ p node ch, ParentOf fs path p node ch := by
  have hway := (resolve_some hs ho).1
  rw [← place_eq hroot, place, follow_snoc_eq_some] at hway
  obtain ⟨p, hp, hlast⟩ := hway
  obtain ⟨node, hnode, hchild⟩ := Option.bind_eq_some_iff.mp hlast
  split_ifs at hchild with hfolder
  obtain ⟨ch, hch⟩ := Option.isSome_iff_exists.mp (hs.folders p node hnode hfolder)
  exact ⟨p, node, ch, hp, hnode, hfolder, hch⟩

theorem works_remove (hs : Sound fs) {path : Utf16} (hwritable : Writable fs path)
    (hroot : segments path ≠ []) {o : Found} (ho : resolve path fs = .ok (some o))
    (hempty : o.2.type = folderType → ∀ x, entries fs o.1 x = none) :
    Works (remove path) fs := by
  obtain ⟨p, node, ch, hp⟩ := parentOf_of_resolve hs hroot ho
  have hfull : isFull o fs = .ok false := by
    unfold isFull
    split_ifs with hfolder
    · obtain ⟨own, hown⟩ := Option.isSome_iff_exists.mp
        (hs.folders _ _ (resolve_some hs ho).2 hfolder)
      have hnone : own.entries = [] := JsMap.entries_eq_nil fun x => by
        have hx := hempty hfolder x
        rwa [entries, (resolve_some hs ho).2, kids_some hown] at hx
      rw [children_of_get (resolve_some hs ho).2 hown]
      simp [bind, Except.bind, hnone, pure, Except.pure]
    · rfl
  refine works_read (assert_of_writable hwritable _) (works_read ho ?_)
  refine works_read hfull ?_
  simp only [Bool.false_eq_true, if_false]
  refine works_read (hp.parentFolder hs) (works_edit (children_of_get hp.found hp.has) trivial)

theorem works_move (hs : Sound fs) {srcPath dstPath : Utf16} (hsrc : Writable fs srcPath)
    (hdst : Writable fs dstPath) (hroot : segments srcPath ≠ []) {o : Found}
    (ho : resolve srcPath fs = .ok (some o))
    (hparent : MemVfs.view fs (segments dstPath).dropLast = some .folder) :
    Works (move srcPath dstPath) fs := by
  obtain ⟨p₁, nd₁, ch₁, hp₁⟩ := parentOf_of_resolve hs hroot ho
  obtain ⟨p₂, nd₂, ch₂, hp₂⟩ := parentOf_of_view hs hparent
  refine works_read (assert_of_writable hsrc _) (works_read (assert_of_writable hdst _) ?_)
  refine works_read ho (works_read (hp₁.parentFolder hs) (works_read (hp₂.parentFolder hs) ?_))
  refine works_read (children_of_get hp₂.found hp₂.has) ?_
  obtain ⟨hway, hfound⟩ := resolve_some hs ho
  obtain ⟨hfree, htaken⟩ := clash_cases fun fs₁ hseq hro hclock hget =>
    works_of_wp (wp_moveInto (p₁, nd₁) (p₂, nd₂) hway hfound hp₁ hp₂ fs₁ hseq hro hclock hget)
  cases hclash : ch₂.get (basename dstPath) with
  | none => exact hfree hclash
  | some k =>
    obtain ⟨hother, hsame⟩ := htaken k hclash
    simp only
    split_ifs with hne
    · exact hother hne
    · exact hsame (not_not.mp hne)

end Working

end NixWasm.MemVfs
