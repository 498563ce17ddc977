import NixWasm.Hierarchy
import NixWasm.MemVfsPaths

/-!
What the calls of the in-memory file system do to the tree. In a sound state, where a
folder has its map and no node two entries, the walk along a path only reads, and each
call either throws with nothing changed or has one of four effects: a folder is made, a
record is written, a node is removed, a node is moved.
-/
namespace NixWasm.MemVfs

open Unicode NinepServer Effects Hierarchy

section View

/-- The children of a node that was looked up. -/
def kids (node : Option MemNode) (x : Utf16) : Option NodeId :=
  node.bind fun node => node.children.bind (·.get x)

/-- All entries of children maps. -/
def entries (fs : Fs) : Entries NodeId Utf16 := fun i => kids (fs.nodes.get i)

/-- The entries that a walk sees: those of folders. -/
def seen (fs : Fs) : Entries NodeId Utf16 := fun i x =>
  (fs.nodes.get i).bind fun node =>
    if node.type = folderType then node.children.bind (·.get x) else none

def Present (fs : Fs) (i : NodeId) : Prop := (fs.nodes.get i).isSome = true

/-- What holds of every tree that calls make, the root being left in its place. -/
structure Sound (fs : Fs) : Prop where
  tidy : Tidy (Present fs) (entries fs) .root
  folders : ∀ i node, fs.nodes.get i = some node → node.type = folderType →
    node.children.isSome = true
  fresh : ∀ k, fs.seq < k → fs.nodes.get (.n k) = none

theorem entries_of_seen {fs : Fs} {i c : NodeId} {x : Utf16} (h : seen fs i x = some c) :
    entries fs i x = some c := by
  unfold seen at h
  unfold entries kids
  rw [Option.bind_eq_some_iff] at h ⊢
  obtain ⟨node, hnode, h⟩ := h
  split_ifs at h
  exact ⟨node, hnode, h⟩

theorem seen_eq_entries {fs : Fs} {i : NodeId} {node : MemNode} (hnode : fs.nodes.get i = some node)
    (hfolder : node.type = folderType) (x : Utf16) : seen fs i x = entries fs i x := by
  unfold seen entries kids
  rw [hnode, Option.bind_some, Option.bind_some, if_pos hfolder]

theorem follow_entries_of_seen {fs : Fs} {i j : NodeId} {path : List Utf16}
    (h : follow (seen fs) i path = some j) : follow (entries fs) i path = some j :=
  follow_mono entries_of_seen h

theorem Sound.single_seen {fs : Fs} (h : Sound fs) : Single (seen fs) .root :=
  ⟨fun ha hb => h.tidy.once (entries_of_seen ha) (entries_of_seen hb),
    fun i x ha => h.tidy.free i x (entries_of_seen ha)⟩

theorem Sound.present_child {fs : Fs} (h : Sound fs) {i c : NodeId} {x : Utf16}
    (hc : entries fs i x = some c) : ∃ node, fs.nodes.get c = some node :=
  Option.isSome_iff_exists.mp (h.tidy.closed hc).2

end View

section Walk

/-- In a sound state the walk only reads. -/
theorem walk_eq {fs : Fs} (h : Sound fs) (i : NodeId) (segs : List Utf16) :
    walk fs i segs =
      .ok ((follow (seen fs) i segs).bind fun j => (fs.nodes.get j).map fun node => (j, node)) := by
  induction segs generalizing i with
  | nil => rfl
  | cons seg segs ih =>
    rw [walk, follow_cons]
    cases hcur : fs.nodes.get i with
    | none => simp [seen, hcur]
    | some cur =>
      by_cases hfolder : cur.type = folderType
      · obtain ⟨ch, hch⟩ := Option.isSome_iff_exists.mp (h.folders i cur hcur hfolder)
        have hseen : seen fs i seg = ch.get seg := by
          simp [seen, hcur, hfolder, hch]
        have hread : childrenOf i cur = .ok ch := by
          unfold childrenOf
          rw [hch]
        rw [hseen]
        simp only [hfolder, ne_eq, not_true_eq_false, if_false, hread]
        cases hget : ch.get seg with
        | none => simp [bind, Except.bind, hget, pure, Except.pure]
        | some c => simp [bind, Except.bind, hget, ih]
      · simp [seen, hcur, hfolder]

theorem resolve_sound {fs : Fs} (h : Sound fs) (path : Utf16) :
    resolve path fs = .ok ((follow (seen fs) .root (segments path)).bind fun j =>
      (fs.nodes.get j).map fun node => (j, node)) := by
  rw [resolve_eq, walk_eq h]

theorem resolve_some {fs : Fs} (h : Sound fs) {path : Utf16} {o : Found}
    (hr : resolve path fs = .ok (some o)) :
    follow (seen fs) .root (segments path) = some o.1 ∧ fs.nodes.get o.1 = some o.2 := by
  rw [resolve_sound h] at hr
  obtain ⟨j, hj, ho⟩ := Option.bind_eq_some_iff.mp (Except.ok.inj hr)
  obtain ⟨node, hnode, rfl⟩ := Option.map_eq_some_iff.mp ho
  exact ⟨hj, hnode⟩

/-- The folder that the place of a path is in. -/
structure ParentOf (fs : Fs) (path : Utf16) (p : NodeId) (node : MemNode)
    (ch : JsMap Utf16 NodeId) : Prop where
  way : follow (seen fs) .root (segments path).dropLast = some p
  found : fs.nodes.get p = some node
  isFolder : node.type = folderType
  has : node.children = some ch

theorem parentFolder_ok {fs : Fs} (h : Sound fs) {path : Utf16} {o : Found}
    (hp : parentFolder path fs = .ok o) : ∃ ch, ParentOf fs path o.1 o.2 ch := by
  unfold parentFolder at hp
  cases hr : resolve (dirname path) fs with
  | error e =>
    rw [hr] at hp
    cases hp
  | ok r =>
    rw [hr] at hp
    cases r with
    | none => cases hp
    | some found =>
      simp only [bind, Except.bind] at hp
      split_ifs at hp with hfolder
      obtain rfl : found = o := Except.ok.inj hp
      rw [ne_eq, not_not] at hfolder
      obtain ⟨hway, hnode⟩ := resolve_some h hr
      rw [segments_dirname] at hway
      obtain ⟨ch, hch⟩ := Option.isSome_iff_exists.mp (h.folders _ _ hnode hfolder)
      exact ⟨ch, hway, hnode, hfolder, hch⟩

section ParentOf
variable {fs : Fs} {path : Utf16} {p : NodeId} {node : MemNode} {ch : JsMap Utf16 NodeId}

theorem ParentOf.entry (h : ParentOf fs path p node ch) (x : Utf16) :
    entries fs p x = ch.get x := by
  unfold entries kids
  rw [h.found, Option.bind_some, h.has, Option.bind_some]

theorem ParentOf.seen (h : ParentOf fs path p node ch) (x : Utf16) : seen fs p x = ch.get x := by
  rw [seen_eq_entries h.found h.isFolder, h.entry]

theorem ParentOf.way_place (h : ParentOf fs path p node ch) :
    follow (MemVfs.seen fs) .root (place path) = ch.get (basename path) := by
  rw [place, follow_snoc, h.way, Option.bind_some, h.seen]

theorem ParentOf.present (h : ParentOf fs path p node ch) : Present fs p := by
  rw [Present, h.found]
  rfl

/-- No folder is a child of its own. -/
theorem ParentOf.ne_child (h : ParentOf fs path p node ch) (hs : Sound fs) {x : Utf16} {i : NodeId}
    (hi : ch.get x = some i) : i ≠ p := by
  rintro rfl
  refine hs.tidy.acyclic (follow_entries_of_seen h.way) ?_
  exact Relation.TransGen.single ⟨x, (h.entry x).trans hi⟩

end ParentOf

end Walk

section Effects

@[simp] theorem wp_read {α : Type} (f : Fs → Except Thrown α) {Q : α → Fs → Prop}
    {R : Thrown → Fs → Prop} {fs : Fs} :
    Wp (read f) Q R fs ↔ (∀ a, f fs = .ok a → Q a fs) ∧ (∀ e, f fs = .error e → R e fs) := by
  unfold Wp read
  cases hf : f fs with
  | ok a => simp
  | error e => simp

theorem children_of_get {fs : Fs} {o : Found} {node : MemNode} {ch : JsMap Utf16 NodeId}
    (hnode : fs.nodes.get o.1 = some node) (hch : node.children = some ch) :
    children o fs = .ok ch := by
  unfold children now childrenOf
  rw [hnode, Option.getD_some, hch]

theorem get_alter (i : NodeId) (f : MemNode → MemNode) (fs : Fs) (j : NodeId) :
    (alter i f fs).nodes.get j = if j = i then (fs.nodes.get j).map f else fs.nodes.get j := by
  unfold alter
  split
  · rename_i node hnode
    rw [put, JsMap.get_set]
    split_ifs with hji
    · rw [hji, hnode]
      rfl
    · rfl
  · rename_i hnone
    split_ifs with hji
    · rw [hji, hnone]
      rfl
    · rfl

@[simp] theorem seq_alter (i : NodeId) (f : MemNode → MemNode) (fs : Fs) :
    (alter i f fs).seq = fs.seq := by
  unfold alter
  split <;> rfl

@[simp] theorem clock_alter (i : NodeId) (f : MemNode → MemNode) (fs : Fs) :
    (alter i f fs).clock = fs.clock := by
  unfold alter
  split <;> rfl

@[simp] theorem readOnly_alter (i : NodeId) (f : MemNode → MemNode) (fs : Fs) :
    (alter i f fs).readOnly = fs.readOnly := by
  unfold alter
  split <;> rfl

/-- An edit of a folder's map that the object in the map still has. -/
theorem wp_editChildren {fs : Fs} {o : Found} {f : JsMap Utf16 NodeId → JsMap Utf16 NodeId}
    {Q : Unit → Fs → Prop} {R : Thrown → Fs → Prop} {ch : JsMap Utf16 NodeId}
    (hread : children o fs = .ok ch)
    (hQ : Q () (alter o.1 (fun node => { node with children := node.children.map f }) fs)) :
    Wp (editChildren o f) Q R fs := by
  unfold editChildren
  simp only [wp_bind, wp_read, wp_modify, hread]
  refine ⟨fun _ _ => hQ, fun e he => ?_⟩
  cases he

end Effects

/-- A node of which only the children in `node` are new to the tree, put where `path` says:
the node that is there, or a new one. -/
structure Stored (path : Utf16) (i : NodeId) (node : MemNode) (fs fs' : Fs) : Prop where
  parent : ∃ p nd ch, ParentOf fs path p nd ch ∧
    (ch.get (basename path) = some i ∧ fs'.seq = fs.seq ∨
      ch.get (basename path) = none ∧ i = .n (fs.seq + 1) ∧ fs'.seq = fs.seq + 1) ∧
    ∀ j, fs'.nodes.get j =
      if j = p then some { nd with children := some (ch.set (basename path) i) }
      else if j = i then some node
      else fs.nodes.get j
  readOnly : fs'.readOnly = fs.readOnly

/-- The two steps that put a node into the tree, after the counters have moved on. -/
theorem wp_store {fs : Fs} (fs₁ : Fs) {o : Found} (i : NodeId) (node : MemNode) (name : Utf16)
    {ch : JsMap Utf16 NodeId} {Q : Unit → Fs → Prop} {R : Thrown → Fs → Prop}
    (hnodes : fs₁.nodes = fs.nodes) (hfound : fs.nodes.get o.1 = some o.2)
    (hch : o.2.children = some ch) (hne : i ≠ o.1)
    (hQ : ∀ fs', fs'.seq = fs₁.seq → fs'.readOnly = fs₁.readOnly →
      (∀ j, fs'.nodes.get j =
        if j = o.1 then some { o.2 with children := some (ch.set name i) }
        else if j = i then some node
        else fs.nodes.get j) → Q () fs') :
    Wp (do modify (put i node); editChildren o (·.set name i)) Q R fs₁ := by
  have hput : ∀ j, (put i node fs₁).nodes.get j = if j = i then some node else fs.nodes.get j := by
    intro j
    rw [put, JsMap.get_set, hnodes]
  have hparent : (put i node fs₁).nodes.get o.1 = some o.2 := by
    rw [hput, if_neg hne.symm, hfound]
  rw [wp_bind, wp_modify]
  refine wp_editChildren (children_of_get hparent hch) (hQ _ ?_ ?_ fun j => ?_)
  · rw [seq_alter]
    rfl
  · rw [readOnly_alter]
    rfl
  · rw [get_alter]
    by_cases hj : j = o.1
    · rw [if_pos hj, if_pos hj, hj, hparent, Option.map_some, hch, Option.map_some]
    · rw [if_neg hj, if_neg hj, hput]

/-- A name that does not resolve, in a folder that does, is free. -/
theorem ParentOf.free_of_unresolved {fs : Fs} (hs : Sound fs) {path : Utf16} {p : NodeId}
    {node : MemNode} {ch : JsMap Utf16 NodeId} (h : ParentOf fs path p node ch)
    (hr : resolve path fs = .ok none) : ch.get (basename path) = none := by
  rw [resolve_sound hs] at hr
  have hnone := Except.ok.inj hr
  by_cases hroot : segments path = []
  · have hway := h.way
    rw [hroot] at hway hnone
    obtain rfl : NodeId.root = p := Option.some.inj hway
    have hfound := h.found
    rw [follow_nil, Option.bind_some, hfound] at hnone
    cases hnone
  · rw [← place_eq hroot, h.way_place] at hnone
    cases hget : ch.get (basename path) with
    | none => rfl
    | some c =>
      obtain ⟨child, hchild⟩ := hs.present_child ((h.entry _).trans hget)
      rw [hget, Option.bind_some, hchild] at hnone
      cases hnone

def newFolder (name : Utf16) (modifiedAt : ℕ) : MemNode :=
  ⟨folderType, name, modifiedAt, some .empty, none, none, none⟩

theorem Sound.fresh_ne {fs : Fs} (h : Sound fs) {i : NodeId} (hi : Present fs i) :
    NodeId.n (fs.seq + 1) ≠ i := by
  rintro rfl
  rw [Present, h.fresh _ (Nat.lt_succ_self _)] at hi
  cases hi

/-- What is stored in a folder is not that folder. -/
theorem ParentOf.ne_placed {fs : Fs} {path x : Utf16} {i p : NodeId} {node : MemNode}
    {ch : JsMap Utf16 NodeId} {seq : ℕ} (hp : ParentOf fs path p node ch) (h : Sound fs)
    (hplace : ch.get x = some i ∧ seq = fs.seq ∨
      ch.get x = none ∧ i = .n (fs.seq + 1) ∧ seq = fs.seq + 1) : i ≠ p := by
  rcases hplace with ⟨hi, -⟩ | ⟨-, rfl, -⟩
  · exact hp.ne_child h hi
  · exact h.fresh_ne hp.present

/-- The path leads to a folder. -/
def IsFolder (fs : Fs) (path : Utf16) : Prop :=
  ∃ o, resolve path fs = .ok (some o) ∧ o.2.type = folderType

theorem wp_mkdirSync {fs : Fs} (h : Sound fs) (path : Utf16) :
    Wp (mkdirSync path)
      (fun _ fs' => fs' = fs ∧ IsFolder fs path ∨ resolve path fs = .ok none ∧
        Stored path (.n (fs.seq + 1)) (newFolder (basename path) (fs.clock + 1000)) fs fs')
      (fun _ fs' => fs' = fs) fs := by
  unfold mkdirSync
  rw [wp_bind, wp_read]
  refine ⟨fun r hr => ?_, fun _ _ => rfl⟩
  cases r with
  | some existing =>
    simp only [wp_ite, wp_pure, wp_throw]
    exact ⟨fun hfolder => Or.inl ⟨trivial, existing, hr, hfolder⟩, fun _ => trivial⟩
  | none =>
    simp only [wp_bind, wp_read]
    refine ⟨fun o ho => ?_, fun _ _ => trivial⟩
    obtain ⟨ch, hparent⟩ := parentFolder_ok h ho
    simp only [freshId, tick, wp_bind, wp_modify, wp_get, wp_pure]
    let node := newFolder (basename path) (fs.clock + 1000)
    have hstore := wp_store { fs with seq := fs.seq + 1, clock := fs.clock + 1000 }
      (.n (fs.seq + 1)) node (basename path)
      (Q := fun _ fs' => Stored path (.n (fs.seq + 1)) node fs fs') (R := fun _ fs' => fs' = fs)
      rfl hparent.found hparent.has (h.fresh_ne hparent.present) fun fs' hseq hro hget =>
        ⟨⟨o.1, o.2, ch, hparent, Or.inr ⟨hparent.free_of_unresolved h hr, rfl, hseq⟩, hget⟩, hro⟩
    rw [wp_bind, wp_modify] at hstore
    exact hstore.mono (fun _ fs' hstored => Or.inr ⟨hr, hstored⟩) fun _ _ he => he

/-- What a write of `rec` makes of the node that was there, or of a new one. -/
def writeResult (fs : Fs) (path : Utf16) (rec : VfsWriteRecord) (old : Option MemNode) : MemNode :=
  written (old.getD ⟨fileType, basename path, 0, none, none, none, none⟩) rec (fs.clock + 1000)

theorem wp_writeSync {fs : Fs} (h : Sound fs) (path : Utf16) (rec : VfsWriteRecord) :
    Wp (writeSync path rec)
      (fun _ fs' => ∃ i, Stored path i (writeResult fs path rec (fs.nodes.get i)) fs fs')
      (fun _ fs' => fs' = fs) fs := by
  unfold writeSync
  simp only [wp_bind, wp_read]
  refine ⟨fun o ho => ?_, fun _ _ => trivial⟩
  obtain ⟨ch, hparent⟩ := parentFolder_ok h ho
  have hread := children_of_get hparent.found hparent.has
  refine ⟨fun ch' hch' => ?_, fun e he => ?_⟩
  · obtain rfl := Except.ok.inj (hread.symm.trans hch')
    unfold writeTarget
    cases hget : ch.get (basename path) with
    | some i =>
      obtain ⟨old, hold⟩ := h.present_child ((hparent.entry _).trans hget)
      have hat : nodeAt i fs = .ok (i, old) := by
        unfold nodeAt
        rw [hold]
      simp only [wp_read, hat]
      refine ⟨fun found hfound => ?_, fun e he => ?_⟩
      · obtain rfl := Except.ok.inj hfound
        simp only [tick, wp_bind, wp_modify, wp_get, wp_pure]
        have hstore := wp_store { fs with clock := fs.clock + 1000 } i
          (writeResult fs path rec (fs.nodes.get i)) (basename path)
          (Q := fun _ fs' => Stored path i (writeResult fs path rec (fs.nodes.get i)) fs fs')
          (R := fun _ fs' => fs' = fs) rfl hparent.found hparent.has (hparent.ne_child h hget)
          fun fs' hseq hro hnodes =>
            ⟨⟨o.1, o.2, ch, hparent, Or.inl ⟨hget, hseq⟩, hnodes⟩, hro⟩
        rw [wp_bind, wp_modify, hold] at hstore
        refine hstore.mono (fun _ fs' hstored => ⟨i, ?_⟩) fun _ _ he => he
        rw [hold]
        exact hstored
      · cases he
    | none =>
      simp only [freshId, tick, wp_bind, wp_modify, wp_get, wp_pure]
      have hnew : fs.nodes.get (.n (fs.seq + 1)) = none := h.fresh _ (Nat.lt_succ_self _)
      have hstore := wp_store { fs with seq := fs.seq + 1, clock := fs.clock + 1000 }
        (.n (fs.seq + 1)) (writeResult fs path rec (fs.nodes.get (.n (fs.seq + 1)))) (basename path)
        (Q := fun _ fs' => Stored path (.n (fs.seq + 1))
          (writeResult fs path rec (fs.nodes.get (.n (fs.seq + 1)))) fs fs')
        (R := fun _ fs' => fs' = fs) rfl hparent.found hparent.has (h.fresh_ne hparent.present)
        fun fs' hseq hro hnodes =>
          ⟨⟨o.1, o.2, ch, hparent, Or.inr ⟨hget, rfl, hseq⟩, hnodes⟩, hro⟩
      rw [wp_bind, wp_modify, hnew] at hstore
      refine hstore.mono (fun _ fs' hstored => ⟨.n (fs.seq + 1), ?_⟩) fun _ _ he => he
      rw [hnew]
      exact hstored
  · rw [hread] at he
    cases he

/-- The node that a path resolved to is taken out, and its entry. -/
structure Removed (path : Utf16) (i : NodeId) (node : MemNode) (fs fs' : Fs) : Prop where
  way : follow (seen fs) .root (segments path) = some i
  found : fs.nodes.get i = some node
  leaf : node.type = folderType → node.children.map JsMap.entries = some []
  parent : ∃ p nd ch, ParentOf fs path p nd ch ∧ ∀ j, fs'.nodes.get j =
    if j = i then none
    else if j = p then some { nd with children := some (ch.delete (basename path)) }
    else fs.nodes.get j
  seq : fs'.seq = fs.seq
  readOnly : fs'.readOnly = fs.readOnly

theorem wp_remove {fs : Fs} (h : Sound fs) (path : Utf16) :
    Wp (remove path)
      (fun _ fs' => assertWritable "remove" path fs = .ok () ∧ ∃ i node, Removed path i node fs fs')
      (fun _ fs' => fs' = fs) fs := by
  unfold remove
  simp only [wp_bind, wp_read]
  refine ⟨fun _ hguard => ⟨fun r hr => ?_, fun _ _ => trivial⟩, fun _ _ => trivial⟩
  cases r with
  | none => exact rfl
  | some o =>
    obtain ⟨hway, hfound⟩ := resolve_some h hr
    simp only [wp_bind, wp_read]
    refine ⟨fun full hfull => ?_, fun _ _ => trivial⟩
    cases full with
    | true => exact rfl
    | false =>
      simp only [wp_bind, wp_read, Bool.false_eq_true, if_false]
      refine ⟨fun par hpar => ?_, fun _ _ => trivial⟩
      obtain ⟨ch, hparent⟩ := parentFolder_ok h hpar
      refine wp_editChildren (children_of_get hparent.found hparent.has) ?_
      rw [wp_modify]
      refine ⟨hguard, o.1, o.2, hway, hfound, fun hfolder => ?_, ?_, ?_, ?_⟩
      · obtain ⟨own, hown⟩ := Option.isSome_iff_exists.mp (h.folders _ _ hfound hfolder)
        unfold isFull at hfull
        rw [if_pos hfolder, children_of_get hfound hown] at hfull
        have hempty : decide (own.entries ≠ []) = false := Except.ok.inj hfull
        rw [hown, Option.map_some]
        simpa using hempty
      · refine ⟨par.1, par.2, ch, hparent, fun j => ?_⟩
        rw [drop, JsMap.get_delete, get_alter]
        by_cases hj : j = par.1
        · rw [if_pos hj, if_pos hj, hj, hparent.found, Option.map_some, hparent.has,
            Option.map_some]
        · rw [if_neg hj, if_neg hj]
      · exact seq_alter _ _ _
      · exact readOnly_alter _ _ _

/-- What a move makes of a node that it leaves in the map. -/
def relocated (i p₁ p₂ : NodeId) (x₁ x₂ : Utf16) (modifiedAt : ℕ) (j : NodeId) (nd : MemNode) :
    MemNode :=
  let nd := if j = p₁ then { nd with children := nd.children.map (·.delete x₁) } else nd
  let nd := if j = i then { nd with name := x₂, modifiedAt } else nd
  if j = p₂ then { nd with children := nd.children.map (·.set x₂ i) } else nd

/-- The node that a path resolved to is taken from its place to the place of another path,
and what was there is taken out. -/
structure Moved (srcPath dstPath : Utf16) (i : NodeId) (fs fs' : Fs) : Prop where
  way : follow (seen fs) .root (segments srcPath) = some i
  present : Present fs i
  parents : ∃ p₁ nd₁ ch₁ p₂ nd₂ ch₂, ParentOf fs srcPath p₁ nd₁ ch₁ ∧
    ParentOf fs dstPath p₂ nd₂ ch₂ ∧ ∀ j, fs'.nodes.get j =
      if ch₂.get (basename dstPath) = some j ∧ j ≠ i then none
      else (fs.nodes.get j).map
        (relocated i p₁ p₂ (basename srcPath) (basename dstPath) (fs.clock + 1000) j)
  seq : fs'.seq = fs.seq
  readOnly : fs'.readOnly = fs.readOnly

theorem get_alter_map (i : NodeId) (f : MemNode → MemNode) (fs : Fs) (j : NodeId) :
    (alter i f fs).nodes.get j = (fs.nodes.get j).map fun nd => if j = i then f nd else nd := by
  rw [get_alter]
  split_ifs with hj
  · rfl
  · exact Option.map_id'.symm ▸ rfl

/-- An object has its map, in the map of nodes or out of it. -/
theorem children_ok (fs : Fs) (o : Found)
    (hin : ∀ nd, fs.nodes.get o.1 = some nd → nd.children.isSome = true)
    (hout : o.2.children.isSome = true) : ∃ ch, children o fs = .ok ch := by
  unfold children now childrenOf
  cases hget : fs.nodes.get o.1 with
  | none =>
    obtain ⟨ch, hch⟩ := Option.isSome_iff_exists.mp hout
    exact ⟨ch, by rw [Option.getD_none, hch]⟩
  | some nd =>
    obtain ⟨ch, hch⟩ := Option.isSome_iff_exists.mp (hin nd hget)
    exact ⟨ch, by rw [Option.getD_some, hch]⟩

/-- The steps of a move after what was in the place is out of the map. -/
theorem wp_moveInto {fs : Fs} {srcPath dstPath : Utf16} {o : Found} (sp dp : Found)
    {ch₁ ch₂ : JsMap Utf16 NodeId} (hway : follow (seen fs) .root (segments srcPath) = some o.1)
    (hfound : fs.nodes.get o.1 = some o.2) (hp₁ : ParentOf fs srcPath sp.1 sp.2 ch₁)
    (hp₂ : ParentOf fs dstPath dp.1 dp.2 ch₂) {R : Thrown → Fs → Prop} (fs₁ : Fs)
    (hseq : fs₁.seq = fs.seq) (hro : fs₁.readOnly = fs.readOnly) (hclock : fs₁.clock = fs.clock)
    (hget : ∀ j, fs₁.nodes.get j =
      if ch₂.get (basename dstPath) = some j ∧ j ≠ o.1 then none else fs.nodes.get j) :
    Wp (do
      editChildren sp (·.delete (basename srcPath))
      let modifiedAt ← tick
      modify (alter o.1 fun node => { node with name := basename dstPath, modifiedAt })
      editChildren dp (·.set (basename dstPath) o.1)
      return record (o.1, now (← get) o) dstPath)
      (fun _ fs' => Moved srcPath dstPath o.1 fs fs') R fs₁ := by
  have hold : ∀ {j nd}, fs₁.nodes.get j = some nd → fs.nodes.get j = some nd := by
    intro j nd hj
    rw [hget] at hj
    split_ifs at hj
    exact hj
  obtain ⟨own₁, hown₁⟩ := children_ok fs₁ sp
    (fun nd hnd => by rw [Option.some.inj ((hold hnd).symm.trans hp₁.found), hp₁.has]; rfl)
    (by rw [hp₁.has]; rfl)
  rw [wp_bind]
  refine wp_editChildren hown₁ ?_
  simp only [tick, wp_bind, wp_modify, wp_get, wp_pure]
  generalize hfs₂ : alter sp.1 (fun node : MemNode =>
    { node with children := node.children.map (·.delete (basename srcPath)) }) fs₁ = fs₂
  have hget₂ : ∀ j, fs₂.nodes.get j = (fs₁.nodes.get j).map fun nd =>
      if j = sp.1 then { nd with children := nd.children.map (·.delete (basename srcPath)) }
      else nd := by
    intro j
    rw [← hfs₂, get_alter_map]
  have hclock₂ : fs₂.clock = fs.clock := by
    rw [← hfs₂, clock_alter, hclock]
  rw [hclock₂]
  generalize hfs₃ : alter o.1 (fun node : MemNode =>
    { node with name := basename dstPath, modifiedAt := fs.clock + 1000 })
    { fs₂ with clock := fs.clock + 1000 } = fs₃
  have hget₃ : ∀ j, fs₃.nodes.get j = (fs₂.nodes.get j).map fun nd =>
      if j = o.1 then { nd with name := basename dstPath, modifiedAt := fs.clock + 1000 }
      else nd := by
    intro j
    rw [← hfs₃, get_alter_map]
  obtain ⟨own₂, hown₂⟩ := children_ok fs₃ dp
    (fun nd hnd => by
      rw [hget₃, hget₂] at hnd
      obtain ⟨nd₂, hnd₂, rfl⟩ := Option.map_eq_some_iff.mp hnd
      obtain ⟨nd₁, hnd₁, rfl⟩ := Option.map_eq_some_iff.mp hnd₂
      obtain rfl := Option.some.inj ((hold hnd₁).symm.trans hp₂.found)
      split_ifs <;> simp [hp₂.has])
    (by rw [hp₂.has]; rfl)
  refine wp_editChildren hown₂ ?_
  refine ⟨hway, by rw [Present, hfound]; rfl,
    ⟨sp.1, sp.2, ch₁, dp.1, dp.2, ch₂, hp₁, hp₂, fun j => ?_⟩, ?_, ?_⟩
  · rw [get_alter_map, hget₃, hget₂, hget]
    by_cases hgone : ch₂.get (basename dstPath) = some j ∧ j ≠ o.1
    · rw [if_pos hgone, if_pos hgone]
      rfl
    · rw [if_neg hgone, if_neg hgone, Option.map_map, Option.map_map]
      rfl
  · rw [seq_alter, ← hfs₃, seq_alter, ← hfs₂]
    exact (seq_alter _ _ _).trans hseq
  · rw [readOnly_alter, ← hfs₃, readOnly_alter, ← hfs₂]
    exact (readOnly_alter _ _ _).trans hro

/-- The node whose name a move takes is taken out, unless it is the moved one. -/
theorem clash_cases {fs : Fs} {clash : Option NodeId} {i : NodeId} {P : Fs → Prop}
    (h : ∀ fs₁ : Fs, fs₁.seq = fs.seq → fs₁.readOnly = fs.readOnly → fs₁.clock = fs.clock →
      (∀ j, fs₁.nodes.get j = if clash = some j ∧ j ≠ i then none else fs.nodes.get j) → P fs₁) :
    (clash = none → P fs) ∧ ∀ k, clash = some k → (k ≠ i → P (drop k fs)) ∧ (k = i → P fs) := by
  refine ⟨fun hnone => h fs rfl rfl rfl fun j => ?_, fun k hk => ⟨fun hne => ?_, fun heq => ?_⟩⟩
  · rw [hnone, if_neg fun hj => Option.some_ne_none j hj.1.symm]
  · refine h (drop k fs) rfl rfl rfl fun j => ?_
    rw [drop, JsMap.get_delete, hk]
    by_cases hj : j = k
    · rw [if_pos hj, if_pos ⟨congrArg some hj.symm, hj ▸ hne⟩]
    · rw [if_neg hj, if_neg fun hjk => hj (Option.some.inj hjk.1).symm]
  · refine h fs rfl rfl rfl fun j => ?_
    have hkeep : ¬ (some k = some j ∧ j ≠ i) := fun hj =>
      hj.2 ((Option.some.inj hj.1).symm.trans heq)
    rw [hk, if_neg hkeep]

theorem wp_move {fs : Fs} (h : Sound fs) (srcPath dstPath : Utf16) :
    Wp (move srcPath dstPath)
      (fun _ fs' => assertWritable "move" srcPath fs = .ok () ∧
        assertWritable "move" dstPath fs = .ok () ∧ ∃ i, Moved srcPath dstPath i fs fs')
      (fun _ fs' => fs' = fs) fs := by
  unfold move
  simp only [wp_bind, wp_read]
  refine ⟨fun _ hsrc => ⟨fun _ hdst => ⟨fun r hr => ?_, fun _ _ => trivial⟩, fun _ _ => trivial⟩,
    fun _ _ => trivial⟩
  cases r with
  | none => exact rfl
  | some o =>
    obtain ⟨hway, hfound⟩ := resolve_some h hr
    simp only [wp_bind, wp_read]
    refine ⟨fun sp hsp => ⟨fun dp hdp => ?_, fun _ _ => trivial⟩, fun _ _ => trivial⟩
    obtain ⟨ch₁, hp₁⟩ := parentFolder_ok h hsp
    obtain ⟨ch₂, hp₂⟩ := parentFolder_ok h hdp
    have hread := children_of_get hp₂.found hp₂.has
    rw [hread]
    refine ⟨fun ch hch => ?_, fun e he => ?_⟩
    · obtain rfl := Except.ok.inj hch
      obtain ⟨hfree, htaken⟩ := clash_cases fun fs₁ hseq hro hclock hget =>
        wp_moveInto sp dp (R := fun _ fs' => fs' = fs) hway hfound hp₁ hp₂ fs₁ hseq hro hclock hget
      have hmoved : ∀ fs', Moved srcPath dstPath o.1 fs fs' →
          assertWritable "move" srcPath fs = .ok () ∧ assertWritable "move" dstPath fs = .ok () ∧
            ∃ i, Moved srcPath dstPath i fs fs' := fun _ hm => ⟨hsrc, hdst, o.1, hm⟩
      cases hclash : ch₂.get (basename dstPath) with
      | none => exact (hfree hclash).mono (fun _ => hmoved) fun _ _ he => he
      | some k =>
        obtain ⟨hother, hsame⟩ := htaken k hclash
        rw [wp_ite]
        refine ⟨fun hne => ?_, fun heq => ?_⟩
        · exact (hother hne).mono (fun _ => hmoved) fun _ _ he => he
        · exact (hsame (not_not.mp heq)).mono (fun _ => hmoved) fun _ _ he => he
    · cases he

section Steps

def Writable (fs : Fs) (path : Utf16) : Prop := readOnlyPath fs (normalize path) = false

theorem writable_of_assert {fs : Fs} {op : String} {path : Utf16}
    (h : assertWritable op path fs = .ok ()) : Writable fs path := by
  unfold assertWritable at h
  unfold Writable
  cases hro : readOnlyPath fs (normalize path) with
  | false => rfl
  | true =>
    simp only [hro, if_true] at h
    cases h

/-- What a call did that has changed something. -/
inductive Changed (fs fs' : Fs) : Call → Prop
  | written (path : Utf16) (rec : VfsWriteRecord) (i : NodeId) (hguard : Writable fs path)
      (h : Stored path i (writeResult fs path rec (fs.nodes.get i)) fs fs')
      (given : VfsWriteRecord) (hrec : rec = { given with bytes := payload given }) :
      Changed fs fs' (.write path given)
  | made (path : Utf16) (hguard : Writable fs path) (hnone : resolve path fs = .ok none)
      (h : Stored path (.n (fs.seq + 1)) (newFolder (basename path) (fs.clock + 1000)) fs fs') :
      Changed fs fs' (.mkdir path)
  | removed (path : Utf16) (i : NodeId) (node : MemNode) (hguard : Writable fs path)
      (h : Removed path i node fs fs') : Changed fs fs' (.remove path)
  | moved (srcPath dstPath : Utf16) (i : NodeId) (hsrc : Writable fs srcPath)
      (hdst : Writable fs dstPath) (h : Moved srcPath dstPath i fs fs') (call : Call)
      (hcall : call = .move srcPath dstPath ∨ call = .rename srcPath dstPath) : Changed fs fs' call

/-- A call that returns has changed something, unless it asks for a folder that is there. -/
theorem wp_perform {fs : Fs} (h : Sound fs) (call : Call) :
    Wp (perform call)
      (fun _ fs' => (fs' = fs ∧ ∃ path, call = .mkdir path ∧ Writable fs path ∧ IsFolder fs path) ∨
        Changed fs fs' call)
      (fun _ fs' => fs' = fs) fs := by
  cases call with
  | write path rec =>
    simp only [perform, wp_discard]
    unfold write
    simp only [wp_bind, wp_read]
    refine ⟨fun _ hguard => ?_, fun _ _ => trivial⟩
    refine (wp_writeSync h path _).mono (fun _ fs' hstored => Or.inr ?_) fun _ _ he => he
    obtain ⟨i, hstored⟩ := hstored
    exact .written path _ i (writable_of_assert hguard) hstored rec rfl
  | mkdir path =>
    simp only [perform, wp_discard]
    unfold mkdir
    simp only [wp_bind, wp_read]
    refine ⟨fun _ hguard => ?_, fun _ _ => trivial⟩
    refine (wp_mkdirSync h path).mono (fun _ fs' hmade => ?_) fun _ _ he => he
    rcases hmade with ⟨hsame, hfolder⟩ | ⟨hnone, hmade⟩
    · exact Or.inl ⟨hsame, path, rfl, writable_of_assert hguard, hfolder⟩
    · exact Or.inr (.made path (writable_of_assert hguard) hnone hmade)
  | remove path =>
    refine (wp_remove h path).mono (fun _ fs' hremoved => Or.inr ?_) fun _ _ he => he
    obtain ⟨hguard, i, node, hremoved⟩ := hremoved
    exact .removed path i node (writable_of_assert hguard) hremoved
  | move srcPath dstPath =>
    simp only [perform, wp_discard]
    refine (wp_move h srcPath dstPath).mono (fun _ fs' hmoved => Or.inr ?_) fun _ _ he => he
    obtain ⟨hsrc, hdst, i, hmoved⟩ := hmoved
    exact .moved srcPath dstPath i (writable_of_assert hsrc) (writable_of_assert hdst) hmoved _
      (Or.inl rfl)
  | rename srcPath dstPath =>
    simp only [perform, wp_discard, rename]
    refine (wp_move h srcPath dstPath).mono (fun _ fs' hmoved => Or.inr ?_) fun _ _ he => he
    obtain ⟨hsrc, hdst, i, hmoved⟩ := hmoved
    exact .moved srcPath dstPath i (writable_of_assert hsrc) (writable_of_assert hdst) hmoved _
      (Or.inr rfl)

theorem step_cases {fs : Fs} (h : Sound fs) (call : Call) :
    step fs call = fs ∨ Changed fs (step fs call) call :=
  ((wp_perform h call).mono (fun _ _ hdone => hdone.imp_left And.left)
    fun _ _ hsame => Or.inl hsame).final

/-- A call that throws has changed nothing. -/
theorem throws_unchanged {fs fs' : Fs} (h : Sound fs) {call : Call} {e : Thrown}
    (hthrow : perform call fs = .error e fs') : fs' = fs := by
  have hwp := wp_perform h call
  unfold Wp at hwp
  rw [hthrow] at hwp
  exact hwp

end Steps

section Entries

theorem kids_some {node : MemNode} {ch : JsMap Utf16 NodeId} (h : node.children = some ch)
    (x : Utf16) : kids (some node) x = ch.get x := by
  rw [kids, Option.bind_some, h, Option.bind_some]

theorem kids_newFolder (name : Utf16) (t : ℕ) (x : Utf16) :
    kids (some (newFolder name t)) x = none :=
  rfl

theorem written_type (node : MemNode) (rec : VfsWriteRecord) (t : ℕ) :
    (written node rec t).type = recordType rec := by
  unfold written
  split_ifs <;> rfl

theorem written_children (node : MemNode) (rec : VfsWriteRecord) (t : ℕ) :
    (written node rec t).children =
      if recordType rec = folderType then some (node.children.getD .empty)
      else if recordType rec = aliasType then node.children
      else none := by
  unfold written
  split_ifs <;> rfl

/-- A write leaves a node the children it had, or takes them all. -/
theorem kids_written {node : MemNode} {rec : VfsWriteRecord} {t : ℕ} {x : Utf16} {c : NodeId}
    (h : kids (some (written node rec t)) x = some c) : kids (some node) x = some c := by
  unfold kids at h ⊢
  rw [Option.bind_some] at h ⊢
  rw [written_children] at h
  split_ifs at h
  · cases hch : node.children with
    | none =>
      rw [hch] at h
      cases h
    | some ch =>
      rw [hch] at h
      exact h
  · exact h
  · cases h

theorem kids_writeResult {fs : Fs} {path : Utf16} {rec : VfsWriteRecord} {old : Option MemNode}
    {x : Utf16} {c : NodeId} (h : kids (some (writeResult fs path rec old)) x = some c) :
    kids old x = some c := by
  have hold := kids_written h
  cases old with
  | none => cases hold
  | some node => exact hold

theorem written_folder {node : MemNode} {rec : VfsWriteRecord} {t : ℕ}
    (h : (written node rec t).type = folderType) : (written node rec t).children.isSome = true := by
  rw [written_type] at h
  rw [written_children, if_pos h]
  rfl

variable {fs fs' : Fs}

/-- The entries after a node was put into the tree. -/
theorem entries_stored {i p : NodeId} {node nd : MemNode} {ch : JsMap Utf16 NodeId} {path : Utf16}
    (hp : ParentOf fs path p nd ch) (hne : i ≠ p)
    (hget : ∀ j, fs'.nodes.get j =
      if j = p then some { nd with children := some (ch.set (basename path) i) }
      else if j = i then some node
      else fs.nodes.get j) (a : NodeId) (x : Utf16) :
    entries fs' a x =
      if a = p ∧ x = basename path then some i
      else if a = i then kids (some node) x
      else entries fs a x := by
  unfold entries
  rw [hget]
  by_cases ha : a = p
  · subst ha
    rw [if_pos rfl, kids_some rfl, JsMap.get_set, if_neg hne.symm, ← hp.entry]
    by_cases hx : x = basename path
    · rw [if_pos hx, if_pos ⟨rfl, hx⟩]
    · rw [if_neg hx, if_neg fun h : a = a ∧ x = basename path => hx h.2]
      rfl
  · rw [if_neg ha, if_neg fun h : a = p ∧ x = basename path => ha h.1]
    by_cases hi : a = i
    · rw [if_pos hi, if_pos hi]
    · rw [if_neg hi, if_neg hi]

theorem present_stored {i p : NodeId} {node nd : MemNode} {ch : JsMap Utf16 NodeId}
    {path : Utf16} (hp : ParentOf fs path p nd ch)
    (hget : ∀ j, fs'.nodes.get j =
      if j = p then some { nd with children := some (ch.set (basename path) i) }
      else if j = i then some node
      else fs.nodes.get j) (j : NodeId) : Present fs' j ↔ Present fs j ∨ j = i := by
  unfold Present
  rw [hget]
  split_ifs with hj hi
  · rw [hj, hp.found]
    simp
  · simp [hi]
  · simp [hi]

/-- What putting a node into the tree keeps. -/
theorem Sound.stored (h : Sound fs) {path : Utf16} {i : NodeId} {node : MemNode}
    (hs : Stored path i node fs fs')
    (hkids : ∀ x c, kids (some node) x = some c → entries fs i x = some c)
    (hfolder : node.type = folderType → node.children.isSome = true) : Sound fs' := by
  obtain ⟨p, nd, ch, hp, hplace, hget⟩ := hs.parent
  have hne := hp.ne_placed h hplace
  have hentries := entries_stored hp hne hget
  have hpresent := present_stored hp hget
  refine ⟨?_, fun j node' hj htype => ?_, fun k hk => ?_⟩
  · have hsub : ∀ {a x b}, entries fs' a x = some b →
        entries fs a x = some b ∨ a = p ∧ x = basename path ∧ b = i := by
      intro a x b hb
      rw [hentries] at hb
      split_ifs at hb with hat hai
      · exact Or.inr ⟨hat.1, hat.2, (Option.some.inj hb).symm⟩
      · exact Or.inl (hai ▸ hkids x b hb)
      · exact Or.inl hb
    rcases hplace with ⟨hi, -⟩ | ⟨hfree, rfl, -⟩
    · have hold : ∀ {a x b}, entries fs' a x = some b → entries fs a x = some b := by
        intro a x b hb
        rcases hsub hb with hb | ⟨rfl, rfl, rfl⟩
        · exact hb
        · exact (hp.entry _).trans hi
      refine h.tidy.sub hold fun hb => ?_
      rw [hpresent, hpresent]
      exact ⟨Or.inl (h.tidy.closed (hold hb)).1, Or.inl (h.tidy.closed (hold hb)).2⟩
    · have hadd := h.tidy.add (n := basename path) hp.present
        (show NodeId.n (fs.seq + 1) ≠ .root from fun heq => by cases heq)
        (fun hpres => h.fresh_ne hpres rfl)
      refine hadd.sub (fun {a x b} hb => ?_) fun {a x b} hb => ?_
      · unfold link
        rcases hsub hb with hb | ⟨rfl, rfl, rfl⟩
        · rw [if_neg]
          · exact hb
          · rintro ⟨rfl, rfl⟩
            rw [hp.entry, hfree] at hb
            cases hb
        · rw [if_pos ⟨rfl, rfl⟩]
      · rw [hpresent, hpresent]
        rcases hsub hb with hb | ⟨rfl, rfl, rfl⟩
        · exact ⟨Or.inl (h.tidy.closed hb).1, Or.inl (h.tidy.closed hb).2⟩
        · exact ⟨Or.inl hp.present, Or.inr rfl⟩
  · rw [hget] at hj
    split_ifs at hj with hjp hji
    · obtain rfl := Option.some.inj hj
      rfl
    · obtain rfl := Option.some.inj hj
      exact hfolder htype
    · exact h.folders j node' hj htype
  · have hlt : fs.seq < k := by
      rcases hplace with ⟨-, hseq⟩ | ⟨-, -, hseq⟩ <;> omega
    have hk' : fs.nodes.get (.n k) = none := h.fresh k hlt
    have hkp : NodeId.n k ≠ p := by
      rintro rfl
      have hfound := hp.found
      rw [hk'] at hfound
      cases hfound
    have hki : NodeId.n k ≠ i := by
      rintro rfl
      rcases hplace with ⟨hi, -⟩ | ⟨-, heq, hseq⟩
      · obtain ⟨node', hnode'⟩ := h.present_child ((hp.entry _).trans hi)
        rw [hk'] at hnode'
        cases hnode'
      · injection heq with heq
        omega
    rw [hget, if_neg hkp, if_neg hki, hk']

/-- The entries after a node was removed. -/
theorem entries_removed {i p : NodeId} {nd : MemNode} {ch : JsMap Utf16 NodeId} {path : Utf16}
    (hp : ParentOf fs path p nd ch)
    (hget : ∀ j, fs'.nodes.get j =
      if j = i then none
      else if j = p then some { nd with children := some (ch.delete (basename path)) }
      else fs.nodes.get j) (a : NodeId) (x : Utf16) :
    entries fs' a x =
      if a = i then none else if a = p ∧ x = basename path then none else entries fs a x := by
  unfold entries
  rw [hget]
  by_cases hi : a = i
  · rw [if_pos hi, if_pos hi]
    rfl
  · rw [if_neg hi, if_neg hi]
    by_cases ha : a = p
    · subst ha
      rw [if_pos rfl, kids_some rfl, JsMap.get_delete, ← hp.entry]
      by_cases hx : x = basename path
      · rw [if_pos hx, if_pos ⟨rfl, hx⟩]
      · rw [if_neg hx, if_neg fun h : a = a ∧ x = basename path => hx h.2]
        rfl
    · rw [if_neg ha, if_neg fun h : a = p ∧ x = basename path => ha h.1]

theorem present_removed {i p : NodeId} {nd : MemNode} {ch : JsMap Utf16 NodeId} {path : Utf16}
    (hp : ParentOf fs path p nd ch)
    (hget : ∀ j, fs'.nodes.get j =
      if j = i then none
      else if j = p then some { nd with children := some (ch.delete (basename path)) }
      else fs.nodes.get j) (j : NodeId) : Present fs' j ↔ Present fs j ∧ j ≠ i := by
  unfold Present
  rw [hget]
  split_ifs with hi hj
  · simp [hi]
  · rw [hj, hp.found]
    simpa [hj] using hi
  · simp [hi]

/-- A path that resolves is the entry of what it resolves to, but for the root's. -/
theorem ParentOf.entry_of_way {path : Utf16} {i p : NodeId} {nd : MemNode}
    {ch : JsMap Utf16 NodeId} (hp : ParentOf fs path p nd ch)
    (hway : follow (MemVfs.seen fs) .root (segments path) = some i) (hne : segments path ≠ []) :
    ch.get (basename path) = some i := by
  rw [← hp.way_place, place_eq hne, hway]

theorem Sound.removed (h : Sound fs) {path : Utf16} {i : NodeId} {node : MemNode}
    (hs : Removed path i node fs fs') : Sound fs' := by
  obtain ⟨p, nd, ch, hp, hget⟩ := hs.parent
  have hentries := entries_removed hp hget
  have hsub : ∀ {a x b}, entries fs' a x = some b →
      entries fs a x = some b ∧ a ≠ i ∧ ¬ (a = p ∧ x = basename path) := by
    intro a x b hb
    rw [hentries] at hb
    split_ifs at hb with hi hat
    exact ⟨hb, hi, hat⟩
  have hpresent := present_removed hp hget
  refine ⟨h.tidy.sub (fun hb => (hsub hb).1) fun {a x b} hb => ?_, fun j node' hj htype => ?_,
    fun k hk => ?_⟩
  · obtain ⟨hold, hai, hat⟩ := hsub hb
    refine ⟨(hpresent a).mpr ⟨(h.tidy.closed hold).1, hai⟩,
      (hpresent b).mpr ⟨(h.tidy.closed hold).2, ?_⟩⟩
    rintro rfl
    by_cases hroot : segments path = []
    · have hway := hs.way
      rw [hroot] at hway
      exact h.tidy.free a x (Option.some.inj hway ▸ hold)
    · exact hat (h.tidy.once hold ((hp.entry _).trans (hp.entry_of_way hs.way hroot)))
  · rw [hget] at hj
    split_ifs at hj with hji hjp
    · obtain rfl := Option.some.inj hj
      rfl
    · exact h.folders j node' hj htype
  · rw [hs.seq] at hk
    have hk' := h.fresh k hk
    rw [hget]
    split_ifs with hki hkp
    · rfl
    · have hfound := hp.found
      rw [← hkp, hk'] at hfound
      cases hfound
    · exact hk'

theorem kids_relocated {i p₁ p₂ : NodeId} {x₁ x₂ : Utf16} {t : ℕ} {j : NodeId} {nd : MemNode}
    (hp₂ : j = p₂ → nd.children.isSome = true) (x : Utf16) :
    kids (some (relocated i p₁ p₂ x₁ x₂ t j nd)) x =
      if j = p₂ ∧ x = x₂ then some i
      else if j = p₁ ∧ x = x₁ then none
      else kids (some nd) x := by
  unfold relocated kids
  simp only [Option.bind_some]
  cases hch : nd.children with
  | none =>
    have hne : j ≠ p₂ := fun heq => by
      have hsome := hp₂ heq
      rw [hch] at hsome
      cases hsome
    split_ifs <;> simp_all
  | some ch =>
    split_ifs <;> simp_all [JsMap.get_set, JsMap.get_delete]

/-- The entries after a node was moved. -/
theorem entries_moved {srcPath dstPath : Utf16} {i p₁ p₂ : NodeId} {nd₂ : MemNode}
    {ch₂ : JsMap Utf16 NodeId} (h : Sound fs) (hp₂ : ParentOf fs dstPath p₂ nd₂ ch₂)
    (hget : ∀ j, fs'.nodes.get j =
      if ch₂.get (basename dstPath) = some j ∧ j ≠ i then none
      else (fs.nodes.get j).map
        (relocated i p₁ p₂ (basename srcPath) (basename dstPath) (fs.clock + 1000) j)) :
    entries fs' = relink (entries fs) p₁ (basename srcPath) p₂ (basename dstPath) i := by
  funext a x
  unfold relink
  rw [hp₂.entry]
  unfold entries
  rw [hget]
  have hnotover : ¬ (ch₂.get (basename dstPath) = some p₂ ∧ p₂ ≠ i) := fun hover =>
    hp₂.ne_child h hover.1 rfl
  by_cases hover : ch₂.get (basename dstPath) = some a ∧ a ≠ i
  · have hne : a ≠ p₂ := by
      rintro rfl
      exact hnotover hover
    rw [if_pos hover, if_pos hover, if_neg fun hat : a = p₂ ∧ x = basename dstPath => hne hat.1]
    split_ifs <;> rfl
  · rw [if_neg hover, if_neg hover]
    cases hnode : fs.nodes.get a with
    | none =>
      have hne : a ≠ p₂ := by
        rintro rfl
        rw [hp₂.found] at hnode
        cases hnode
      rw [if_neg fun hat : a = p₂ ∧ x = basename dstPath => hne hat.1]
      split_ifs <;> rfl
    | some nd =>
      rw [Option.map_some, kids_relocated]
      rintro rfl
      rw [hp₂.found] at hnode
      rw [← Option.some.inj hnode, hp₂.has]
      rfl

theorem present_moved {srcPath dstPath : Utf16} {i p₁ p₂ : NodeId} {nd₂ : MemNode}
    {ch₂ : JsMap Utf16 NodeId} (hp₂ : ParentOf fs dstPath p₂ nd₂ ch₂)
    (hget : ∀ j, fs'.nodes.get j =
      if ch₂.get (basename dstPath) = some j ∧ j ≠ i then none
      else (fs.nodes.get j).map
        (relocated i p₁ p₂ (basename srcPath) (basename dstPath) (fs.clock + 1000) j))
    (j : NodeId) :
    Present fs' j ↔ Present fs j ∧ (entries fs p₂ (basename dstPath) = some j → j = i) := by
  unfold Present
  rw [hget, hp₂.entry]
  split_ifs with hover
  · simp [hover.1, hover.2]
  · rw [Option.isSome_map]
    rw [not_and, not_not] at hover
    exact ⟨fun hj => ⟨hj, hover⟩, fun hj => hj.1⟩

theorem relocated_type (i p₁ p₂ : NodeId) (x₁ x₂ : Utf16) (t : ℕ) (j : NodeId) (nd : MemNode) :
    (relocated i p₁ p₂ x₁ x₂ t j nd).type = nd.type := by
  unfold relocated
  split_ifs <;> rfl

theorem relocated_children (i p₁ p₂ : NodeId) (x₁ x₂ : Utf16) (t : ℕ) (j : NodeId)
    (nd : MemNode) :
    (relocated i p₁ p₂ x₁ x₂ t j nd).children.isSome = nd.children.isSome := by
  unfold relocated
  split_ifs <;> simp

theorem Sound.moved (h : Sound fs) {srcPath dstPath : Utf16} {i : NodeId}
    (hs : Moved srcPath dstPath i fs fs') (hroot : segments srcPath ≠ []) : Sound fs' := by
  obtain ⟨p₁, nd₁, ch₁, p₂, nd₂, ch₂, hp₁, hp₂, hget⟩ := hs.parents
  have hentries := entries_moved (i := i) h hp₂ hget
  have hentry : entries fs p₁ (basename srcPath) = some i :=
    (hp₁.entry _).trans (hp₁.entry_of_way hs.way hroot)
  have hpresent := present_moved hp₂ hget
  refine ⟨?_, fun j node hj htype => ?_, fun k hk => ?_⟩
  · have hmove := h.tidy.move hentry hp₂.present (m := basename dstPath)
      (follow_entries_of_seen hp₂.way)
    rw [hentries]
    exact hmove.sub (fun hb => hb) fun hb => by
      rw [hpresent, hpresent]
      exact hmove.closed hb
  · rw [hget] at hj
    split_ifs at hj
    obtain ⟨nd, hnd, rfl⟩ := Option.map_eq_some_iff.mp hj
    rw [relocated_type] at htype
    rw [relocated_children]
    exact h.folders j nd hnd htype
  · rw [hs.seq] at hk
    rw [hget, h.fresh k hk]
    split_ifs <;> rfl

end Entries

/-- Every call keeps a sound state sound, as long as the root is not moved. -/
theorem Sound.step {fs : Fs} (h : Sound fs) {call : Call}
    (hroot : ∀ srcPath dstPath i, call = .move srcPath dstPath ∨ call = .rename srcPath dstPath →
      Writable fs srcPath → Writable fs dstPath → Moved srcPath dstPath i fs (step fs call) →
      segments srcPath ≠ []) : Sound (step fs call) := by
  rcases step_cases h call with hsame | hchanged
  · rwa [hsame]
  · cases hchanged with
    | written path rec i hguard hs given hrec =>
      exact h.stored hs (fun x c hc => kids_writeResult hc) written_folder
    | made path hguard hnone hs =>
      refine h.stored hs (fun x c hc => ?_) fun _ => rfl
      rw [kids_newFolder] at hc
      cases hc
    | removed path i node hguard hs => exact h.removed hs
    | moved srcPath dstPath i hsrc hdst hs call hcall =>
      exact h.moved hs (hroot _ _ i hcall hsrc hdst hs)

end NixWasm.MemVfs
