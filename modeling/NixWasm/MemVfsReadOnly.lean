import NixWasm.MemVfsTree

/-!
Read-only prefixes of the in-memory file system. The guard looks at the operands of a call,
so what is under a prefix stays as it is as long as no call replaces or moves a folder above
the prefix, or brings something to the place of one. The root as a prefix guards nothing.
-/
namespace NixWasm.MemVfs

open Unicode NinepServer Effects Hierarchy

/-- The children that a walk sees of a node that was looked up. -/
def looks (node : Option MemNode) (x : Utf16) : Option NodeId :=
  node.bind fun node => if node.type = folderType then node.children.bind (·.get x) else none

/-- Under the path `r` the two states show the same nodes. -/
structure SameUnder (r : List Utf16) (fs fs' : Fs) : Prop where
  ways : ∀ q, r <+: q → follow (seen fs') .root q = follow (seen fs) .root q
  nodes : ∀ q i, r <+: q → follow (seen fs) .root q = some i → fs'.nodes.get i = fs.nodes.get i

theorem SameUnder.refl (r : List Utf16) (fs : Fs) : SameUnder r fs fs :=
  ⟨fun _ _ => rfl, fun _ _ _ _ => rfl⟩

theorem SameUnder.trans {r : List Utf16} {fs fs₁ fs₂ : Fs} (h : SameUnder r fs fs₁)
    (h' : SameUnder r fs₁ fs₂) : SameUnder r fs fs₂ := by
  refine ⟨fun q hq => (h'.ways q hq).trans (h.ways q hq), fun q i hq hi => ?_⟩
  have hi' : follow (seen fs₁) .root q = some i := (h.ways q hq).trans hi
  exact (h'.nodes q i hq hi').trans (h.nodes q i hq hi)

section Frames
variable {fs fs' : Fs} {r : List Utf16}

theorem seen_stored {i p : NodeId} {node nd : MemNode} {ch : JsMap Utf16 NodeId} {path : Utf16}
    (hp : ParentOf fs path p nd ch) (hne : i ≠ p)
    (hget : ∀ j, fs'.nodes.get j =
      if j = p then some { nd with children := some (ch.set (basename path) i) }
      else if j = i then some node
      else fs.nodes.get j) (a : NodeId) (x : Utf16) :
    seen fs' a x =
      if a = p ∧ x = basename path then some i
      else if a = i then looks (some node) x
      else seen fs a x := by
  have hlooks : seen fs' a x = looks (fs'.nodes.get a) x := rfl
  rw [hlooks, hget]
  by_cases ha : a = p
  · subst ha
    have hfolder : looks (some { nd with children := some (ch.set (basename path) i) }) x =
        (ch.set (basename path) i).get x := by
      rw [looks, Option.bind_some, if_pos hp.isFolder, Option.bind_some]
    rw [if_pos rfl, hfolder, JsMap.get_set, if_neg hne.symm, ← hp.seen]
    by_cases hx : x = basename path
    · rw [if_pos hx, if_pos ⟨rfl, hx⟩]
    · rw [if_neg hx, if_neg fun h : a = a ∧ x = basename path => hx h.2]
  · rw [if_neg ha, if_neg fun h : a = p ∧ x = basename path => ha h.1]
    by_cases hi : a = i
    · rw [if_pos hi, if_pos hi]
    · rw [if_neg hi, if_neg hi]
      rfl

/-- A path that leads below the root leads to a node that is there. -/
theorem Sound.present_of_follow (h : Sound fs) {q : List Utf16} {i : NodeId} (hne : q ≠ [])
    (hq : follow (seen fs) .root q = some i) : Present fs i := by
  rcases List.eq_nil_or_concat q with hnil | ⟨a, x, hsnoc⟩
  · exact absurd hnil hne
  · rw [hsnoc, List.concat_eq_append, follow_snoc_eq_some] at hq
    obtain ⟨j, -, hj⟩ := hq
    exact (h.tidy.closed (entries_of_seen hj)).2

/-- A new node is nowhere yet. -/
theorem Sound.fresh_unreached (h : Sound fs) {q : List Utf16} :
    follow (seen fs) .root q ≠ some (.n (fs.seq + 1)) := by
  intro hq
  by_cases hnil : q = []
  · rw [hnil] at hq
    cases hq
  · exact h.fresh_ne (h.present_of_follow hnil hq) rfl

theorem looks_le_kids {node : Option MemNode} {x : Utf16} {c : NodeId}
    (h : looks node x = some c) : kids node x = some c := by
  unfold looks at h
  unfold kids
  rw [Option.bind_eq_some_iff] at h ⊢
  obtain ⟨node, hnode, h⟩ := h
  split_ifs at h
  exact ⟨node, hnode, h⟩

/-- Where no children map leads, no walk does. -/
theorem none_of_entries {q : List Utf16} {e : Entries NodeId Utf16}
    (hgone : follow (entries fs) .root r = none) (hrq : r <+: q)
    (hsub : ∀ {a x b}, e a x = some b → entries fs a x = some b) : follow e .root q = none := by
  cases hq : follow e .root q with
  | none => rfl
  | some j =>
    have hj := follow_mono hsub hq
    rw [follow_none_below hgone hrq] at hj
    cases hj

/-- Before, only the place of a node that was put into the tree led to it. -/
theorem ParentOf.way_placed {path : Utf16} {i p : NodeId} {node : MemNode}
    {ch : JsMap Utf16 NodeId} {seq : ℕ} (hp : ParentOf fs path p node ch) (h : Sound fs)
    (hplace : ch.get (basename path) = some i ∧ seq = fs.seq ∨
      ch.get (basename path) = none ∧ i = .n (fs.seq + 1) ∧ seq = fs.seq + 1) {q : List Utf16}
    (hq : follow (MemVfs.seen fs) .root q = some i) : q = place path := by
  rcases hplace with ⟨hi, -⟩ | ⟨-, rfl, -⟩
  · exact h.single_seen.path_unique hq (hp.way_place.trans hi)
  · exact absurd hq h.fresh_unreached

/-- Beside the place of a node that was put into the tree the ways are the old ones. -/
theorem beside_stored (h : Sound fs) {path : Utf16} {i : NodeId} {node : MemNode}
    (hs : Stored path i node fs fs') {q : List Utf16} (hq : ¬ place path <+: q) :
    follow (seen fs') .root q = follow (seen fs) .root q := by
  obtain ⟨p, nd, ch, hp, hplace, hget⟩ := hs.parent
  refine follow_congr fun a x b l hsplit hl => ?_
  rw [seen_stored hp (hp.ne_placed h hplace) hget, if_neg, if_neg]
  · rintro rfl
    exact hq ⟨x :: b, by rw [hsplit, hp.way_placed h hplace hl]⟩
  · exact fun heq => hq (h.single_seen.path_of_entry hp.way hsplit hl heq)

/-- What a node put into the tree above `r` may do: nothing to what is seen of the node that
was there; or `r` is not there at all; or no node was there. -/
theorem sameUnder_stored (h : Sound fs) {path : Utf16} {i : NodeId}
    {node : MemNode} (hs : Stored path i node fs fs') (hguard : ¬ r <+: place path)
    (hkids : ∀ x c, kids (some node) x = some c → entries fs i x = some c)
    (hspare : place path <+: r → (∀ x, looks (some node) x = seen fs i x) ∨
      follow (entries fs) .root r = none ∨ fs.nodes.get i = none) : SameUnder r fs fs' := by
  obtain ⟨p, nd, ch, hp, hplace, hget⟩ := hs.parent
  have hnep := hp.ne_placed h hplace
  have hseen := seen_stored hp hnep hget
  have hat : ∀ {q}, follow (seen fs) .root q = some i → q = place path :=
    fun hq => hp.way_placed h hplace hq
  have hdir : ¬ r <+: (segments path).dropLast := fun hle =>
    hguard (hle.trans (List.prefix_append _ _))
  refine ⟨fun q hrq => ?_, fun q j hrq hj => ?_⟩
  · by_cases hpq : place path <+: q
    · have hpr : place path <+: r :=
        (List.prefix_or_prefix_of_prefix hpq hrq).resolve_right hguard
      rcases hplace with ⟨hi, -⟩ | ⟨hfree, rfl, -⟩
      · rcases hspare hpr with hsame | hgone | hnew
        · have heq : seen fs' = seen fs := by
            funext a x
            rw [hseen]
            split_ifs with hpx hai
            · rw [hpx.1, hpx.2, hp.seen, hi]
            · rw [hai, hsame]
            · rfl
          rw [heq]
        · have hafter : ∀ {a x b}, seen fs' a x = some b → entries fs a x = some b := by
            intro a x b hb
            rw [hseen] at hb
            split_ifs at hb with hpx hai
            · rw [hpx.1, hpx.2, hp.entry, hi, hb]
            · exact hai ▸ hkids x b (looks_le_kids hb)
            · exact entries_of_seen hb
          rw [none_of_entries hgone hrq entries_of_seen, none_of_entries hgone hrq hafter]
        · obtain ⟨child, hchild⟩ := h.present_child ((hp.entry _).trans hi)
          rw [hnew] at hchild
          cases hchild
      · have hbefore : follow (seen fs) .root q = none :=
          follow_none_below (hp.way_place.trans hfree) hpq
        obtain ⟨rest, rfl⟩ := hpq
        cases rest with
        | nil =>
          rw [List.append_nil] at hrq
          exact absurd hrq hguard
        | cons y rest =>
          have hparent : follow (seen fs') .root (segments path).dropLast = some p :=
            (beside_stored h hs (snoc_not_le _ _)).trans hp.way
          have hput : seen fs' p (basename path) = some (.n (fs.seq + 1)) := by
            rw [hseen, if_pos ⟨rfl, rfl⟩]
          have harrive : follow (seen fs') .root (place path) = some (.n (fs.seq + 1)) :=
            follow_snoc_eq_some.mpr ⟨p, hparent, hput⟩
          have hempty : seen fs' (.n (fs.seq + 1)) y = none := by
            cases hy : seen fs' (.n (fs.seq + 1)) y with
            | none => rfl
            | some c =>
              rw [hseen, if_neg fun heq : _ ∧ _ => hnep heq.1, if_pos rfl] at hy
              have hnew := (h.tidy.closed (hkids y c (looks_le_kids hy))).1
              exact absurd rfl (h.fresh_ne hnew)
          rw [hbefore, follow_append_of harrive, follow_cons, hempty]
          rfl
    · exact beside_stored h hs hpq
  · rw [hget, if_neg, if_neg]
    · rintro rfl
      exact hguard (hat hj ▸ hrq)
    · rintro rfl
      exact hdir (h.single_seen.path_unique hj hp.way ▸ hrq)

theorem seen_removed {i p : NodeId} {nd : MemNode} {ch : JsMap Utf16 NodeId} {path : Utf16}
    (hp : ParentOf fs path p nd ch)
    (hget : ∀ j, fs'.nodes.get j =
      if j = i then none
      else if j = p then some { nd with children := some (ch.delete (basename path)) }
      else fs.nodes.get j) (a : NodeId) (x : Utf16) :
    seen fs' a x =
      if a = i then none else if a = p ∧ x = basename path then none else seen fs a x := by
  have hlooks : seen fs' a x = looks (fs'.nodes.get a) x := rfl
  rw [hlooks, hget]
  by_cases hi : a = i
  · rw [if_pos hi, if_pos hi]
    rfl
  · rw [if_neg hi, if_neg hi]
    by_cases ha : a = p
    · subst ha
      have hfolder : looks (some { nd with children := some (ch.delete (basename path)) }) x =
          (ch.delete (basename path)).get x := by
        rw [looks, Option.bind_some, if_pos hp.isFolder, Option.bind_some]
      rw [if_pos rfl, hfolder, JsMap.get_delete, ← hp.seen]
      by_cases hx : x = basename path
      · rw [if_pos hx, if_pos ⟨rfl, hx⟩]
      · rw [if_neg hx, if_neg fun h : a = a ∧ x = basename path => hx h.2]
    · rw [if_neg ha, if_neg fun h : a = p ∧ x = basename path => ha h.1]
      rfl

theorem sameUnder_removed (h : Sound fs) {path : Utf16} {i : NodeId} {node : MemNode}
    (hs : Removed path i node fs fs') (hguard : ¬ r <+: segments path) : SameUnder r fs fs' := by
  obtain ⟨p, nd, ch, hp, hget⟩ := hs.parent
  have hseen := seen_removed hp hget
  have hleaf : ∀ x, seen fs i x = none := by
    intro x
    have hlooks : seen fs i x = looks (fs.nodes.get i) x := rfl
    rw [hlooks, hs.found, looks, Option.bind_some]
    split_ifs with hfolder
    · have hempty := hs.leaf hfolder
      obtain ⟨own, hown, hentries⟩ := Option.map_eq_some_iff.mp hempty
      rw [hown, Option.bind_some, JsMap.get, hentries]
      rfl
    · rfl
  refine ⟨fun q hrq => ?_, fun q j hrq hj => ?_⟩
  · by_cases hpq : segments path <+: q
    · -- what is under the prefix lies below the removed node, where nothing was
      have hbefore : follow (seen fs) .root q = none := by
        obtain ⟨rest, rfl⟩ := hpq
        cases rest with
        | nil =>
          rw [List.append_nil] at hrq
          exact absurd hrq hguard
        | cons y rest =>
          rw [follow_append_of hs.way, follow_cons, hleaf]
          rfl
      rw [hbefore]
      cases hafter : follow (seen fs') .root q with
      | none => rfl
      | some j =>
        have hj : follow (seen fs) .root q = some j := by
          refine follow_mono (fun {a x b} hb => ?_) hafter
          rw [hseen] at hb
          split_ifs at hb
          exact hb
        rw [hbefore] at hj
        cases hj
    · refine follow_congr fun a x b l hsplit hl => ?_
      rw [hseen, if_neg, if_neg]
      · rintro ⟨rfl, rfl⟩
        have hplace := h.single_seen.path_of_entry hp.way hsplit hl ⟨rfl, rfl⟩
        by_cases hroot : segments path = []
        · exact hpq (hroot ▸ List.nil_prefix)
        · exact hpq (place_eq hroot ▸ hplace)
      · rintro rfl
        exact hpq ⟨x :: b, by rw [hsplit, h.single_seen.path_unique hl hs.way]⟩
  · rw [hget, if_neg, if_neg]
    · rintro rfl
      have hdir := h.single_seen.path_unique hj hp.way
      exact hguard (hrq.trans (hdir ▸ List.dropLast_prefix _))
    · rintro rfl
      exact hguard (h.single_seen.path_unique hj hs.way ▸ hrq)

theorem seen_moved {srcPath dstPath : Utf16} {i p₁ p₂ : NodeId} {nd₂ : MemNode}
    {ch₂ : JsMap Utf16 NodeId} (h : Sound fs) (hp₂ : ParentOf fs dstPath p₂ nd₂ ch₂)
    (hget : ∀ j, fs'.nodes.get j =
      if ch₂.get (basename dstPath) = some j ∧ j ≠ i then none
      else (fs.nodes.get j).map
        (relocated i p₁ p₂ (basename srcPath) (basename dstPath) (fs.clock + 1000) j)) :
    seen fs' = relink (seen fs) p₁ (basename srcPath) p₂ (basename dstPath) i := by
  have hentries := entries_moved h hp₂ hget
  funext a x
  have hseen : ∀ (gs : Fs), seen gs a x =
      if ((gs.nodes.get a).map MemNode.type) = some folderType then entries gs a x else none := by
    intro gs
    unfold seen entries kids
    cases gs.nodes.get a with
    | none => rfl
    | some node => simp only [Option.bind_some, Option.map_some, Option.some_inj]
  have hfolder₂ : (fs.nodes.get p₂).map MemNode.type = some folderType := by
    rw [hp₂.found, Option.map_some, hp₂.isFolder]
  by_cases hover : ch₂.get (basename dstPath) = some a ∧ a ≠ i
  · have hnone : fs'.nodes.get a = none := by
      rw [hget, if_pos hover]
    have hne : a ≠ p₂ := by
      rintro rfl
      exact hp₂.ne_child h hover.1 rfl
    have hgone : seen fs' a x = none := by
      rw [hseen fs', hnone]
      rfl
    rw [hgone, relink, hp₂.seen, if_neg fun hat : a = p₂ ∧ x = basename dstPath => hne hat.1,
      if_pos hover]
    split_ifs <;> rfl
  · have htype : (fs'.nodes.get a).map MemNode.type = (fs.nodes.get a).map MemNode.type := by
      rw [hget, if_neg hover, Option.map_map]
      exact congrArg (fun f => Option.map f (fs.nodes.get a))
        (funext fun nd => relocated_type i p₁ p₂ _ _ _ a nd)
    rw [hseen fs', htype, hentries]
    unfold relink
    rw [hp₂.entry, hp₂.seen, hseen fs, if_neg hover, if_neg hover]
    by_cases hat : a = p₂ ∧ x = basename dstPath
    · rw [if_pos hat, if_pos hat, hat.1, if_pos hfolder₂]
    · rw [if_neg hat, if_neg hat]
      split_ifs <;> rfl

/-- What a move above `r` may do: nothing, or it takes nothing away from `r` and brings
nothing there. -/
theorem sameUnder_moved (h : Sound fs) {srcPath dstPath : Utf16} {i : NodeId}
    (hs : Moved srcPath dstPath i fs fs') (hroot : segments srcPath ≠ [])
    (hsrc : ¬ r <+: segments srcPath) (hdst : ¬ r <+: place dstPath)
    (hspare : segments srcPath <+: r ∨ place dstPath <+: r →
      segments srcPath = place dstPath ∨
      follow (seen fs) .root r = none ∧
        (place dstPath <+: r → ¬ segments srcPath <+: place dstPath →
          follow (seen fs) .root (segments srcPath ++ r.drop (place dstPath).length) = none)) :
    SameUnder r fs fs' := by
  obtain ⟨p₁, nd₁, ch₁, p₂, nd₂, ch₂, hp₁, hp₂, hget⟩ := hs.parents
  have hseen := seen_moved h hp₂ hget
  have hsingle := h.single_seen
  have hplace₁ : place srcPath = segments srcPath := place_eq hroot
  have hentry : seen fs p₁ (basename srcPath) = some i :=
    (hp₁.seen _).trans (hp₁.entry_of_way hs.way hroot)
  refine ⟨fun q hrq => ?_, fun q j hrq hj => ?_⟩
  · have hbelow : ∀ {a : List Utf16}, ¬ r <+: a → (a <+: q ↔ a <+: r) := fun hra =>
      ⟨fun haq => (List.prefix_or_prefix_of_prefix haq hrq).resolve_right hra,
        fun har => har.trans hrq⟩
    rw [hseen]
    by_cases habove : segments srcPath <+: r ∨ place dstPath <+: r
    · by_cases hsame : segments srcPath = place dstPath
      · -- the node is moved to where it is
        rw [← hplace₁] at hsame
        obtain ⟨hdir, hlast⟩ := List.append_inj' hsame rfl
        have hp : p₁ = p₂ := by
          have hway := hp₁.way
          rw [hdir, hp₂.way] at hway
          exact (Option.some.inj hway).symm
        have hname : basename srcPath = basename dstPath := List.singleton_inj.mp hlast
        have heq : relink (seen fs) p₁ (basename srcPath) p₂ (basename dstPath) i = seen fs := by
          funext a x
          unfold relink
          rw [← hp, ← hname, hentry]
          split_ifs with hat hover
          · rw [hat.1, hat.2, hentry]
          · exact absurd (Option.some.inj hover.1).symm hover.2
          · rfl
        rw [heq]
      · obtain ⟨hgone, hbrought⟩ := (hspare habove).resolve_left hsame
        have htaken : segments srcPath <+: r → ¬ place dstPath <+: segments srcPath →
            follow (relink (seen fs) p₁ (basename srcPath) p₂ (basename dstPath) i) .root q =
              none := by
          intro hfrom hto
          refine hsingle.follow_relink_gone hp₁.way hp₂.way ?_ ?_
          · rw [← place, hplace₁]
            exact hfrom.trans hrq
          · rw [← place, ← place, hplace₁]
            exact hto
        rw [follow_none_below hgone hrq]
        by_cases hinto : segments srcPath <+: place dstPath
        · refine htaken (habove.elim (fun hle => hle) hinto.trans) fun hback => hsame ?_
          exact hinto.eq_of_length (Nat.le_antisymm hinto.length_le hback.length_le)
        · by_cases hto : place dstPath <+: r
          · have hnone := hbrought hto hinto
            obtain ⟨rest, rfl⟩ := hto
            obtain ⟨more, rfl⟩ := hrq
            rw [List.drop_left, follow_append_of hs.way] at hnone
            have hapart : ¬ (segments srcPath).dropLast ++ [basename srcPath] <+:
                (segments dstPath).dropLast := by
              rw [← place, hplace₁]
              exact fun hle => hinto (hle.trans (List.prefix_append _ _))
            have harrived := hsingle.follow_relink_arrived (m := basename dstPath) hp₁.way hp₂.way
              hentry hapart (rest ++ more)
            rw [← List.append_assoc] at harrived
            exact harrived.trans (follow_none_below hnone (List.prefix_append _ _))
          · exact htaken (habove.resolve_right hto) fun hback =>
              hto (hback.trans (habove.resolve_right hto))
    · rw [not_or] at habove
      refine hsingle.follow_relink_beside hp₁.way hp₂.way ?_ ?_
      · rw [← place, hplace₁, hbelow hsrc]
        exact habove.1
      · rw [← place, hbelow hdst]
        exact habove.2
  · have hp₁j : j ≠ p₁ := by
      rintro rfl
      have hdir := hsingle.path_unique hj hp₁.way
      exact hsrc (hrq.trans (hdir ▸ List.dropLast_prefix _))
    have hij : j ≠ i := by
      rintro rfl
      exact hsrc (hsingle.path_unique hj hs.way ▸ hrq)
    have hp₂j : j ≠ p₂ := by
      rintro rfl
      have hdir := hsingle.path_unique hj hp₂.way
      exact hdst ((hdir ▸ hrq).trans (List.prefix_append _ _))
    have hover : ¬ (ch₂.get (basename dstPath) = some j ∧ j ≠ i) := by
      rintro ⟨hk, -⟩
      exact hdst (hsingle.path_unique hj (hp₂.way_place.trans hk) ▸ hrq)
    rw [hget, if_neg hover]
    have hkept : ∀ nd, relocated i p₁ p₂ (basename srcPath) (basename dstPath)
        (fs.clock + 1000) j nd = nd := by
      intro nd
      unfold relocated
      simp only [hp₁j, hij, hp₂j, if_false]
    cases fs.nodes.get j with
    | none => rfl
    | some nd => exact congrArg some (hkept nd)

end Frames

section Views
variable {fs fs' : Fs} {r : List Utf16} {path : Utf16}

/-- The names in a children map are distinct. -/
def Distinct (fs : Fs) : Prop :=
  ∀ i node ch, fs.nodes.get i = some node → node.children = some ch → ch.keys.Nodup

theorem resolve_sameUnder (h : Sound fs) (h' : Sound fs') (hsame : SameUnder r fs fs')
    (hunder : r <+: segments path) : resolve path fs' = resolve path fs := by
  rw [resolve_sound h, resolve_sound h', hsame.ways _ hunder]
  cases hway : follow (seen fs) .root (segments path) with
  | none => rfl
  | some i => rw [Option.bind_some, Option.bind_some, hsame.nodes _ i hunder hway]

theorem stat_sameUnder (h : Sound fs) (h' : Sound fs') (hsame : SameUnder r fs fs')
    (hunder : r <+: segments path) : stat path fs' = stat path fs := by
  unfold stat
  rw [resolve_sameUnder h h' hsame hunder]

theorem readBlob_sameUnder (h : Sound fs) (h' : Sound fs') (hsame : SameUnder r fs fs')
    (hunder : r <+: segments path) : readBlob path fs' = readBlob path fs := by
  unfold readBlob
  rw [resolve_sameUnder h h' hsame hunder]

theorem mapM_except_congr {ε α β : Type} {f g : α → Except ε β} {as : List α}
    (h : ∀ a ∈ as, f a = g a) : as.mapM f = as.mapM g := by
  induction as with
  | nil => rfl
  | cons a as ih =>
    rw [List.mapM_cons, List.mapM_cons, h a List.mem_cons_self,
      ih fun b hb => h b (List.mem_cons_of_mem a hb)]

theorem list_sameUnder (h : Sound fs) (h' : Sound fs') (hdistinct : Distinct fs)
    (hsame : SameUnder r fs fs') (hunder : r <+: segments path) : list path fs' = list path fs := by
  unfold list
  rw [resolve_sameUnder h h' hsame hunder]
  cases hr : resolve path fs with
  | error e => rfl
  | ok o =>
    cases o with
    | none => rfl
    | some o =>
      obtain ⟨hway, hnode⟩ := resolve_some h hr
      by_cases hfolder : o.2.type = folderType
      · obtain ⟨ch, hch⟩ := Option.isSome_iff_exists.mp (h.folders _ _ hnode hfolder)
        have hread : childrenOf o.1 o.2 = .ok ch := by
          unfold childrenOf
          rw [hch]
        simp only [bind, Except.bind, hfolder, ne_eq, not_true_eq_false, if_false, hread]
        rw [mapM_except_congr]
        intro e he
        have hentry : seen fs o.1 e.1 = some e.2 := by
          rw [seen_eq_entries hnode hfolder, entries, hnode, kids_some hch]
          exact JsMap.get_of_mem (hdistinct _ _ _ hnode hch) he
        have hchild : nodeAt e.2 fs' = nodeAt e.2 fs := by
          have hsub : follow (seen fs) .root (segments path ++ [e.1]) = some e.2 :=
            follow_snoc_eq_some.mpr ⟨o.1, hway, hentry⟩
          unfold nodeAt
          rw [hsame.nodes _ e.2 (hunder.trans (List.prefix_append _ _)) hsub]
        rw [hchild]
      · simp only [bind, Except.bind, ne_eq, hfolder, not_false_eq_true, if_true]

end Views

/-- What holds of every initial tree and after every call. -/
structure Valid (fs : Fs) : Prop where
  sound : Sound fs
  distinct : Distinct fs

section Valid
variable {fs fs' : Fs}

theorem Distinct.stored (h : Distinct fs) {path : Utf16} {i : NodeId} {node : MemNode}
    (hs : Stored path i node fs fs')
    (hnode : ∀ ch, node.children = some ch → ch.keys.Nodup) : Distinct fs' := by
  obtain ⟨p, nd, ch, hp, -, hget⟩ := hs.parent
  intro j node' ch' hj hch'
  rw [hget] at hj
  split_ifs at hj with hjp hji
  · rw [← Option.some.inj hj] at hch'
    rw [← Option.some.inj hch']
    exact JsMap.nodup_keys_set (h p nd ch hp.found hp.has) _ _
  · obtain rfl := Option.some.inj hj
    exact hnode ch' hch'
  · exact h j node' ch' hj hch'

theorem Distinct.removed (h : Distinct fs) {path : Utf16} {i : NodeId} {node : MemNode}
    (hs : Removed path i node fs fs') : Distinct fs' := by
  obtain ⟨p, nd, ch, hp, hget⟩ := hs.parent
  intro j node' ch' hj hch'
  rw [hget] at hj
  split_ifs at hj with hji hjp
  · rw [← Option.some.inj hj] at hch'
    rw [← Option.some.inj hch']
    exact JsMap.nodup_keys_delete (h p nd ch hp.found hp.has) _
  · exact h j node' ch' hj hch'

theorem Distinct.moved (h : Distinct fs) {srcPath dstPath : Utf16} {i : NodeId}
    (hs : Moved srcPath dstPath i fs fs') : Distinct fs' := by
  obtain ⟨p₁, nd₁, ch₁, p₂, nd₂, ch₂, -, -, hget⟩ := hs.parents
  intro j node' ch' hj hch'
  rw [hget] at hj
  split_ifs at hj
  obtain ⟨nd, hnd, rfl⟩ := Option.map_eq_some_iff.mp hj
  cases hch : nd.children with
  | none =>
    have hnone := relocated_children i p₁ p₂ (basename srcPath) (basename dstPath)
      (fs.clock + 1000) j nd
    rw [hch', hch] at hnone
    cases hnone
  | some ch =>
    have hkeys := h j nd ch hnd hch
    unfold relocated at hch'
    rw [hch] at hch'
    split_ifs at hch'
    all_goals
      simp only [Option.map_some, Option.some_inj, hch] at hch'
      rw [← hch']
    · exact JsMap.nodup_keys_set (JsMap.nodup_keys_delete hkeys _) _ _
    · exact JsMap.nodup_keys_delete hkeys _
    · exact JsMap.nodup_keys_set (JsMap.nodup_keys_delete hkeys _) _ _
    · exact JsMap.nodup_keys_delete hkeys _
    · exact JsMap.nodup_keys_set hkeys _ _
    · exact hkeys
    · exact JsMap.nodup_keys_set hkeys _ _
    · exact hkeys

theorem Distinct.writeResult (h : Distinct fs) {path : Utf16} {rec : VfsWriteRecord} {i : NodeId}
    {ch : JsMap Utf16 NodeId} (hch : (writeResult fs path rec (fs.nodes.get i)).children =
      some ch) : ch.keys.Nodup := by
  unfold MemVfs.writeResult at hch
  rw [written_children] at hch
  cases hnode : fs.nodes.get i with
  | none =>
    rw [hnode] at hch
    split_ifs at hch
    · rw [← Option.some.inj hch]
      exact List.nodup_nil
    · cases hch
  | some node =>
    rw [hnode, Option.getD_some] at hch
    cases hold : node.children with
    | none =>
      rw [hold] at hch
      split_ifs at hch
      · rw [← Option.some.inj hch]
        exact List.nodup_nil
    | some old =>
      rw [hold] at hch
      have hkeys := h i node old hnode hold
      split_ifs at hch
      · rwa [← Option.some.inj hch]
      · rwa [← Option.some.inj hch]

theorem Valid.stored (h : Valid fs) {path : Utf16} {rec : VfsWriteRecord} {i : NodeId}
    (hs : Stored path i (writeResult fs path rec (fs.nodes.get i)) fs fs') : Valid fs' :=
  ⟨h.sound.stored hs (fun _ _ hc => kids_writeResult hc) written_folder,
    h.distinct.stored hs fun _ hch => h.distinct.writeResult hch⟩

theorem Valid.made (h : Valid fs) {path : Utf16} {i : NodeId} {name : Utf16} {t : ℕ}
    (hs : Stored path i (newFolder name t) fs fs') : Valid fs' := by
  refine ⟨h.sound.stored hs (fun x c hc => ?_) fun _ => rfl, h.distinct.stored hs fun ch hch => ?_⟩
  · rw [kids_newFolder] at hc
    cases hc
  · rw [← Option.some.inj hch]
    exact List.nodup_nil

theorem keeps_mkdirSync (prefixes : List Utf16) (path : Utf16) :
    Keeps (fun fs => Valid fs ∧ fs.readOnly = prefixes) (mkdirSync path) := by
  intro fs hfs
  refine (wp_mkdirSync hfs.1.sound path).mono (fun _ fs' hdone => ?_) fun _ fs' hsame => ?_
  · rcases hdone with ⟨hsame, -⟩ | ⟨-, hmade⟩
    · exact hsame ▸ hfs
    · exact ⟨hfs.1.made hmade, hmade.readOnly.trans hfs.2⟩
  · exact hsame ▸ hfs

theorem keeps_writeSync (prefixes : List Utf16) (path : Utf16) (rec : VfsWriteRecord) :
    Keeps (fun fs => Valid fs ∧ fs.readOnly = prefixes) (writeSync path rec) := by
  intro fs hfs
  refine (wp_writeSync hfs.1.sound path rec).mono (fun _ fs' hdone => ?_) fun _ fs' hsame => ?_
  · obtain ⟨i, hstored⟩ := hdone
    exact ⟨hfs.1.stored hstored, hstored.readOnly.trans hfs.2⟩
  · exact hsame ▸ hfs

mutual
theorem keeps_plant (prefixes : List Utf16) (path : Utf16) (seed : Seed) :
    Keeps (fun fs => Valid fs ∧ fs.readOnly = prefixes) (plant path seed) := by
  cases seed with
  | tree entries =>
    rw [plant]
    exact keeps_bind (keeps_mkdirSync prefixes path) fun _ => keeps_build prefixes path entries
  | bytes bytes =>
    rw [plant]
    exact keeps_bind (keeps_writeSync prefixes path _) fun _ => keeps_pure _

/-- The file systems that MemVfs.from builds are valid. -/
theorem keeps_build (prefixes : List Utf16) (parentPath : Utf16) (entries : Seeds) :
    Keeps (fun fs => Valid fs ∧ fs.readOnly = prefixes) (build parentPath entries) := by
  cases entries with
  | nil =>
    rw [build]
    exact keeps_pure _
  | cons name seed entries =>
    rw [build]
    exact keeps_bind (keeps_plant prefixes _ seed) fun _ => keeps_build prefixes parentPath entries
end

theorem valid_new (prefixes : List Utf16) : Valid (new prefixes) := by
  refine ⟨(wellFormed_new prefixes).sound, fun i node ch hnode hch => ?_⟩
  rw [new, JsMap.get_set] at hnode
  split_ifs at hnode
  · rw [← Option.some.inj hnode] at hch
    rw [← Option.some.inj hch]
    exact List.nodup_nil
  · cases hnode

end Valid

/-- A call takes nothing away from the path `r` and brings nothing there: a folder above it is
written over by a folder only, and moved or replaced only where it holds nothing at `r`;
and the root is not moved. Calls that throw are all admitted. -/
def Spares (r : List Utf16) (fs : Fs) : Call → Prop
  | .write path record => Writable fs path → place path <+: r → ∀ p nd ch i node,
      ParentOf fs path p nd ch → ch.get (basename path) = some i → fs.nodes.get i = some node →
      (node.type = folderType ↔ recordType record = folderType) ∨
        follow (entries fs) .root r = none
  | .mkdir _ => True
  | .remove _ => True
  | .move srcPath dstPath | .rename srcPath dstPath =>
      Writable fs srcPath → Writable fs dstPath → ∀ i p nd ch,
        follow (seen fs) .root (segments srcPath) = some i → ParentOf fs dstPath p nd ch →
        segments srcPath ≠ [] ∧
        (segments srcPath <+: r ∨ place dstPath <+: r →
          segments srcPath = place dstPath ∨
          follow (seen fs) .root r = none ∧
            (place dstPath <+: r → ¬ segments srcPath <+: place dstPath →
              follow (seen fs) .root (segments srcPath ++ r.drop (place dstPath).length) = none))

section Run
variable {fs : Fs} {prefixes : List Utf16} {ro : Utf16}

theorem free_of_writable {path : Utf16} (hprefixes : fs.readOnly = prefixes.map normalize)
    (hro : ro ∈ prefixes) (hguard : Writable fs path) :
    ¬ Guards (segments ro) (segments path) := by
  intro hguards
  have hread : readOnlyPath fs (normalize path) = true := by
    rw [readOnlyPath, hprefixes, List.any_map, List.any_eq_true]
    exact ⟨ro, hro, decide_eq_true ((guards_iff ro path).mpr hguards)⟩
  rw [Writable, hread] at hguard
  cases hguard

theorem not_guarded {path : Utf16} (hprefixes : fs.readOnly = prefixes.map normalize)
    (hro : ro ∈ prefixes) (hroot : segments ro ≠ []) (hguard : Writable fs path) :
    ¬ segments ro <+: segments path := by
  have hfree := free_of_writable hprefixes hro hguard
  rwa [Guards, if_neg hroot] at hfree

theorem not_guarded_place {path : Utf16} (hprefixes : fs.readOnly = prefixes.map normalize)
    (hro : ro ∈ prefixes) (hroot : segments ro ≠ []) (hguard : Writable fs path) :
    ¬ segments ro <+: place path := by
  by_cases hpath : segments path = []
  · intro hle
    rw [place_root hpath] at hle
    obtain ⟨s, rest, hsegs⟩ := List.exists_cons_of_ne_nil hroot
    rw [hsegs, List.cons_prefix_cons] at hle
    exact (plain_segments ro s (by rw [hsegs]; exact List.mem_cons_self)).ne_nil hle.1
  · rw [place_eq hpath]
    exact not_guarded hprefixes hro hroot hguard

/-- One call leaves all under the prefix as it was. -/
theorem sameUnder_step (h : Valid fs) (hprefixes : fs.readOnly = prefixes.map normalize)
    (hro : ro ∈ prefixes) (hroot : segments ro ≠ []) (call : Call)
    (hspare : Spares (segments ro) fs call) :
    SameUnder (segments ro) fs (step fs call) ∧ Valid (step fs call) ∧
      (step fs call).readOnly = prefixes.map normalize := by
  rcases step_cases h.sound call with hsame | hchanged
  · rw [hsame]
    exact ⟨SameUnder.refl _ _, h, hprefixes⟩
  · cases hchanged with
    | written path rec i hguard hs given hrec =>
      refine ⟨sameUnder_stored h.sound hs (not_guarded_place hprefixes hro hroot hguard)
        (fun x c hc => kids_writeResult hc) fun habove => ?_, h.stored hs,
        hs.readOnly.trans hprefixes⟩
      cases hnode : fs.nodes.get i with
      | none => exact Or.inr (Or.inr rfl)
      | some node =>
        obtain ⟨p, nd, ch, hp, hplace, -⟩ := hs.parent
        rcases hplace with ⟨hi, -⟩ | ⟨-, rfl, -⟩
        · have hkind := hspare hguard habove p nd ch i node hp hi hnode
          have htype : recordType rec = recordType given := by rw [hrec]; rfl
          rw [← htype] at hkind
          refine hkind.imp (fun hiff x => ?_) Or.inl
          have hlooks : seen fs i x = looks (some node) x := by rw [← hnode]; rfl
          rw [hlooks, writeResult, Option.getD_some, looks, looks, Option.bind_some,
            Option.bind_some, written_type, written_children]
          by_cases hfolder : recordType rec = folderType
          · obtain ⟨own, hown⟩ := Option.isSome_iff_exists.mp
              (h.sound.folders i node hnode (hiff.mpr hfolder))
            simp [hfolder, hiff.mpr hfolder, hown]
          · have hnot : node.type ≠ folderType := fun heq => hfolder (hiff.mp heq)
            rw [if_neg hfolder, if_neg hnot]
        · rw [h.sound.fresh _ (Nat.lt_succ_self _)] at hnode
          cases hnode
    | made path hguard hnone hs =>
      refine ⟨sameUnder_stored h.sound hs (not_guarded_place hprefixes hro hroot hguard)
        (fun x c hc => ?_) fun _ => Or.inr (Or.inr (h.sound.fresh _ (Nat.lt_succ_self _))),
        h.made hs, hs.readOnly.trans hprefixes⟩
      rw [kids_newFolder] at hc
      cases hc
    | removed path i node hguard hs =>
      exact ⟨sameUnder_removed h.sound hs (not_guarded hprefixes hro hroot hguard),
        ⟨h.sound.removed hs, h.distinct.removed hs⟩, hs.readOnly.trans hprefixes⟩
    | moved srcPath dstPath i hsrc hdst hs call hcall =>
      have hspared : Spares (segments ro) fs (.move srcPath dstPath) := by
        rcases hcall with rfl | rfl
        · exact hspare
        · exact hspare
      obtain ⟨p₁, nd₁, ch₁, p₂, nd₂, ch₂, hp₁, hp₂, hget⟩ := hs.parents
      obtain ⟨hne, habove⟩ := hspared hsrc hdst i p₂ nd₂ ch₂ hs.way hp₂
      exact ⟨sameUnder_moved h.sound hs hne (not_guarded hprefixes hro hroot hsrc)
        (not_guarded_place hprefixes hro hroot hdst) habove,
        ⟨h.sound.moved hs hne, h.distinct.moved hs⟩, hs.readOnly.trans hprefixes⟩

end Run

/-- Under a read-only prefix other than the root, everything that stat, list and readBlob
return is after any calls as before, as long as each of them spares the prefix. -/
theorem readOnly_unchanged (prefixes : List Utf16) (fs : Fs) (hvalid : Valid fs)
    (hprefixes : fs.readOnly = prefixes.map normalize) (ro : Utf16) (hro : ro ∈ prefixes)
    (hroot : segments ro ≠ []) (calls : List Call)
    (hspares : Runs.Along (Spares (segments ro)) step fs calls) (path : Utf16)
    (hunder : segments ro <+: segments path) :
    stat path (Runs.run step fs calls) = stat path fs ∧
      list path (Runs.run step fs calls) = list path fs ∧
      readBlob path (Runs.run step fs calls) = readBlob path fs := by
  have hrun := Runs.run_along
    (fun s => SameUnder (segments ro) fs s ∧ Valid s ∧ s.readOnly = prefixes.map normalize)
    (fun s call ⟨hsame, hs, hlist⟩ hspare => by
      obtain ⟨hstep, hs', hlist'⟩ := sameUnder_step hs hlist hro hroot call hspare
      exact ⟨hsame.trans hstep, hs', hlist'⟩)
    calls ⟨SameUnder.refl _ fs, hvalid, hprefixes⟩ hspares
  obtain ⟨hsame, hs, -⟩ := hrun
  exact ⟨stat_sameUnder hvalid.sound hs.sound hsame hunder,
    list_sameUnder hvalid.sound hs.sound hvalid.distinct hsame hunder,
    readBlob_sameUnder hvalid.sound hs.sound hsame hunder⟩

/-- A folder in the root with a folder in it, the latter read-only. -/
def guardedFs : Fs :=
  final (build [slash] (.cons (ofString "a") (.tree (.cons (ofString "b") (.tree .nil) .nil)) .nil)
    (new [ofString "/a/b/"]))

theorem valid_guardedFs : Valid guardedFs ∧ guardedFs.readOnly = [ofString "/a/b/"].map normalize :=
  (keeps_build _ _ _ _ ⟨valid_new _, rfl⟩).final

theorem readOnly_after_calls :
    stat (ofString "/a/b") (Runs.run step guardedFs
      [.mkdir (ofString "/c"), .move (ofString "/c") (ofString "/a/./d")]) =
      stat (ofString "/a/b") guardedFs := by
  refine (readOnly_unchanged [ofString "/a/b/"] guardedFs valid_guardedFs.1 valid_guardedFs.2
    (ofString "/a/b/") List.mem_cons_self (by decide +kernel)
    [.mkdir (ofString "/c"), .move (ofString "/c") (ofString "/a/./d")]
    ⟨trivial, fun _ _ i p nd ch _ _ => ⟨by decide +kernel, fun habove => ?_⟩, trivial⟩
    (ofString "/a/b") (by decide +kernel)).1
  rcases habove with hle | hle
  · exact absurd hle (by decide +kernel)
  · exact absurd hle (by decide +kernel)

/-- The root as a prefix guards nothing, and a folder above a prefix can be moved away or
written over. -/
theorem readOnly_changed :
    stat (ofString "/x") (Runs.run step (new [ofString "/"]) [.mkdir (ofString "/x")]) ≠
      stat (ofString "/x") (new [ofString "/"]) ∧
    stat (ofString "/a/b") (Runs.run step guardedFs [.move (ofString "/a") (ofString "/c")]) ≠
      stat (ofString "/a/b") guardedFs ∧
    stat (ofString "/a/b") (Runs.run step guardedFs
        [.write (ofString "/a") ⟨none, some [1], none, none, none, none⟩]) ≠
      stat (ofString "/a/b") guardedFs := by
  have hfound : ∀ {path : Utf16} {fs fs' : Fs}, stat path fs = stat path fs' →
      (stat path fs).toOption.join.isSome = (stat path fs').toOption.join.isSome :=
    fun h => by rw [h]
  refine ⟨fun h => absurd (hfound h) ?_, fun h => absurd (hfound h) ?_,
    fun h => absurd (hfound h) ?_⟩
  · decide +kernel
  · decide +kernel
  · decide +kernel

end NixWasm.MemVfs
