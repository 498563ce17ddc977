import Mathlib.Data.List.Induction
import Mathlib.Logic.Relation

/-!
Directory trees kept as a table of entries: a node and a name give a child. Where no node
has two entries, and the root none, a node is reached by one path only. Adding a node,
taking one away and moving one keep the tree, as long as what is taken away or moved over
has no children of its own left, and nothing is moved below itself.
-/
namespace NixWasm.Hierarchy

variable {ι ν : Type*}

abbrev Entries (ι ν : Type*) := ι → ν → Option ι

/-- Where a path leads. -/
def follow (e : Entries ι ν) : ι → List ν → Option ι
  | i, [] => some i
  | i, n :: path => (e i n).bind fun c => follow e c path

@[simp] theorem follow_nil (e : Entries ι ν) (i : ι) : follow e i [] = some i := rfl

theorem follow_cons (e : Entries ι ν) (i : ι) (n : ν) (path : List ν) :
    follow e i (n :: path) = (e i n).bind fun c => follow e c path := rfl

theorem follow_append (e : Entries ι ν) (i : ι) (a b : List ν) :
    follow e i (a ++ b) = (follow e i a).bind fun c => follow e c b := by
  induction a generalizing i with
  | nil => rfl
  | cons n a ih =>
    rw [List.cons_append, follow_cons, follow_cons, Option.bind_assoc]
    exact congrArg _ (funext ih)

theorem follow_snoc (e : Entries ι ν) (i : ι) (a : List ν) (n : ν) :
    follow e i (a ++ [n]) = (follow e i a).bind fun c => e c n := by
  rw [follow_append]
  congr 1
  funext c
  exact Option.bind_fun_some (e c n)

theorem follow_append_of {e : Entries ι ν} {i j : ι} {a : List ν} (h : follow e i a = some j)
    (b : List ν) : follow e i (a ++ b) = follow e j b := by
  rw [follow_append, h]
  rfl

theorem follow_snoc_eq_some {e : Entries ι ν} {i c : ι} {a : List ν} {n : ν} :
    follow e i (a ++ [n]) = some c ↔ ∃ j, follow e i a = some j ∧ e j n = some c := by
  rw [follow_snoc, Option.bind_eq_some_iff]

/-- Tables that agree along a path lead to the same place. -/
theorem follow_congr {e e' : Entries ι ν} {i : ι} {path : List ν}
    (h : ∀ a n b j, path = a ++ n :: b → follow e i a = some j → e' j n = e j n) :
    follow e' i path = follow e i path := by
  induction path generalizing i with
  | nil => rfl
  | cons n path ih =>
    rw [follow_cons, follow_cons, h [] n path i rfl rfl]
    cases hc : e i n with
    | none => rfl
    | some c =>
      refine ih fun a m b j hpath hj => h (n :: a) m b j (by rw [hpath]; rfl) ?_
      rw [follow_cons, hc]
      exact hj

/-- More entries lead where fewer did. -/
theorem follow_mono {e e' : Entries ι ν} (h : ∀ {a n b}, e' a n = some b → e a n = some b)
    {i j : ι} {path : List ν} (hj : follow e' i path = some j) : follow e i path = some j := by
  induction path generalizing i with
  | nil => exact hj
  | cons n path ih =>
    obtain ⟨c, hc, hrest⟩ := Option.bind_eq_some_iff.mp hj
    rw [follow_cons, h hc]
    exact ih hrest

/-- Past a place that leads nowhere nothing is reached. -/
theorem follow_none_below {e : Entries ι ν} {i : ι} {a b : List ν}
    (h : follow e i a = none) (hab : a <+: b) : follow e i b = none := by
  obtain ⟨rest, rfl⟩ := hab
  rw [follow_append, h]
  rfl

theorem snoc_not_le (p : List ν) (n : ν) : ¬ p ++ [n] <+: p := by
  intro hlong
  have hlen := hlong.length_le
  rw [List.length_append, List.length_singleton] at hlen
  omega

/-- No node has two entries, and the root has none. -/
structure Single (e : Entries ι ν) (root : ι) : Prop where
  once : ∀ {i j : ι} {n m : ν} {c : ι}, e i n = some c → e j m = some c → i = j ∧ n = m
  free : ∀ i n, e i n ≠ some root

section Single
variable {e : Entries ι ν} {root : ι}

/-- A node is reached by one path only. -/
theorem Single.path_unique (h : Single e root) {p q : List ν} {i : ι}
    (hp : follow e root p = some i) (hq : follow e root q = some i) : p = q := by
  induction p using List.reverseRecOn generalizing q i with
  | nil =>
    obtain rfl : root = i := Option.some.inj hp
    rcases List.eq_nil_or_concat q with rfl | ⟨q, m, rfl⟩
    · rfl
    · rw [List.concat_eq_append, follow_snoc_eq_some] at hq
      obtain ⟨j, -, hlast⟩ := hq
      exact absurd hlast (h.free j m)
  | append_singleton p n ih =>
    obtain ⟨j, hj, hlast⟩ := follow_snoc_eq_some.mp hp
    rcases List.eq_nil_or_concat q with rfl | ⟨q, m, rfl⟩
    · obtain rfl : root = i := Option.some.inj hq
      exact absurd hlast (h.free j n)
    · rw [List.concat_eq_append] at hq ⊢
      obtain ⟨k, hk, hlast'⟩ := follow_snoc_eq_some.mp hq
      obtain ⟨rfl, rfl⟩ := h.once hlast hlast'
      rw [ih hj hk]

/-- What is reached through an entry has the entry's path as a prefix. -/
theorem Single.path_of_entry (h : Single e root) {p q : List ν} {i j : ι} {n : ν}
    (hp : follow e root p = some i) {b : List ν} {a : List ν} {m : ν} (hsplit : q = a ++ m :: b)
    (ha : follow e root a = some j) (heq : j = i ∧ m = n) : p ++ [n] <+: q := by
  obtain ⟨rfl, rfl⟩ := heq
  rw [h.path_unique hp ha, hsplit]
  exact ⟨b, by simp⟩

/-- There is a way from `i` to `j` down the tree. -/
def Child (e : Entries ι ν) (i j : ι) : Prop := ∃ n, e i n = some j

theorem reaches_of_follow {i j : ι} {path : List ν} (h : follow e i path = some j) :
    Relation.ReflTransGen (Child e) i j := by
  induction path generalizing i with
  | nil => exact Option.some.inj h ▸ Relation.ReflTransGen.refl
  | cons n path ih =>
    obtain ⟨c, hc, hrest⟩ := Option.bind_eq_some_iff.mp h
    exact Relation.ReflTransGen.head ⟨n, hc⟩ (ih hrest)

theorem follow_of_reaches {i j : ι} (h : Relation.ReflTransGen (Child e) i j) :
    ∃ path, follow e i path = some j := by
  induction h with
  | refl => exact ⟨[], rfl⟩
  | tail _ hstep ih =>
    obtain ⟨path, hpath⟩ := ih
    obtain ⟨n, hn⟩ := hstep
    exact ⟨path ++ [n], follow_snoc_eq_some.mpr ⟨_, hpath, hn⟩⟩

/-- Nothing that the root leads to lies below itself. -/
theorem Single.acyclic (h : Single e root) {i : ι} {p : List ν} (hp : follow e root p = some i) :
    ¬ Relation.TransGen (Child e) i i := by
  intro hcycle
  obtain ⟨c, ⟨n, hc⟩, hback⟩ := Relation.TransGen.head'_iff.mp hcycle
  obtain ⟨q, hq⟩ := follow_of_reaches hback
  have hlong : follow e root (p ++ n :: q) = some i := by
    rw [follow_append_of hp, follow_cons, hc]
    exact hq
  have hlen := congrArg List.length (h.path_unique hp hlong)
  simp at hlen

end Single

/-- The entries are between nodes, one for each node at most. -/
structure Tidy (nodes : ι → Prop) (e : Entries ι ν) (root : ι) : Prop extends Single e root where
  closed : ∀ {i n c}, e i n = some c → nodes i ∧ nodes c

/-- The nodes are those that the root leads to, each by one path. -/
structure Rooted (nodes : ι → Prop) (e : Entries ι ν) (root : ι) : Prop
    extends Tidy nodes e root where
  root_mem : nodes root
  reach : ∀ i, nodes i → ∃ path, follow e root path = some i

section Rooted
variable {nodes : ι → Prop} {e : Entries ι ν} {root : ι}

/-- Every node but the root has an entry. -/
theorem Rooted.entry (h : Rooted nodes e root) {i : ι} (hi : nodes i) (hne : i ≠ root) :
    ∃ j n, e j n = some i := by
  obtain ⟨path, hpath⟩ := h.reach i hi
  rcases List.eq_nil_or_concat path with rfl | ⟨path, n, rfl⟩
  · exact absurd (Option.some.inj hpath).symm hne
  · rw [List.concat_eq_append, follow_snoc_eq_some] at hpath
    obtain ⟨j, -, hj⟩ := hpath
    exact ⟨j, n, hj⟩

theorem Tidy.mem_of_follow (h : Tidy nodes e root) {i j : ι} {path : List ν} (hi : nodes i)
    (hj : follow e i path = some j) : nodes j := by
  induction path generalizing i with
  | nil => exact Option.some.inj hj ▸ hi
  | cons n path ih =>
    obtain ⟨c, hc, hrest⟩ := Option.bind_eq_some_iff.mp hj
    exact ih (h.closed hc).2 hrest

/-- Entries may be taken out, and nodes that have none left. -/
theorem Tidy.sub (h : Tidy nodes e root) {nodes' : ι → Prop} {e' : Entries ι ν}
    (hsub : ∀ {a x b}, e' a x = some b → e a x = some b)
    (hnodes : ∀ {a x b}, e' a x = some b → nodes' a ∧ nodes' b) : Tidy nodes' e' root :=
  ⟨⟨fun ha hb => h.once (hsub ha) (hsub hb), fun a x ha => h.free a x (hsub ha)⟩, hnodes⟩

variable [DecidableEq ι] [DecidableEq ν]

/-- The table with one entry put in. -/
def link (e : Entries ι ν) (i : ι) (n : ν) (c : ι) : Entries ι ν :=
  fun a x => if a = i ∧ x = n then some c else e a x

/-- The table with one entry taken out. -/
def unlink (e : Entries ι ν) (i : ι) (n : ν) : Entries ι ν :=
  fun a x => if a = i ∧ x = n then none else e a x

/-- The table once `c` is at `(i, n)` no more but at `(j, m)`, over the node that was there. -/
def relink (e : Entries ι ν) (i : ι) (n : ν) (j : ι) (m : ν) (c : ι) : Entries ι ν :=
  fun a x =>
    if a = j ∧ x = m then some c
    else if a = i ∧ x = n then none
    else if e j m = some a ∧ a ≠ c then none
    else e a x

theorem link_eq_some {i c a b : ι} {n x : ν} (h : link e i n c a x = some b) :
    e a x = some b ∨ a = i ∧ x = n ∧ b = c := by
  unfold link at h
  split_ifs at h with hat
  · exact Or.inr ⟨hat.1, hat.2, (Option.some.inj h).symm⟩
  · exact Or.inl h

theorem link_of_free {i c a b : ι} {n x : ν} (hfree : e i n = none) (h : e a x = some b) :
    link e i n c a x = some b := by
  unfold link
  rw [if_neg]
  · exact h
  · rintro ⟨rfl, rfl⟩
    rw [hfree] at h
    cases h

/-- A new node without children is put in a free place. -/
theorem Tidy.add (h : Tidy nodes e root) {i c : ι} {n : ν} (hi : nodes i) (hroot : c ≠ root)
    (hc : ¬ nodes c) : Tidy (fun a => nodes a ∨ a = c) (link e i n c) root := by
  refine ⟨⟨?_, ?_⟩, ?_⟩
  · intro a b x y d ha hb
    rcases link_eq_some ha with hae | ⟨hai, hax, rfl⟩
    · rcases link_eq_some hb with hb | ⟨-, -, rfl⟩
      · exact h.once hae hb
      · exact absurd (h.closed hae).2 hc
    · rcases link_eq_some hb with hb | ⟨hbi, hbx, -⟩
      · exact absurd (h.closed hb).2 hc
      · exact ⟨hai.trans hbi.symm, hax.trans hbx.symm⟩
  · intro a x ha
    rcases link_eq_some ha with ha | ⟨-, -, heq⟩
    · exact h.free a x ha
    · exact hroot heq.symm
  · intro a x b hb
    rcases link_eq_some hb with hb | ⟨rfl, rfl, rfl⟩
    · exact ⟨Or.inl (h.closed hb).1, Or.inl (h.closed hb).2⟩
    · exact ⟨Or.inl hi, Or.inr rfl⟩

theorem Rooted.add (h : Rooted nodes e root) {i c : ι} {n : ν} (hi : nodes i) (hfree : e i n = none)
    (hc : ¬ nodes c) : Rooted (fun a => nodes a ∨ a = c) (link e i n c) root := by
  have hroot : c ≠ root := fun heq => hc (heq ▸ h.root_mem)
  have hfollow : ∀ path j, follow e root path = some j →
      follow (link e i n c) root path = some j := by
    intro path j hj
    rw [follow_congr (e := e)]
    · exact hj
    · intro a x b k hpath hk
      rw [hpath, follow_append_of hk, follow_cons] at hj
      obtain ⟨d, hd, -⟩ := Option.bind_eq_some_iff.mp hj
      rw [hd, link_of_free hfree hd]
  refine ⟨h.toTidy.add hi hroot hc, Or.inl h.root_mem, ?_⟩
  rintro a (ha | rfl)
  · obtain ⟨path, hpath⟩ := h.reach a ha
    exact ⟨path, hfollow path a hpath⟩
  · obtain ⟨path, hpath⟩ := h.reach i hi
    refine ⟨path ++ [n], follow_snoc_eq_some.mpr ⟨i, hfollow path i hpath, ?_⟩⟩
    exact if_pos ⟨rfl, rfl⟩

theorem unlink_eq_some {i a b : ι} {n x : ν} (h : unlink e i n a x = some b) :
    e a x = some b ∧ ¬ (a = i ∧ x = n) := by
  unfold unlink at h
  split_ifs at h with hat
  exact ⟨h, hat⟩

/-- A node without children is taken away. -/
theorem Rooted.prune (h : Rooted nodes e root) {i c : ι} {n : ν} (hentry : e i n = some c)
    (hleaf : ∀ x, e c x = none) : Rooted (fun a => nodes a ∧ a ≠ c) (unlink e i n) root := by
  have hkept : ∀ {a x b}, unlink e i n a x = some b → b ≠ c := by
    rintro a x b hb rfl
    exact (unlink_eq_some hb).2 (h.once (unlink_eq_some hb).1 hentry)
  refine ⟨h.toTidy.sub (fun hb => (unlink_eq_some hb).1) ?_, ⟨h.root_mem, ?_⟩, ?_⟩
  · intro a x b hb
    obtain ⟨hold, -⟩ := unlink_eq_some hb
    refine ⟨⟨(h.closed hold).1, ?_⟩, (h.closed hold).2, hkept hb⟩
    rintro rfl
    rw [hleaf x] at hold
    cases hold
  · rintro rfl
    exact h.free i n hentry
  · rintro a ⟨ha, hne⟩
    obtain ⟨path, hpath⟩ := h.reach a ha
    refine ⟨path, ?_⟩
    rw [follow_congr (e := e)]
    · exact hpath
    · intro p x q j hsplit hj
      unfold unlink
      rw [if_neg]
      rintro ⟨rfl, rfl⟩
      rw [hsplit, follow_append_of hj, follow_cons, hentry] at hpath
      cases q with
      | nil => exact hne (Option.some.inj hpath).symm
      | cons y q =>
        change follow e c (y :: q) = some a at hpath
        rw [follow_cons, hleaf y] at hpath
        cases hpath

theorem relink_eq_some {i j c a b : ι} {n m x : ν} (h : relink e i n j m c a x = some b) :
    a = j ∧ x = m ∧ b = c ∨
      e a x = some b ∧ ¬ (a = j ∧ x = m) ∧ ¬ (a = i ∧ x = n) ∧ ¬ (e j m = some a ∧ a ≠ c) := by
  unfold relink at h
  split_ifs at h with hto hfrom hover
  · exact Or.inl ⟨hto.1, hto.2, (Option.some.inj h).symm⟩
  · exact Or.inr ⟨h, hto, hfrom, hover⟩

theorem relink_of_ne {i j c a : ι} {n m x : ν} (hto : ¬ (a = j ∧ x = m))
    (hfrom : ¬ (a = i ∧ x = n)) (hover : ¬ (e j m = some a ∧ a ≠ c)) :
    relink e i n j m c a x = e a x := by
  unfold relink
  rw [if_neg hto, if_neg hfrom, if_neg hover]

/-- Below the moved node nothing changes. -/
theorem Single.follow_relink (h : Single e root) {i j c : ι} {n m : ν} (hentry : e i n = some c)
    {pc : List ν} (hpc : follow e root pc = some c) (hapart : ∀ path, follow e c path ≠ some j)
    (path : List ν) : follow (relink e i n j m c) c path = follow e c path := by
  refine follow_congr fun a x b l _ hl => relink_of_ne ?_ ?_ ?_
  · rintro ⟨rfl, -⟩
    exact hapart a hl
  · rintro ⟨rfl, -⟩
    refine h.acyclic hpc ?_
    exact Relation.TransGen.tail' (reaches_of_follow hl) ⟨n, hentry⟩
  · rintro ⟨hover, hne⟩
    rcases List.eq_nil_or_concat a with rfl | ⟨a, y, rfl⟩
    · exact hne (Option.some.inj hl).symm
    · rw [List.concat_eq_append, follow_snoc_eq_some] at hl
      obtain ⟨l', hl', hlast⟩ := hl
      obtain ⟨rfl, -⟩ := h.once hlast hover
      exact hapart a hl'

/-- A node is moved, over what was in the place. -/
theorem Tidy.move (h : Tidy nodes e root) {i j c : ι} {n m : ν} (hentry : e i n = some c)
    (hj : nodes j) {pj : List ν} (hpj : follow e root pj = some j) :
    Tidy (fun a => nodes a ∧ (e j m = some a → a = c)) (relink e i n j m c) root := by
  have hkept : ∀ {a x b}, e a x = some b → ¬ (a = j ∧ x = m) → ¬ (a = i ∧ x = n) →
      b ≠ c ∧ (e j m = some b → b = c) := by
    intro a x b hb hto hfrom
    refine ⟨?_, fun hover => absurd (h.once hb hover) hto⟩
    rintro rfl
    exact hfrom (h.once hb hentry)
  refine ⟨⟨?_, ?_⟩, ?_⟩
  · intro a b x y d ha hb
    rcases relink_eq_some ha with ⟨haj, hxm, rfl⟩ | ⟨ha, hto, hfrom, -⟩
    · rcases relink_eq_some hb with ⟨hbj, hym, -⟩ | ⟨hb, hto, hfrom, -⟩
      · exact ⟨haj.trans hbj.symm, hxm.trans hym.symm⟩
      · exact absurd rfl (hkept hb hto hfrom).1
    · rcases relink_eq_some hb with ⟨-, -, hdc⟩ | ⟨hb, -, -, -⟩
      · exact absurd hdc (hkept ha hto hfrom).1
      · exact h.once ha hb
  · intro a x ha
    rcases relink_eq_some ha with ⟨-, -, rfl⟩ | ⟨ha, -⟩
    · exact h.free i n hentry
    · exact h.free a x ha
  · intro a x b hb
    rcases relink_eq_some hb with ⟨rfl, rfl, rfl⟩ | ⟨hb, hto, hfrom, hover⟩
    · refine ⟨⟨hj, fun hloop => ?_⟩, (h.closed hentry).2, fun _ => rfl⟩
      exact absurd (Relation.TransGen.single ⟨_, hloop⟩) (h.acyclic hpj)
    · refine ⟨⟨(h.closed hb).1, fun heq => ?_⟩, (h.closed hb).2, (hkept hb hto hfrom).2⟩
      exact by_contra fun hne => hover ⟨heq, hne⟩

/-- A node is moved, together with all that is below it. -/
theorem Rooted.move (h : Rooted nodes e root) {i j c : ι} {n m : ν} (hentry : e i n = some c)
    (hj : nodes j) (hapart : ∀ path, follow e c path ≠ some j)
    (hclash : ∀ k, e j m = some k → k = c ∨ ∀ x d, e k x = some d → d = c) :
    Rooted (fun a => nodes a ∧ (e j m = some a → a = c)) (relink e i n j m c) root := by
  obtain ⟨pc, hpc⟩ := h.reach c (h.closed hentry).2
  obtain ⟨pj, hpj⟩ := h.reach j hj
  have hj' : e j m = some j → j = c := fun hloop =>
    absurd (Relation.TransGen.single ⟨m, hloop⟩) (h.acyclic hpj)
  -- a way that does not lead through the moved node stays as it is
  have hbeside : ∀ path k, follow e root path = some k → (e j m = some k → k = c) →
      (∀ q, follow e c q ≠ some k) → follow (relink e i n j m c) root path = some k := by
    intro path k hpath hk hbelow
    rw [follow_congr (e := e)]
    · exact hpath
    · intro a x b l hsplit hl
      rw [hsplit, follow_append_of hl, follow_cons, Option.bind_eq_some_iff] at hpath
      obtain ⟨d, hd, hrest⟩ := hpath
      have hdc : d ≠ c := by
        rintro rfl
        exact hbelow b hrest
      refine relink_of_ne ?_ ?_ ?_
      · rintro ⟨rfl, rfl⟩
        have hchildren := (hclash d hd).resolve_left hdc
        cases b with
        | nil =>
          obtain rfl : d = k := Option.some.inj hrest
          exact hdc (hk hd)
        | cons y b =>
          rw [follow_cons, Option.bind_eq_some_iff] at hrest
          obtain ⟨d', hd', hrest⟩ := hrest
          obtain rfl := hchildren y d' hd'
          exact hbelow b hrest
      · rintro ⟨rfl, rfl⟩
        exact hdc (Option.some.inj (hd.symm.trans hentry))
      · rintro ⟨hover, hne⟩
        exact hdc (((hclash l hover).resolve_left hne) x d hd)
  have hc : follow (relink e i n j m c) root (pj ++ [m]) = some c := by
    refine follow_snoc_eq_some.mpr ⟨j, hbeside pj j hpj hj' hapart, ?_⟩
    exact if_pos ⟨rfl, rfl⟩
  refine ⟨h.toTidy.move hentry hj hpj, ⟨h.root_mem, fun hover => absurd hover (h.free j m)⟩, ?_⟩
  rintro a ⟨ha, hgone⟩
  by_cases hbelow : ∃ q, follow e c q = some a
  · obtain ⟨q, hq⟩ := hbelow
    refine ⟨pj ++ [m] ++ q, ?_⟩
    rw [follow_append_of hc, h.follow_relink hentry hpc hapart]
    exact hq
  · rw [not_exists] at hbelow
    obtain ⟨path, hpath⟩ := h.reach a ha
    exact ⟨path, hbeside path a hpath hgone hbelow⟩

section Ways
variable (h : Single e root) {i j c : ι} {n m : ν} {pi pj : List ν}
  (hpi : follow e root pi = some i) (hpj : follow e root pj = some j)
include h hpi hpj

/-- A way that passes neither place of a move. -/
theorem Single.follow_relink_beside {path : List ν} (hfrom : ¬ pi ++ [n] <+: path)
    (hto : ¬ pj ++ [m] <+: path) :
    follow (relink e i n j m c) root path = follow e root path := by
  refine follow_congr fun a x b l hsplit hl => relink_of_ne ?_ ?_ ?_
  · exact fun heq => hto (h.path_of_entry hpj hsplit hl heq)
  · exact fun heq => hfrom (h.path_of_entry hpi hsplit hl heq)
  · rintro ⟨hover, -⟩
    have hplace := h.path_unique hl (follow_snoc_eq_some.mpr ⟨j, hpj, hover⟩)
    exact hto ⟨x :: b, by rw [hsplit, hplace]⟩

/-- Nothing is left where the moved node was. -/
theorem Single.follow_relink_gone {path : List ν} (hfrom : pi ++ [n] <+: path)
    (hto : ¬ pj ++ [m] <+: pi ++ [n]) : follow (relink e i n j m c) root path = none := by
  obtain ⟨rest, rfl⟩ := hfrom
  have hparent : follow (relink e i n j m c) root pi = some i := by
    rw [h.follow_relink_beside hpi hpj]
    · exact hpi
    · exact snoc_not_le _ _
    · exact fun hle => hto (hle.trans (List.prefix_append pi [n]))
  have hne : ¬ (i = j ∧ n = m) := by
    rintro ⟨rfl, rfl⟩
    rw [h.path_unique hpi hpj] at hto
    exact hto List.prefix_rfl
  have hempty : relink e i n j m c i n = none := by
    unfold relink
    rw [if_neg hne, if_pos ⟨rfl, rfl⟩]
  rw [follow_append, follow_snoc, hparent]
  change (relink e i n j m c i n).bind _ = none
  rw [hempty]
  rfl

/-- Where the node was moved there is what was below it. -/
theorem Single.follow_relink_arrived (hentry : e i n = some c) (hapart : ¬ pi ++ [n] <+: pj)
    (rest : List ν) : follow (relink e i n j m c) root (pj ++ [m] ++ rest) = follow e c rest := by
  have hpc : follow e root (pi ++ [n]) = some c := follow_snoc_eq_some.mpr ⟨i, hpi, hentry⟩
  have hparent : follow (relink e i n j m c) root pj = some j := by
    rw [h.follow_relink_beside hpi hpj hapart]
    · exact hpj
    · exact snoc_not_le _ _
  have hplace : follow (relink e i n j m c) root (pj ++ [m]) = some c :=
    follow_snoc_eq_some.mpr ⟨j, hparent, if_pos ⟨rfl, rfl⟩⟩
  rw [follow_append_of hplace, h.follow_relink hentry hpc]
  intro path hpath
  refine hapart ⟨path, h.path_unique ?_ hpj⟩
  rw [follow_append_of hpc]
  exact hpath

end Ways

end Rooted

end NixWasm.Hierarchy
