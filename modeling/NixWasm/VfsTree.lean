import NixWasm.Vfs

/-!
Backends that are trees of files. What such a backend shows is a partial function of
paths, where only a folder has something below it, and a call is refused or changes that
function in one of four ways. Whatever its states are, a backend of this kind meets what
the server relies on.
-/
namespace NixWasm.Vfs

open Unicode

/-- What is at each path. -/
abbrev FileTree := Path → Option Node

def VfsWriteRecord.node : VfsWriteRecord → Node
  | .file blob => .file blob
  | .alias target => .alias target []

namespace FileTree

variable (W : Path → Bool) (T : FileTree)

/-- Something is put at a path, over all that was at it and below it. -/
def put (p : Path) (n : Node) : FileTree := fun q =>
  if q = p then some n else if p <+: q then none else T q

def erase (p : Path) : FileTree := fun q => if p <+: q then none else T q

/-- What is at `src` and below is moved to `dst`, over what was there. Moved below itself it
is in the tree no more. -/
def graft (src dst : Path) : FileTree := fun q =>
  if dst <+: q ∧ ¬ (src <+: dst ∧ src ≠ dst) then T (src ++ q.drop dst.length)
  else if src <+: q then none
  else T q

/-- What only folders have: something below. -/
def Nested : Prop := ∀ p q n, p <+: q → p ≠ q → T q = some n → T p = some .folder

/-- The result of a call that is not refused; `W` is the write policy. -/
inductive Does : Call → FileTree → Prop
  | write (p : Path) (rec : VfsWriteRecord) (hwritable : W p = true)
      (hparent : T p.dropLast = some .folder) : Does (.write p rec) (T.put p rec.node)
  | present (p : Path) (hwritable : W p = true) (hfolder : T p = some .folder) : Does (.mkdir p) T
  | mkdir (p : Path) (hwritable : W p = true) (hnone : T p = none)
      (hparent : T p.dropLast = some .folder) : Does (.mkdir p) (T.put p .folder)
  | remove (p : Path) (hwritable : W p = true) (hthere : T p ≠ none)
      (hempty : ∀ x, T (p ++ [x]) = none) : Does (.remove p) (T.erase p)
  | move (src dst : Path) (hsrc : W src = true) (hdst : W dst = true) (hthere : T src ≠ none)
      (hparent : T dst.dropLast = some .folder) : Does (.move src dst) (T.graft src dst)

variable {W T}

/-- Below a file there is nothing. -/
theorem Nested.none_below (h : T.Nested) {p q : Path} {n : Node} (hp : T p = some n)
    (hfile : n.isFolder = false) (hle : p <+: q) (hne : p ≠ q) : T q = none := by
  cases hq : T q with
  | none => rfl
  | some m =>
    rw [h p q m hle hne hq] at hp
    cases hp
    cases hfile

theorem put_self (p : Path) (n : Node) : T.put p n p = some n := if_pos rfl

theorem put_clear {p q : Path} (h : ¬ p <+: q) (n : Node) : T.put p n q = T q := by
  have hne : q ≠ p := fun heq => h (heq ▸ List.prefix_rfl)
  unfold put
  rw [if_neg hne, if_neg h]

theorem erase_clear {p q : Path} (h : ¬ p <+: q) : T.erase p q = T q := if_neg h

theorem graft_clear {src dst q : Path} (hsrc : ¬ src <+: q) (hdst : ¬ dst <+: q) :
    T.graft src dst q = T q := by
  unfold graft
  rw [if_neg fun h => hdst h.1, if_neg hsrc]

theorem Does.of_write {p : Path} {rec : VfsWriteRecord} {T' : FileTree}
    (h : Does W T (.write p rec) T') : W p = true ∧ T' = T.put p rec.node := by
  cases h with
  | write _ _ hwritable => exact ⟨hwritable, rfl⟩

theorem Does.unique {c : Call} {T₁ T₂ : FileTree} (h₁ : Does W T c T₁) (h₂ : Does W T c T₂) :
    T₁ = T₂ := by
  cases h₁ with
  | write => cases h₂; rfl
  | present p _ hfolder =>
    cases h₂ with
    | present => rfl
    | mkdir _ _ hnone => cases hfolder.symm.trans hnone
  | mkdir p _ hnone =>
    cases h₂ with
    | present _ _ hfolder => cases hfolder.symm.trans hnone
    | mkdir => rfl
  | remove => cases h₂; rfl
  | move => cases h₂; rfl

/-- A call leaves the files it does not replace, nor anything above them. -/
theorem Does.keep {c : Call} {T' : FileTree} (h : Does W T c T') (hnested : T.Nested) {q : Path}
    {n : Node} (hq : T q = some n) (hclear : ∀ p ∈ c.replaced, ¬ p <+: q) :
    T' q = T q := by
  cases h with
  | write p rec => exact put_clear (hclear p List.mem_cons_self) _
  | present p => rfl
  | mkdir p _ hnone =>
    refine put_clear (fun hle => ?_) _
    by_cases hpq : p = q
    · subst hpq
      rw [hnone] at hq
      cases hq
    · rw [hnested p q n hle hpq hq] at hnone
      cases hnone
  | remove p => exact erase_clear (hclear p List.mem_cons_self)
  | move src dst =>
    exact graft_clear (hclear src List.mem_cons_self)
      (hclear dst (List.mem_cons_of_mem _ List.mem_cons_self))

/-- The two trees show the same, except that the files at the paths of `P` may differ. -/
structure Agree (P : Path → Prop) (T U : FileTree) : Prop where
  same : ∀ p, ¬ P p → T p = U p
  left : ∀ p, P p → ∃ n, T p = some n ∧ n.isFolder = false
  right : ∀ p, P p → ∃ n, U p = some n ∧ n.isFolder = false

section Frame
variable {P : Path → Prop} {U : FileTree}

theorem Agree.symm (h : Agree P T U) : Agree P U T :=
  ⟨fun p hp => (h.same p hp).symm, h.right, h.left⟩

/-- A folder, or nothing, is no file that may differ. -/
theorem Agree.eq_of_left (h : Agree P T U) {p : Path}
    (hp : T p = none ∨ T p = some .folder) : U p = T p := by
  refine (h.same p fun hP => ?_).symm
  obtain ⟨n, hn, hleaf⟩ := h.left p hP
  rcases hp with hp | hp
  · rw [hp] at hn
    cases hn
  · rw [hp] at hn
    cases hn
    cases hleaf

/-- Whether and how a call works does not depend on files it does not replace. -/
theorem Does.frame {c : Call} {T' : FileTree} (h : Does W T c T') (hT : T.Nested) (hU : U.Nested)
    (hagree : Agree P T U) (hclear : ∀ p ∈ c.replaced, ∀ q, P q → ¬ p <+: q) :
    ∃ U', Does W U c U' ∧ Agree P T' U' := by
  have hfind : ∀ p ∈ c.replaced, ∀ rest, U (p ++ rest) = T (p ++ rest) := fun p hp rest =>
    (hagree.same _ fun hP => hclear p hp _ hP (List.prefix_append p rest)).symm
  have hresult : ∀ {U'}, Does W U c U' → (∀ p, ¬ P p → T' p = U' p) → Agree P T' U' := by
    intro U' hdone hsame
    refine ⟨hsame, fun p hP => ?_, fun p hP => ?_⟩
    · obtain ⟨n, hn, hleaf⟩ := hagree.left p hP
      exact ⟨n, (h.keep hT hn fun q hq => hclear q hq p hP).trans hn, hleaf⟩
    · obtain ⟨n, hn, hleaf⟩ := hagree.right p hP
      exact ⟨n, (hdone.keep hU hn fun q hq => hclear q hq p hP).trans hn, hleaf⟩
  have hput : ∀ p n q, T q = U q → T.put p n q = U.put p n q := by
    intro p n q hq
    unfold put
    rw [hq]
  cases h with
  | write p rec hwritable hparent =>
    have hdone := Does.write (T := U) p rec hwritable
      ((hagree.eq_of_left (.inr hparent)).trans hparent)
    exact ⟨_, hdone, hresult hdone fun q hq => hput p _ q (hagree.same q hq)⟩
  | present p hwritable hfolder =>
    exact ⟨U, .present p hwritable ((hagree.eq_of_left (.inr hfolder)).trans hfolder), hagree⟩
  | mkdir p hwritable hnone hparent =>
    have hdone := Does.mkdir (T := U) p hwritable ((hagree.eq_of_left (.inl hnone)).trans hnone)
      ((hagree.eq_of_left (.inr hparent)).trans hparent)
    exact ⟨_, hdone, hresult hdone fun q hq => hput p _ q (hagree.same q hq)⟩
  | remove p hwritable hthere hempty =>
    have hdone := Does.remove (T := U) p hwritable
      (by simpa using (hfind p List.mem_cons_self []).trans_ne (by simpa using hthere))
      fun x => (hfind p List.mem_cons_self [x]).trans (hempty x)
    refine ⟨_, hdone, hresult hdone fun q hq => ?_⟩
    unfold erase
    rw [hagree.same q hq]
  | move src dst hsrc hdst hthere hparent =>
    have hdone := Does.move (T := U) src dst hsrc hdst
      (by simpa using (hfind src List.mem_cons_self []).trans_ne (by simpa using hthere))
      ((hagree.eq_of_left (.inr hparent)).trans hparent)
    refine ⟨_, hdone, hresult hdone fun q hq => ?_⟩
    unfold graft
    rw [hagree.same q hq, hfind src List.mem_cons_self]

end Frame

end FileTree

namespace Backend

variable {σ : Type} {b : Backend σ}

/-- What the backend shows, where it answers. -/
def tree (b : Backend σ) (s : σ) : FileTree := fun p => (b.look s p).toOption.join

/-- A backend that is a tree of files: every path can be looked up, and its calls are those
of the tree. The root is not written to. -/
structure IsTree (b : Backend σ) : Prop where
  answers : ∀ s p, ∃ found, b.stat s p = .ok found
  bytes : ∀ s p, (∃ bytes, b.readBlob s p = .ok bytes) ↔
    ∃ n, b.tree s p = some n ∧ n.isFolder = false
  nested : ∀ s, (b.tree s).Nested
  rooted : b.isWritablePath [] = false
  does : ∀ s c t, b.apply s c = .ok t → FileTree.Does b.isWritablePath (b.tree s) c (b.tree t)
  works : ∀ s c T, FileTree.Does b.isWritablePath (b.tree s) c T → ∃ t, b.apply s c = .ok t

section IsTree
variable (h : b.IsTree)

include h

theorem IsTree.look_eq (s : σ) (p : Path) : b.look s p = .ok (b.tree s p) := by
  obtain ⟨found, hfound⟩ := h.answers s p
  unfold tree look
  rw [hfound]
  rfl

theorem IsTree.look_some {s : σ} {p : Path} {n : Node} :
    b.look s p = .ok (some n) ↔ b.tree s p = some n := by
  rw [h.look_eq]
  exact ⟨fun heq => Except.ok.inj heq, fun heq => congrArg _ heq⟩

theorem IsTree.leaf_iff {s : σ} {p : Path} :
    b.isLeaf s p ↔ ∃ n, b.tree s p = some n ∧ n.isFolder = false := by
  rw [isLeaf_iff]
  exact exists_congr fun n => and_congr_left fun _ => h.look_some

theorem IsTree.agree_iff {P : Path → Prop} {s t : σ} :
    b.Agree P s t ↔ FileTree.Agree P (b.tree s) (b.tree t) := by
  have hsame : ∀ p, b.look s p = b.look t p ↔ b.tree s p = b.tree t p := fun p => by
    rw [h.look_eq, h.look_eq]
    exact ⟨fun heq => Except.ok.inj heq, fun heq => congrArg _ heq⟩
  constructor
  · rintro ⟨hlook, hleaf⟩
    exact ⟨fun p hp => (hsame p).mp (hlook p hp), fun p hp => h.leaf_iff.mp (hleaf p hp).1,
      fun p hp => h.leaf_iff.mp (hleaf p hp).2⟩
  · rintro ⟨htree, hleft, hright⟩
    exact ⟨fun p hp => (hsame p).mpr (htree p hp), fun p hp =>
      ⟨h.leaf_iff.mpr (hleft p hp), h.leaf_iff.mpr (hright p hp)⟩⟩

theorem IsTree.frame {P : Path → Prop} {s t : σ} {c : Call}
    (hclear : ∀ p ∈ c.replaced, ∀ q, P q → ¬ p <+: q) (hagree : b.Agree P s t) :
    Alike (b.Agree P) (b.apply s c) (b.apply t c) := by
  rw [h.agree_iff] at hagree
  cases hs : b.apply s c with
  | ok s' =>
    obtain ⟨U, hU, hafter⟩ := (h.does s c s' hs).frame (h.nested s) (h.nested t) hagree hclear
    obtain ⟨t', ht⟩ := h.works t c U hU
    rw [ht]
    refine h.agree_iff.mpr ?_
    rw [(h.does t c t' ht).unique hU]
    exact hafter
  | error e =>
    cases ht : b.apply t c with
    | error e' => trivial
    | ok t' =>
      obtain ⟨U, hU, -⟩ := (h.does t c t' ht).frame (h.nested t) (h.nested s) hagree.symm hclear
      obtain ⟨s', hs'⟩ := h.works s c U hU
      rw [hs] at hs'
      cases hs'

theorem IsTree.lawful : b.Lawful where
  stat_found := h.answers
  readBlob_leaf s p := (h.bytes s p).trans h.leaf_iff.symm
  below_folder s p q n hle hne hq := by
    rw [h.look_some] at hq ⊢
    exact h.nested s p q n hle hne hq
  write_leaf s p bytes hleaf hwritable := by
    obtain ⟨n, hn, hfile⟩ := h.leaf_iff.mp hleaf
    have hne : p ≠ [] := by
      rintro rfl
      rw [h.rooted] at hwritable
      cases hwritable
    have hshort : p.dropLast ≠ p := fun heq => hne <| List.eq_nil_of_length_eq_zero <| by
      have hlength := congrArg List.length heq
      rw [List.length_dropLast] at hlength
      omega
    have hparent := h.nested s _ p n (List.dropLast_prefix p) hshort hn
    have hdone := FileTree.Does.write p (.file bytes) hwritable hparent
    obtain ⟨t, ht⟩ := h.works s _ _ hdone
    have hafter := (h.does s _ t ht).unique hdone
    refine ⟨t, ht, ?_, fun q hq => ?_⟩
    · rw [h.look_some, hafter, FileTree.put_self]
      rfl
    · rw [h.look_eq, h.look_eq, hafter]
      unfold FileTree.put
      rw [if_neg hq]
      split_ifs with hle
      · rw [(h.nested s).none_below hn hfile hle (Ne.symm hq)]
      · rfl
  write_refused s p bytes hrefused := by
    cases hw : b.write s p (.file bytes) with
    | error e => exact ⟨e, rfl⟩
    | ok t =>
      have hwritable := (h.does s (.write p (.file bytes)) t hw).of_write.1
      rw [hrefused] at hwritable
      cases hwritable
  write_shows s p bytes t _ hw := by
    rw [h.look_some, (h.does s (.write p (.file bytes)) t hw).of_write.2, FileTree.put_self]
    rfl
  keep s c t q ht hleaf hclear := by
    obtain ⟨n, hn, -⟩ := h.leaf_iff.mp hleaf
    rw [h.look_eq, h.look_eq, (h.does s c t ht).keep (h.nested s) hn hclear]
  frame P s t c hclear hagree := h.frame hclear hagree

end IsTree

end Backend

end NixWasm.Vfs
