import Mathlib.Data.List.Infix
import Mathlib.Data.Nat.Notation

/-!
Lookup of a path in a file-system tree with symbolic links. Places are lists of names from
the root. A path is taken component by component, links on the way are put in its place, and
the last component is followed only if the call asks for it. A path whose names are plain
and which meets no link ends at the place it spells.
-/
namespace NixWasm.PathLookup

abbrev Name := List UInt8
abbrev Place := List Name

def slash : UInt8 := 47
def dot : Name := [46]
def dotdot : Name := [46, 46]

inductive Node where
  | directory
  | link (target : Name)
  | other
deriving DecidableEq

/-- What is at each place. -/
abbrev Tree := Place → Option Node

def IsLink (tree : Tree) (p : Place) : Prop := ∃ target, tree p = some (.link target)

instance (tree : Tree) (p : Place) : Decidable (IsLink tree p) :=
  match h : tree p with
  | some (.link target) => isTrue ⟨target, h⟩
  | some .directory | some .other | none => isFalse (by simp [IsLink, h])

def components (path : Name) : List Name := path.splitOn slash

/-- Where the components lead without a link being followed. -/
inductive Scan where
  | done (p : Place)
  | fail
  | link (p : Place) (target : Name) (rest : List Name)
deriving DecidableEq

def scan (tree : Tree) (follow : Bool) : Place → List Name → Scan
  | p, [] => .done p
  | p, name :: rest =>
    if tree p ≠ some .directory then .fail
    else if name = [] ∨ name = dot then scan tree follow p rest
    else if name = dotdot then scan tree follow p.dropLast rest
    else
      match tree (p ++ [name]) with
      | none => .fail
      | some (.link target) =>
        if rest = [] ∧ follow = false then .done (p ++ [name]) else .link p target rest
      | some _ => scan tree follow (p ++ [name]) rest

/-- A lookup gives up after this many links. -/
def maxLinks : ℕ := 40

def lookupFrom (tree : Tree) (follow : Bool) : ℕ → Place → List Name → Option Place
  | links, p, names =>
    match scan tree follow p names with
    | .done q => some q
    | .fail => none
    | .link q target rest =>
      match links with
      | 0 => none
      | links + 1 =>
        lookupFrom tree follow links (if target.head? = some slash then [] else q)
          (components target ++ rest)

def lookup (tree : Tree) (follow : Bool) (path : Name) : Option Place :=
  lookupFrom tree follow maxLinks [] (components path)

/-- The lookup of a path meets a link that it follows. -/
def Follows (tree : Tree) (follow : Bool) (path : Name) : Prop :=
  ∃ p target rest, scan tree follow [] (components path) = .link p target rest

/-- A name as it stands in a directory. -/
def Plain (name : Name) : Prop :=
  name ≠ [] ∧ name ≠ dot ∧ name ≠ dotdot ∧ slash ∉ name

/-- The path that spells a place. -/
def spell : Place → Name
  | [] => [slash]
  | p => p.flatMap (slash :: ·)

theorem spell_of_ne_nil {p : Place} (h : p ≠ []) : spell p = p.flatMap (slash :: ·) := by
  cases p with
  | nil => exact absurd rfl h
  | cons name p => rfl

theorem components_flatMap {names : List Name} (h : ∀ name ∈ names, slash ∉ name) :
    ∀ {name : Name}, slash ∉ name →
      components (name ++ names.flatMap (slash :: ·)) = name :: names := by
  induction names with
  | nil =>
    intro name hname
    rw [List.flatMap_nil, List.append_nil]
    exact List.splitOn_eq_singleton hname
  | cons next names ih =>
    intro name hname
    rw [List.flatMap_cons, List.cons_append]
    refine (List.splitOn_append_cons_self_of_not_mem hname _).trans ?_
    exact congrArg (name :: ·)
      (ih (fun n hn => h n (List.mem_cons_of_mem _ hn)) (h next List.mem_cons_self))

theorem components_spell {p : Place} (hp : p ≠ []) (h : ∀ name ∈ p, slash ∉ name) :
    components (spell p) = [] :: p := by
  rw [spell_of_ne_nil hp]
  exact components_flatMap h List.not_mem_nil

/-- Plain names lead straight on as long as no link is met. -/
theorem scan_straight {tree : Tree} {follow : Bool} {names : List Name}
    (hplain : ∀ name ∈ names, Plain name) :
    ∀ {p : Place},
      (∀ q, q <+: names → q ≠ names → q ≠ [] → ¬IsLink tree (p ++ q)) →
      (follow = true → names ≠ [] → ¬IsLink tree (p ++ names)) →
      scan tree follow p names = .done (p ++ names) ∨ scan tree follow p names = .fail := by
  induction names with
  | nil =>
    intro p _ _
    exact Or.inl (by rw [scan, List.append_nil])
  | cons name names ih =>
    intro p hway hlast
    obtain ⟨hne, hdot, hdotdot, -⟩ := hplain name List.mem_cons_self
    rw [scan]
    by_cases hdir : tree p ≠ some .directory
    · exact Or.inr (if_pos hdir)
    · rw [if_neg hdir, if_neg (not_or.mpr ⟨hne, hdot⟩), if_neg hdotdot]
      have hih := ih (fun n hn => hplain n (List.mem_cons_of_mem _ hn)) (p := p ++ [name])
        (fun q hq hneq hnil => by
          have := hway (name :: q) (List.prefix_cons_inj name |>.mpr hq) (by simpa using hneq)
            (List.cons_ne_nil _ _)
          rwa [List.append_cons] at this)
        (fun hfollow _ => by
          have := hlast hfollow (List.cons_ne_nil _ _)
          rwa [List.append_cons] at this)
      rw [List.append_assoc, List.singleton_append] at hih
      cases hnode : tree (p ++ [name]) with
      | none => exact Or.inr rfl
      | some node =>
        cases node with
        | link target =>
          have hlink : IsLink tree (p ++ [name]) := ⟨target, hnode⟩
          by_cases hend : names = []
          · subst hend
            cases follow with
            | true => exact absurd hlink (hlast rfl (List.cons_ne_nil _ _))
            | false => exact Or.inl (if_pos ⟨rfl, rfl⟩)
          · exact absurd hlink (hway [name] ⟨names, rfl⟩
              (fun heq => hend (List.cons.inj heq).2.symm) (List.cons_ne_nil _ _))
        | directory => exact hih
        | other => exact hih

/-- The way to a place meets no link; the place itself may be one. -/
def Straight (tree : Tree) (p : Place) : Prop :=
  (∀ name ∈ p, Plain name) ∧ ∀ q, q <+: p → q ≠ p → q ≠ [] → ¬IsLink tree q

theorem scan_spell {tree : Tree} {follow : Bool} {p : Place} (h : Straight tree p)
    (hlast : follow = true → ¬IsLink tree p) :
    scan tree follow [] (components (spell p)) = .done p ∨
      scan tree follow [] (components (spell p)) = .fail := by
  by_cases hp : p = []
  · subst hp
    have hroot : components (spell []) = [[], []] := rfl
    rw [hroot, scan]
    by_cases hdir : tree [] ≠ some .directory
    · exact Or.inr (if_pos hdir)
    · rw [if_neg hdir, if_pos (Or.inl rfl), scan, if_neg hdir, if_pos (Or.inl rfl)]
      exact Or.inl rfl
  · rw [components_spell hp fun name hname => (h.1 name hname).2.2.2, scan]
    by_cases hdir : tree [] ≠ some .directory
    · exact Or.inr (if_pos hdir)
    · rw [if_neg hdir, if_pos (Or.inl rfl)]
      exact scan_straight h.1 (p := []) (fun q hq hneq hnil => h.2 q hq hneq hnil)
        fun hfollow _ => hlast hfollow

theorem lookup_spell {tree : Tree} {follow : Bool} {p q : Place} (h : Straight tree p)
    (hlast : follow = true → ¬IsLink tree p) (hlookup : lookup tree follow (spell p) = some q) :
    q = p := by
  unfold lookup lookupFrom at hlookup
  rcases scan_spell h hlast with hscan | hscan
  · rw [hscan] at hlookup
    exact (Option.some.inj hlookup).symm
  · rw [hscan] at hlookup
    cases hlookup

theorem not_follows_spell {tree : Tree} {follow : Bool} {p : Place} (h : Straight tree p)
    (hlast : follow = true → ¬IsLink tree p) : ¬Follows tree follow (spell p) := by
  rintro ⟨q, target, rest, hlink⟩
  rcases scan_spell h hlast with hscan | hscan
  · rw [hscan] at hlink
    cases hlink
  · rw [hscan] at hlink
    cases hlink

theorem Straight.dropLast {tree : Tree} {p : Place} (h : Straight tree p) :
    Straight tree p.dropLast := by
  refine ⟨fun name hname => h.1 name (List.mem_of_mem_dropLast hname), fun q hq hne hnil => ?_⟩
  refine h.2 q (hq.trans (List.dropLast_prefix p)) ?_ hnil
  rintro rfl
  have hlen := hq.length_le
  rw [List.length_dropLast] at hlen
  have : q.length ≠ 0 := fun hzero => hnil (List.length_eq_zero_iff.mp hzero)
  omega

theorem Straight.snoc {tree : Tree} {p : Place} {name : Name} (h : Straight tree p)
    (hlink : p ≠ [] → ¬IsLink tree p) (hname : Plain name) : Straight tree (p ++ [name]) := by
  refine ⟨fun n hn => ?_, fun q hq hne hnil => ?_⟩
  · rcases List.mem_append.mp hn with hn | hn
    · exact h.1 n hn
    · rw [List.mem_singleton.mp hn]
      exact hname
  · rcases List.prefix_concat_iff.mp hq with heq | hq
    · exact absurd heq hne
    · by_cases heq : q = p
      · subst heq
        exact hlink hnil
      · exact h.2 q hq heq hnil

theorem straight_nil (tree : Tree) : Straight tree [] :=
  ⟨fun _ h => absurd h List.not_mem_nil, fun _ hq hne _ => absurd (List.prefix_nil.mp hq) hne⟩

end NixWasm.PathLookup
