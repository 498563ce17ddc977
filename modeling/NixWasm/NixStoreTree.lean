import NixWasm.NixStore

/-!
The tree that buildTree of nix-store.ts makes out of a package's files. The folders are plain
objects: what is read of one may come from Object.prototype, and a walk that goes through an
inherited property, through a file or through `__proto__` leaves the tree's own folders. What a
tree shows at a path is compared with what the files say.
-/
namespace NixWasm.NixStore

open Unicode NinepServer MemVfs

/-- The properties that every plain object inherits. -/
def inheritedNames : List Utf16 :=
  ["constructor", "__defineGetter__", "__defineSetter__", "hasOwnProperty", "__lookupGetter__",
    "__lookupSetter__", "isPrototypeOf", "propertyIsEnumerable", "toString", "valueOf",
    "__proto__", "toLocaleString"].map ofString

def proto : Utf16 := ofString "__proto__"

/-- `path.split("/").filter(Boolean)`. -/
def segs (path : Utf16) : List Utf16 := (splitSlash path).filter fun s => s ≠ []

/-- An own property of an object. -/
def get (s : Utf16) : Seeds → Option Seed
  | .nil => none
  | .cons name seed entries => if name = s then some seed else get s entries

def set (s : Utf16) (value : Seed) : Seeds → Seeds
  | .nil => .cons s value .nil
  | .cons name seed entries =>
    if name = s then .cons name value entries else .cons name seed (set s value entries)

/-- `cur[s] || {}` when it is a folder of the tree: an own one, or a new one. -/
def enter (s : Utf16) (cur : Seeds) : Option Seeds :=
  match get s cur with
  | some (.tree entries) => some entries
  | some (.bytes _) => none
  | none => if s ∈ inheritedNames then none else some .nil

/-- Put a file at the end of a path, with the folders on the way; none when the walk leaves the
tree's own folders. A path without segments ends in `cur[undefined]`. -/
def insert (bytes : List UInt8) : List Utf16 → Seeds → Option Seeds
  | [], cur => some (set (ofString "undefined") (.bytes bytes) cur)
  | [last], cur => if last = proto then none else some (set last (.bytes bytes) cur)
  | s :: next :: rest, cur => do
    let folder ← enter s cur
    return set s (.tree (← insert bytes (next :: rest) folder)) cur

/-- Expand a flat map into a nested tree. -/
def buildTree (files : NixPackageFiles) : Option Seeds :=
  files.entries.foldlM (fun root f => insert f.2 (segs f.1) root) .nil

/-- What is at a path. -/
inductive Shown
  | file (bytes : List UInt8)
  | folder
deriving DecidableEq

def find : List Utf16 → Seed → Option Shown
  | [], .bytes bytes => some (.file bytes)
  | [], .tree _ => some .folder
  | _ :: _, .bytes _ => none
  | s :: rest, .tree entries => (get s entries).bind (find rest)

def look (q : List Utf16) (root : Seeds) : Option Shown := find q (.tree root)

/-- The tree shows each file at its path, the folders above them, and nothing else. -/
structure Shows (files : List (Utf16 × List UInt8)) (root : Seeds) : Prop where
  file : ∀ q bytes, look q root = some (.file bytes) ↔ ∃ path, (path, bytes) ∈ files ∧ segs path = q
  folder : ∀ q, look q root = some .folder ↔
    q = [] ∨ ∃ f ∈ files, q <+: segs f.1 ∧ q ≠ segs f.1

/-- The folders of a path are not inherited properties, and it names a file. -/
structure Walkable (p : List Utf16) : Prop where
  nonempty : p ≠ []
  folders : ∀ s ∈ p.dropLast, s ∉ inheritedNames
  last : p.getLast? ≠ some proto

/-- No path is at or below another one. -/
def Apart (p q : List Utf16) : Prop := ¬ p <+: q ∧ ¬ q <+: p

/-- The paths lead to different places in the tree. -/
structure NixPackageFiles.NoConflict (files : NixPackageFiles) : Prop where
  walkable : ∀ f ∈ files.entries, Walkable (segs f.1)
  apart : files.entries.Pairwise fun f g => Apart (segs f.1) (segs g.1)

section Objects

theorem get_set_self (s : Utf16) (value : Seed) :
    ∀ entries, get s (set s value entries) = some value
  | .nil => by simp [set, get]
  | .cons name seed entries => by
    have hrest := get_set_self s value entries
    by_cases hname : name = s
    · simp [set, get, hname]
    · simpa [set, get, hname] using hrest

theorem get_set_of_ne {s t : Utf16} (h : t ≠ s) (value : Seed) :
    ∀ entries, get t (set s value entries) = get t entries
  | .nil => by simp [set, get, h.symm]
  | .cons name seed entries => by
    have hrest := get_set_of_ne h value entries
    by_cases hname : name = s
    · simp [set, get, hname, h.symm]
    · simp [set, get, hname, hrest]

theorem look_cons (s : Utf16) (rest : List Utf16) (root : Seeds) :
    look (s :: rest) root = (get s root).bind (find rest) := rfl

theorem look_nil (root : Seeds) : look [] root = some .folder := rfl

/-- Nothing is in an empty object. -/
theorem look_empty {q : List Utf16} (h : q ≠ []) : look q .nil = none := by
  cases q with
  | nil => exact absurd rfl h
  | cons s rest => rfl

/-- Below a changed property only that property is seen. -/
theorem look_set_self (s : Utf16) (rest : List Utf16) (value : Seed) (root : Seeds) :
    look (s :: rest) (set s value root) = find rest value := by
  rw [look_cons, get_set_self]
  rfl

theorem look_set_of_ne {s t : Utf16} (h : t ≠ s) (rest : List Utf16) (value : Seed)
    (root : Seeds) : look (t :: rest) (set s value root) = look (t :: rest) root := by
  rw [look_cons, get_set_of_ne h, look_cons]

end Objects

section Insert
variable {p : List Utf16} {root : Seeds}

/-- A path can be added: nothing is there and no file is above it. -/
structure Free (p : List Utf16) (root : Seeds) : Prop where
  here : look p root = none
  above : ∀ q, q <+: p → ∀ bytes, look q root ≠ some (.file bytes)

/-- What a tree shows when a file was put at a path. -/
def Put (bytes : List UInt8) (p : List Utf16) (root after : Seeds) : Prop :=
  ∀ q, look q after =
    if q = p then some (.file bytes) else if q <+: p then some .folder else look q root

/-- A folder that a walk goes into shows what the tree shows below its name. -/
theorem enter_free {s : Utf16} {rest : List Utf16} (hs : s ∉ inheritedNames)
    (hfree : Free (s :: rest) root) :
    ∃ folder, enter s root = some folder ∧ ∀ q, q ≠ [] → look q folder = look (s :: q) root := by
  cases hget : get s root with
  | none =>
    refine ⟨.nil, by simp [enter, hget, hs], fun q hq => ?_⟩
    rw [look_empty hq, look_cons, hget]
    rfl
  | some seed =>
    cases seed with
    | tree entries =>
      refine ⟨entries, by simp [enter, hget], fun q _ => ?_⟩
      rw [look_cons, hget]
      rfl
    | bytes bytes =>
      have hfile : look [s] root = some (.file bytes) := by
        rw [look_cons, hget]
        rfl
      exact absurd hfile (hfree.above [s] ⟨rest, rfl⟩ bytes)

/-- Putting a file at a free path adds it and the folders above it. -/
theorem insert_put (bytes : List UInt8) (hwalk : Walkable p) (hfree : Free p root) :
    ∃ after, insert bytes p root = some after ∧ Put bytes p root after := by
  induction p generalizing root with
  | nil => exact absurd rfl hwalk.nonempty
  | cons s rest ih =>
    cases rest with
    | nil =>
      have hproto : s ≠ proto := fun heq => hwalk.last (by rw [heq]; rfl)
      refine ⟨set s (.bytes bytes) root, by simp [insert, hproto], fun q => ?_⟩
      cases q with
      | nil => simp [look_nil]
      | cons t q =>
        by_cases ht : t = s
        · subst ht
          rw [look_set_self]
          cases q with
          | nil => simp [find]
          | cons u q =>
            have hnone : look (t :: u :: q) root = none := by
              have hhere := hfree.here
              rw [look_cons] at hhere ⊢
              cases hget : get t root with
              | none => rfl
              | some seed =>
                rw [hget] at hhere
                cases seed <;> cases hhere
            simp [find, hnone]
        · rw [look_set_of_ne ht]
          simp [ht]
    | cons next rest =>
      have hs : s ∉ inheritedNames := hwalk.folders s (by simp)
      obtain ⟨folder, hfolder, hinto⟩ := enter_free hs hfree
      have hwalk' : Walkable (next :: rest) :=
        ⟨List.cons_ne_nil _ _, fun t ht => hwalk.folders t (by
          rw [List.dropLast_cons_of_ne_nil (List.cons_ne_nil next rest)]
          exact List.mem_cons_of_mem _ ht), fun hlast => hwalk.last (by
          rwa [List.getLast?_cons_cons])⟩
      have hfree' : Free (next :: rest) folder := by
        refine ⟨(hinto _ (List.cons_ne_nil _ _)).trans hfree.here, fun q hq bytes' hfile => ?_⟩
        cases q with
        | nil => cases hfile
        | cons t q =>
          rw [hinto _ (List.cons_ne_nil _ _)] at hfile
          exact hfree.above (s :: t :: q) (List.cons_prefix_cons.mpr ⟨rfl, hq⟩) bytes' hfile
      obtain ⟨inner, hinner, hput⟩ := ih hwalk' hfree'
      refine ⟨set s (.tree inner) root, ?_, fun q => ?_⟩
      · simp [insert, hfolder, hinner]
      · cases q with
        | nil => simp [look_nil]
        | cons t q =>
          by_cases ht : t = s
          · subst ht
            rw [look_set_self]
            have hinside := hput q
            rw [look] at hinside
            rw [hinside]
            cases q with
            | nil => simp
            | cons u q =>
              rw [hinto _ (List.cons_ne_nil _ _)]
              simp only [List.cons.injEq, true_and, List.cons_prefix_cons]
          · rw [look_set_of_ne ht]
            simp [ht, List.cons_prefix_cons]

end Insert

section Build
variable {files : List (Utf16 × List UInt8)} {root after : Seeds}

theorem shows_nil : Shows [] .nil := by
  refine ⟨fun q bytes => ?_, fun q => ?_⟩
  · cases q with
    | nil => simp [look_nil]
    | cons s q => simp [look_empty]
  · cases q with
    | nil => simp [look_nil]
    | cons s q => simp [look_empty]

/-- A path apart from those of the files is free in their tree. -/
theorem Shows.free (h : Shows files root) {p : List Utf16} (hp : p ≠ [])
    (hapart : ∀ f ∈ files, Apart (segs f.1) p) : Free p root := by
  refine ⟨?_, fun q hq bytes hfile => ?_⟩
  · cases hlook : look p root with
    | none => rfl
    | some shown =>
      cases shown with
      | file bytes =>
        obtain ⟨path, hmem, rfl⟩ := (h.file p bytes).mp hlook
        exact absurd (List.prefix_refl _) (hapart _ hmem).1
      | folder =>
        rcases (h.folder p).mp hlook with hnil | ⟨f, hf, hpre, -⟩
        · exact absurd hnil hp
        · exact absurd hpre (hapart f hf).2
  · obtain ⟨path, hmem, rfl⟩ := (h.file q bytes).mp hfile
    exact (hapart _ hmem).1 hq

/-- One more file. -/
theorem Shows.put (h : Shows files root) {f : Utf16 × List UInt8} (hp : segs f.1 ≠ [])
    (hapart : ∀ g ∈ files, Apart (segs g.1) (segs f.1)) (hput : Put f.2 (segs f.1) root after) :
    Shows (files ++ [f]) after := by
  refine ⟨fun q bytes => ?_, fun q => ?_⟩
  · rw [hput q]
    by_cases hself : q = segs f.1
    · subst hself
      simp only [if_true, Option.some.injEq, Shown.file.injEq, List.mem_append, List.mem_singleton]
      constructor
      · rintro rfl
        exact ⟨f.1, Or.inr rfl, rfl⟩
      · rintro ⟨path, hold | hnew, hsegs⟩
        · exact absurd (hsegs ▸ List.prefix_refl _) (hapart _ hold).1
        · rw [← hnew]
    · rw [if_neg hself]
      have hnew : ∀ path, (path, bytes) ∈ files ++ [f] ∧ segs path = q ↔
          (path, bytes) ∈ files ∧ segs path = q := by
        intro path
        simp only [List.mem_append, List.mem_singleton]
        constructor
        · rintro ⟨hold | hlast, hsegs⟩
          · exact ⟨hold, hsegs⟩
          · exact absurd (by rw [← hsegs, ← hlast]) hself
        · rintro ⟨hold, hsegs⟩
          exact ⟨Or.inl hold, hsegs⟩
      simp only [hnew]
      by_cases habove : q <+: segs f.1
      · rw [if_pos habove]
        simp only [reduceCtorEq, false_iff, Option.some.injEq]
        rintro ⟨path, hold, rfl⟩
        exact (hapart _ hold).1 habove
      · rw [if_neg habove]
        exact h.file q bytes
  · rw [hput q]
    by_cases hself : q = segs f.1
    · subst hself
      simp only [if_true, Option.some.injEq, reduceCtorEq, false_iff]
      rintro (hnil | ⟨g, hg, hpre, hne⟩)
      · exact hp hnil
      · rcases List.mem_append.mp hg with hold | hlast
        · exact (hapart g hold).2 hpre
        · exact hne (by rw [List.mem_singleton.mp hlast])
    · rw [if_neg hself]
      by_cases habove : q <+: segs f.1
      · rw [if_pos habove]
        simp only [true_iff]
        exact Or.inr ⟨f, by simp, habove, hself⟩
      · rw [if_neg habove, h.folder q]
        constructor
        · rintro (hnil | ⟨g, hg, hpre⟩)
          · exact Or.inl hnil
          · exact Or.inr ⟨g, List.mem_append_left _ hg, hpre⟩
        · rintro (hnil | ⟨g, hg, hpre, hne⟩)
          · exact Or.inl hnil
          · rcases List.mem_append.mp hg with hold | hlast
            · exact Or.inr ⟨g, hold, hpre, hne⟩
            · rw [List.mem_singleton.mp hlast] at hpre
              exact absurd hpre habove

theorem foldlM_shows {more : List (Utf16 × List UInt8)} (h : Shows files root)
    (hwalk : ∀ f ∈ more, Walkable (segs f.1))
    (hold : ∀ f ∈ files, ∀ g ∈ more, Apart (segs f.1) (segs g.1))
    (hmore : more.Pairwise fun f g => Apart (segs f.1) (segs g.1)) :
    ∃ after, more.foldlM (fun root f => insert f.2 (segs f.1) root) root = some after ∧
      Shows (files ++ more) after := by
  induction more generalizing files root with
  | nil => exact ⟨root, rfl, by rwa [List.append_nil]⟩
  | cons f more ih =>
    obtain ⟨hhead, htail⟩ := List.pairwise_cons.mp hmore
    have hf := hwalk f List.mem_cons_self
    have hapart : ∀ g ∈ files, Apart (segs g.1) (segs f.1) := fun g hg =>
      hold g hg f List.mem_cons_self
    obtain ⟨next, hnext, hput⟩ := insert_put f.2 hf (h.free hf.nonempty hapart)
    have hshows := h.put hf.nonempty hapart hput
    obtain ⟨after, hafter, hall⟩ := ih hshows (fun g hg => hwalk g (List.mem_cons_of_mem _ hg))
      (fun g hg k hk => by
        rcases List.mem_append.mp hg with hin | hlast
        · exact hold g hin k (List.mem_cons_of_mem _ hk)
        · rw [List.mem_singleton.mp hlast]
          exact hhead k hk) htail
    refine ⟨after, ?_, by rwa [List.append_assoc] at hall⟩
    rw [List.foldlM_cons, hnext]
    exact hafter

/-- Without conflicts the tree holds the package's files and nothing else. -/
theorem buildTree_shows {files : NixPackageFiles} (h : files.NoConflict) :
    ∃ root, buildTree files = some root ∧ Shows files.entries root := by
  have hall := foldlM_shows shows_nil h.walkable (by simp) h.apart
  rwa [List.nil_append] at hall

end Build

/-- The bytes that are hashed into the store path are those of one set of files, in whatever
order they were listed, and without conflicts the package's tree holds each file at its path
and nothing else. -/
theorem nix_packages (f g : NixPackageFiles) (hf : f.PlainNames) (hg : g.PlainNames)
    (hpaths : f.NoConflict) :
    (f.serialize = g.serialize ↔ f.entries.Perm g.entries) ∧
      ∃ root, buildTree f = some root ∧ Shows f.entries root :=
  ⟨serialize_eq_iff hf hg, buildTree_shows hpaths⟩

section Instances

def oneFile (path : Utf16) (bytes : List UInt8) : NixPackageFiles := ⟨[(path, bytes)], by simp⟩

theorem serialize_oneFile (path : Utf16) (bytes : List UInt8) :
    (oneFile path bytes).serialize = record (path, bytes) := by
  have hsorted : (oneFile path bytes).sorted = [(path, bytes)] :=
    List.perm_singleton.mp (sorted_perm (oneFile path bytes))
  rw [serialize_eq, hsorted, List.flatMap_singleton]

/-- The paths "a/b" and "a//b". -/
def doubled : NixPackageFiles :=
  ⟨[([0x61, 0x2F, 0x62], [1]), ([0x61, 0x2F, 0x2F, 0x62], [2])], by simp⟩

/-- Packages that differ in their names only, or in a lone surrogate, are hashed alike. A path
that is written in two ways, one without segments, or one through an inherited property does
not get the package's tree. -/
theorem nix_packages_differ :
    let a : NixPackage := ⟨ofString "a", [], oneFile (ofString "x") [1]⟩
    let b : NixPackage := ⟨ofString "b", [], oneFile (ofString "x") [1]⟩
    (a.files.serialize = b.files.serialize ∧ a.name ≠ b.name) ∧
      ((oneFile [0xD800] [1]).serialize = (oneFile [0xFFFD] [1]).serialize ∧
        ¬ (oneFile [0xD800] [1]).entries.Perm (oneFile [0xFFFD] [1]).entries) ∧
      (∀ root, buildTree doubled = some root → ¬ Shows doubled.entries root) ∧
      (∀ root, buildTree (oneFile [] [1]) = some root → ¬ Shows (oneFile [] [1]).entries root) ∧
      buildTree (oneFile (ofString "constructor/x") [1]) = none := by
  intro a b
  refine ⟨⟨rfl, by decide⟩, ⟨?_, ?_⟩, fun root hroot hshows => ?_, fun root hroot hshows => ?_, ?_⟩
  · rw [serialize_oneFile, serialize_oneFile]
    decide +kernel
  · intro hperm
    exact absurd (hperm.subset List.mem_cons_self) (by decide)
  · have hfirst : look [[0x61], [0x62]] root = some (.file [1]) :=
      (hshows.file _ _).mpr ⟨[0x61, 0x2F, 0x62], by decide, by decide⟩
    cases hroot
    revert hfirst
    decide +kernel
  · have hfolder : look [] root = some (.file [1]) :=
      (hshows.file _ _).mpr ⟨[], by decide, by decide⟩
    cases hfolder
  · decide +kernel

/-- The files of a small package, listed in two orders. -/
def hello : NixPackageFiles := ⟨[([0x62, 0x2F, 0x78], [1, 0]), ([0x73, 0x2F, 0x79], [])], by simp⟩

def helloReversed : NixPackageFiles :=
  ⟨[([0x73, 0x2F, 0x79], []), ([0x62, 0x2F, 0x78], [1, 0])], by simp⟩

theorem nix_packages_hello :
    hello.serialize = helloReversed.serialize ∧
      ∃ root, buildTree hello = some root ∧ Shows hello.entries root := by
  have hplain : ∀ files : NixPackageFiles, files.entries ⊆ hello.entries → files.PlainNames := by
    intro files hsub f hf
    rcases List.mem_cons.mp (hsub hf) with rfl | hin
    · exact ⟨by decide, by simp [Unicode.WellFormed, isHigh, isLow]⟩
    · rw [List.mem_singleton.mp hin]
      exact ⟨by decide, by simp [Unicode.WellFormed, isHigh, isLow]⟩
  have hwalk : ∀ f ∈ hello.entries, Walkable (segs f.1) := by
    intro f hf
    rcases List.mem_cons.mp hf with rfl | hin
    · exact ⟨by decide, by decide +kernel, by decide +kernel⟩
    · rw [List.mem_singleton.mp hin]
      exact ⟨by decide, by decide +kernel, by decide +kernel⟩
  have hapart : hello.entries.Pairwise fun f g => Apart (segs f.1) (segs g.1) := by
    refine List.pairwise_pair.mpr ⟨?_, ?_⟩ <;> decide
  have hall := nix_packages hello helloReversed (hplain _ (List.Subset.refl _))
    (hplain _ (by decide)) ⟨hwalk, hapart⟩
  exact ⟨hall.1.mpr (List.Perm.swap _ _ _), hall.2⟩

end Instances

end NixWasm.NixStore
