import NixWasm.Unicode

/-!
The backends a 9P server exports: the calls of `NinePVfs` over an arbitrary state, and
what they show of it. Paths are lists of components (the string is "/" followed by the
components joined with "/"); the server makes none with an empty component, a dot or a
slash in it. A rejected call changes nothing. `Lawful` collects what the streaming writes
rely on; nothing else is known about a backend. The in-memory file system meets it.
-/
namespace NixWasm.Vfs

open Unicode

/-- What `joinName` appends to a path: neither empty nor ".", nor "..", and without "/". -/
def Plain (name : Utf16) : Prop :=
  name ≠ [] ∧ name ≠ [0x2E] ∧ name ≠ [0x2E, 0x2E] ∧ 0x2F ∉ name

instance decidablePlain : DecidablePred Plain := fun name =>
  inferInstanceAs (Decidable (name ≠ [] ∧ name ≠ [0x2E] ∧ name ≠ [0x2E, 0x2E] ∧ 0x2F ∉ name))

abbrev Component := { name : Utf16 // Plain name }

abbrev Path := List Component

/-- The code a VFS error carries. -/
inductive Code
  | eperm | enoent | eio | ebadf | eacces | eexist | exdev | enodev | enotdir | eisdir
  | einval | erofs | enotempty | enosys | enametoolong | unknown
deriving DecidableEq

/-- A thrown error: the server's own carry an errno, a backend's carry a code. -/
inductive Fault
  | p9errno (errno : ℕ)
  | code (code : Code)
  | plain
deriving DecidableEq

/-- Anything but a folder or an alias (a symlink) is a byte file. -/
inductive Kind
  | folder | alias | file
deriving DecidableEq

structure VfsRecord where
  id : Option Utf16
  type : Kind
  name : Utf16
  path : Path
  modifiedAt : Option ℕ
  size : Option ℕ
  target : Option Utf16
deriving DecidableEq

inductive VfsWriteRecord
  | file (blob : List UInt8)
  | alias (target : Utf16)

structure Backend (σ : Type) where
  stat : σ → Path → Except Fault (Option VfsRecord)
  list : σ → Path → Except Fault (List VfsRecord)
  readBlob : σ → Path → Except Fault (List UInt8)
  write : σ → Path → VfsWriteRecord → Except Fault σ
  mkdir : σ → Path → Except Fault σ
  remove : σ → Path → Except Fault σ
  move : σ → Path → Path → Except Fault σ
  /-- The write policy of a path: false on read-only ones. -/
  isWritablePath : Path → Bool

/-- What a path shows through `stat` and `readBlob`. -/
inductive Node
  | folder
  | alias (target : Utf16) (bytes : List UInt8)
  | file (bytes : List UInt8)
deriving DecidableEq

def Node.isFolder : Node → Bool
  | .folder => true
  | _ => false

def Node.bytes : Node → List UInt8
  | .folder => []
  | .alias _ bytes => bytes
  | .file bytes => bytes

/-- A mutating call. -/
inductive Call
  | write (path : Path) (record : VfsWriteRecord)
  | mkdir (path : Path)
  | remove (path : Path)
  | move (src dst : Path)

/-- The paths whose old contents a call may replace or take away. -/
def Call.replaced : Call → List Path
  | .write p _ => [p]
  | .mkdir _ => []
  | .remove p => [p]
  | .move src dst => [src, dst]

namespace Backend

variable {σ : Type} (v : Backend σ)

def apply (s : σ) : Call → Except Fault σ
  | .write p record => v.write s p record
  | .mkdir p => v.mkdir s p
  | .remove p => v.remove s p
  | .move src dst => v.move s src dst

/-- `readBytes`: a path that cannot be read is empty. -/
def readBytes (s : σ) (p : Path) : List UInt8 :=
  match v.readBlob s p with
  | .ok bytes => bytes
  | .error _ => []

def node (s : σ) (p : Path) (rec : VfsRecord) : Node :=
  match rec.type with
  | .folder => .folder
  | .alias => .alias (rec.target.getD []) (v.readBytes s p)
  | .file => .file (v.readBytes s p)

/-- The contents of the backend, path by path. -/
def look (s : σ) (p : Path) : Except Fault (Option Node) :=
  (v.stat s p).map fun found => found.map (v.node s p)

/-- The path names something that is not a folder. -/
def isLeaf (s : σ) (p : Path) : Bool :=
  match v.look s p with
  | .ok (some n) => !n.isFolder
  | _ => false

/-- The two states show the same, except that the files at the paths of `P` may differ. -/
def Agree (P : Path → Prop) (s t : σ) : Prop :=
  (∀ p, ¬ P p → v.look s p = v.look t p) ∧ ∀ p, P p → v.isLeaf s p ∧ v.isLeaf t p

/-- Both calls are rejected, or both succeed with related states. -/
def Alike (R : σ → σ → Prop) : Except Fault σ → Except Fault σ → Prop
  | .ok s, .ok t => R s t
  | .error _, .error _ => True
  | _, _ => False

/-- What the server relies on. -/
structure Lawful : Prop where
  /-- Looking a path up is not rejected: a missing path is `null`. -/
  stat_found : ∀ s p, ∃ found, v.stat s p = .ok found
  /-- Files and aliases have bytes, and nothing else does. -/
  readBlob_leaf : ∀ s p, (∃ bytes, v.readBlob s p = .ok bytes) ↔ v.isLeaf s p
  /-- What lies below a path lies in a folder. -/
  below_folder : ∀ s p q n, p <+: q → p ≠ q → v.look s q = .ok (some n) →
    v.look s p = .ok (some .folder)
  /-- Writing bytes over a file or an alias is only refused by the write policy. -/
  write_leaf : ∀ s p bytes, v.isLeaf s p → v.isWritablePath p = true →
    ∃ t, v.write s p (.file bytes) = .ok t ∧ v.look t p = .ok (some (.file bytes)) ∧
      ∀ q, q ≠ p → v.look t q = v.look s q
  write_refused : ∀ s p bytes, v.isWritablePath p = false →
    ∃ e, v.write s p (.file bytes) = .error e
  /-- A written path, other than the root, shows the written bytes. -/
  write_shows : ∀ s p bytes t, p ≠ [] → v.write s p (.file bytes) = .ok t →
    v.look t p = .ok (some (.file bytes))
  /-- A call leaves the files it does not replace, nor anything above them. -/
  keep : ∀ s call t q, v.apply s call = .ok t → v.isLeaf s q →
    (∀ p ∈ call.replaced, ¬ p <+: q) → v.look t q = v.look s q
  /-- Whether and how a call works does not depend on files it does not replace. -/
  frame : ∀ P s t call, (∀ p ∈ call.replaced, ∀ q, P q → ¬ p <+: q) → v.Agree P s t →
    Alike (v.Agree P) (v.apply s call) (v.apply t call)

variable {v}

theorem isLeaf_iff (s : σ) (p : Path) :
    v.isLeaf s p ↔ ∃ n, v.look s p = .ok (some n) ∧ n.isFolder = false := by
  unfold isLeaf
  split
  · rename_i n h
    simp [h]
  · rename_i h
    constructor
    · intro hfalse
      exact absurd hfalse (by decide)
    · rintro ⟨n, hn, -⟩
      exact absurd hn (h n)

theorem isLeaf_of_look {s : σ} {p : Path} {n : Node} (h : v.look s p = .ok (some n))
    (hn : n.isFolder = false) : v.isLeaf s p :=
  (isLeaf_iff s p).mpr ⟨n, h, hn⟩

theorem isLeaf_congr {s t : σ} {p : Path} (h : v.look s p = v.look t p) :
    v.isLeaf s p = v.isLeaf t p := by
  unfold isLeaf
  rw [h]

theorem look_eq {s : σ} {p : Path} {rec : VfsRecord} (h : v.stat s p = .ok (some rec)) :
    v.look s p = .ok (some (v.node s p rec)) := by
  simp only [look, h, Except.map, Option.map_some]

theorem node_isFolder (s : σ) (p : Path) (rec : VfsRecord) :
    (v.node s p rec).isFolder = decide (rec.type = .folder) := by
  unfold node
  cases rec.type <;> rfl

theorem isLeaf_of_stat {s : σ} {p : Path} {rec : VfsRecord} (h : v.stat s p = .ok (some rec)) :
    v.isLeaf s p = decide (rec.type ≠ .folder) := by
  unfold isLeaf
  rw [look_eq h]
  simp [node_isFolder]

theorem stat_of_isLeaf {s : σ} {p : Path} (h : v.isLeaf s p) :
    ∃ rec, v.stat s p = .ok (some rec) ∧ rec.type ≠ .folder := by
  obtain ⟨n, hlook, hn⟩ := (isLeaf_iff s p).mp h
  unfold look at hlook
  rcases hs : v.stat s p with e | (_ | rec) <;>
    simp only [hs, Except.map, Option.map_none, Option.map_some, Except.ok.injEq,
      Option.some.injEq, reduceCtorEq] at hlook
  subst hlook
  rw [node_isFolder] at hn
  exact ⟨rec, rfl, of_decide_eq_false hn⟩

/-- What `stat` answers, as far as the contents tell. -/
theorem stat_of_look_eq {s t : σ} {p : Path} (h : v.look s p = v.look t p) :
    (∃ e, v.stat s p = .error e ∧ v.stat t p = .error e) ∨
      (v.stat s p = .ok none ∧ v.stat t p = .ok none) ∨
      ∃ rec rec', v.stat s p = .ok (some rec) ∧ v.stat t p = .ok (some rec') ∧
        (rec.type = .folder ↔ rec'.type = .folder) := by
  have hkind : ∀ rec rec', v.node s p rec = v.node t p rec' →
      (rec.type = .folder ↔ rec'.type = .folder) := by
    intro rec rec' heq
    have hfolder := congrArg Node.isFolder heq
    rw [node_isFolder, node_isFolder] at hfolder
    exact decide_eq_decide.mp hfolder
  unfold look at h
  rcases hs : v.stat s p with e | (_ | rec) <;> rcases ht : v.stat t p with e' | (_ | rec') <;>
    simp only [hs, ht, Except.map, Option.map_none, Option.map_some, Except.ok.injEq,
      Except.error.injEq, Option.some.injEq, reduceCtorEq] at h
  · exact Or.inl ⟨e, rfl, by rw [h]⟩
  · exact Or.inr (Or.inl ⟨rfl, rfl⟩)
  · exact Or.inr (Or.inr ⟨rec, rec', rfl, rfl, hkind rec rec' h⟩)

/-- The bytes a path reads as are the ones it shows. -/
theorem readBytes_eq (hv : v.Lawful) (s : σ) (p : Path) : v.readBytes s p =
    match v.look s p with
    | .ok (some n) => n.bytes
    | _ => [] := by
  unfold readBytes
  cases hread : v.readBlob s p with
  | ok bytes =>
    obtain ⟨n, hlook, hleaf⟩ := (isLeaf_iff s p).mp ((hv.readBlob_leaf s p).mp ⟨bytes, hread⟩)
    rw [hlook]
    unfold look at hlook
    rcases hs : v.stat s p with e | (_ | rec) <;>
      simp only [hs, Except.map, Option.map_none, Option.map_some, Except.ok.injEq,
        Option.some.injEq, reduceCtorEq] at hlook
    subst hlook
    rw [node_isFolder] at hleaf
    unfold node readBytes
    rw [hread]
    cases hkind : rec.type <;> simp_all [Node.bytes]
  | error e =>
    unfold look
    rcases hs : v.stat s p with e | (_ | rec)
    · rfl
    · rfl
    · simp only [Except.map, Option.map_some, node, readBytes, hread]
      cases rec.type <;> rfl

theorem readBytes_congr (hv : v.Lawful) {s t : σ} {p : Path} (h : v.look s p = v.look t p) :
    v.readBytes s p = v.readBytes t p := by
  rw [readBytes_eq hv, readBytes_eq hv, h]

theorem readBytes_of_look (hv : v.Lawful) {s : σ} {p : Path} {n : Node}
    (h : v.look s p = .ok (some n)) : v.readBytes s p = n.bytes := by
  rw [readBytes_eq hv, h]

theorem readBlob_of_look (hv : v.Lawful) {s : σ} {p : Path} {n : Node}
    (h : v.look s p = .ok (some n)) (hn : n.isFolder = false) : v.readBlob s p = .ok n.bytes := by
  obtain ⟨bytes, hread⟩ := (hv.readBlob_leaf s p).mpr (isLeaf_of_look h hn)
  have hbytes := readBytes_of_look hv h
  unfold readBytes at hbytes
  rw [hread] at hbytes
  rw [hread, ← hbytes]

end Backend

end NixWasm.Vfs
