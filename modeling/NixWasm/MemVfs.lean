import NixWasm.Effects
import NixWasm.NinepServer
import NixWasm.Runs

/-!
The in-memory file system of ninep/mem-vfs.ts. The nodes are in a map by id, and a folder
has a map from names to the ids of its children. A node object is a pair of its id and
what was read of it; it is changed in the map, or not at all once it is out of the map. A
throw keeps what was already changed.
-/
namespace NixWasm.MemVfs

open Unicode NinepServer Effects

section Paths

def dot : Utf16 := ofString "."
def dotdot : Utf16 := ofString ".."

def pushSegment (segs : List Utf16) (s : Utf16) : List Utf16 :=
  if s = [] ∨ s = dot then segs
  else if s = dotdot then segs.dropLast
  else segs ++ [s]

def segments (path : Utf16) : List Utf16 :=
  (splitSlash (if path = [] then [slash] else path)).foldl pushSegment []

/-- `segs.join("/")`. -/
def join (segs : List Utf16) : Utf16 := [slash].intercalate segs

def normalize (path : Utf16) : Utf16 := slash :: join (segments path)

/-- `p.lastIndexOf("/")` of a path that has a slash. -/
def lastSlash (p : Utf16) : ℕ := p.length - 1 - p.reverse.idxOf slash

def basename (path : Utf16) : Utf16 :=
  let p := normalize path
  if p = [slash] then [] else p.drop (lastSlash p + 1)

def dirname (path : Utf16) : Utf16 :=
  let p := normalize path
  if p = [slash] then [slash]
  else if lastSlash p = 0 then [slash]
  else p.take (lastSlash p)

end Paths

inductive NodeId
  | root
  | n (seq : ℕ)
deriving DecidableEq

def folderType : Utf16 := ofString "folder"
def aliasType : Utf16 := ofString "alias"
def fileType : Utf16 := ofString "file"

structure MemNode where
  type : Utf16
  name : Utf16
  modifiedAt : ℕ
  children : Option (JsMap Utf16 NodeId)
  bytes : Option (List UInt8)
  target : Option Utf16
  mime : Option Utf16
deriving DecidableEq

/-- An object in a variable: its id, and what it was when it was read. -/
abbrev Found := NodeId × MemNode

structure Fs where
  seq : ℕ
  clock : ℕ
  readOnly : List Utf16
  nodes : JsMap NodeId MemNode

structure VfsRecord where
  id : NodeId
  type : Utf16
  name : Utf16
  path : Utf16
  modifiedAt : ℕ
  size : Option ℕ
  target : Option Utf16
  mime : Option Utf16
deriving DecidableEq

structure VfsWriteRecord where
  type : Option Utf16
  bytes : Option (List UInt8)
  blob : Option (List UInt8)
  body : Option Utf16
  target : Option Utf16
  mime : Option Utf16

/-- An error with a code, or one that reports a corrupt tree. -/
inductive Thrown
  | vfsError (code : Vfs.Code) (text : Utf16)
  | noChildren (id : NodeId)
  | dangling (id : NodeId)
deriving DecidableEq

abbrev Op := EStateM Thrown Fs

/-- What only looks at the nodes. -/
def read {α : Type} (f : Fs → Except Thrown α) : Op α := fun fs =>
  match f fs with
  | .ok a => .ok a fs
  | .error e => .error e fs

section Nodes

def rootNode (now : ℕ) : MemNode := ⟨folderType, [], now, some .empty, none, none, none⟩

/-- A new file system, with the read-only prefixes of its options. -/
def new (readOnlyPrefixes : List Utf16) : Fs :=
  ⟨0, 1700000001000, readOnlyPrefixes.map normalize,
    JsMap.empty.set .root (rootNode 1700000001000)⟩

def put (i : NodeId) (node : MemNode) (fs : Fs) : Fs :=
  { fs with nodes := fs.nodes.set i node }

def drop (i : NodeId) (fs : Fs) : Fs := { fs with nodes := fs.nodes.delete i }

/-- A change of an object, seen as long as the object is in the map. -/
def alter (i : NodeId) (f : MemNode → MemNode) (fs : Fs) : Fs :=
  match fs.nodes.get i with
  | some node => put i (f node) fs
  | none => fs

def childrenOf (i : NodeId) (node : MemNode) : Except Thrown (JsMap Utf16 NodeId) :=
  match node.children with
  | some children => .ok children
  | none => .error (.noChildren i)

/-- The object as it is now. -/
def now (fs : Fs) (o : Found) : MemNode := (fs.nodes.get o.1).getD o.2

def children (o : Found) (fs : Fs) : Except Thrown (JsMap Utf16 NodeId) :=
  childrenOf o.1 (now fs o)

def editChildren (o : Found) (f : JsMap Utf16 NodeId → JsMap Utf16 NodeId) : Op Unit := do
  let _ ← read (children o)
  modify (alter o.1 fun node => { node with children := node.children.map f })

def nodeAt (i : NodeId) (fs : Fs) : Except Thrown Found :=
  match fs.nodes.get i with
  | some node => .ok (i, node)
  | none => .error (.dangling i)

def tick : Op ℕ := do
  modify fun fs => { fs with clock := fs.clock + 1000 }
  return (← get).clock

def freshId : Op NodeId := do
  modify fun fs => { fs with seq := fs.seq + 1 }
  return .n (← get).seq

end Nodes

/-- The loop of _resolve from node `i` on. -/
def walk (fs : Fs) : NodeId → List Utf16 → Except Thrown (Option Found)
  | i, [] => .ok ((fs.nodes.get i).map fun node => (i, node))
  | i, seg :: segs =>
    match fs.nodes.get i with
    | none => .ok none
    | some cur =>
      if cur.type ≠ folderType then .ok none
      else do
        match (← childrenOf i cur).get seg with
        | none => return none
        | some childId => walk fs childId segs

def resolve (path : Utf16) (fs : Fs) : Except Thrown (Option Found) :=
  let p := normalize path
  if p = [slash] then .ok ((fs.nodes.get .root).map fun node => (.root, node))
  else walk fs .root (splitSlash (p.drop 1))

def record (o : Found) (path : Utf16) : VfsRecord where
  id := o.1
  type := o.2.type
  name := if basename path = [] then o.2.name else basename path
  path := normalize path
  modifiedAt := o.2.modifiedAt
  size := if o.2.type ≠ folderType ∧ o.2.type ≠ aliasType then some (o.2.bytes.getD []).length
    else none
  target := if o.2.type = aliasType then o.2.target else none
  mime := if o.2.mime = some [] then none else o.2.mime

/-- Is `p` a read-only prefix or below one, as both are spelt? -/
def readOnlyPath (fs : Fs) (p : Utf16) : Bool :=
  fs.readOnly.any fun ro => p = ro ∨ (ro ++ [slash]) <+: p

def assertWritable (op : String) (path : Utf16) (fs : Fs) : Except Thrown Unit :=
  let p := normalize path
  if readOnlyPath fs p then
    .error (.vfsError .erofs
      (ofString "cannot " ++ ofString op ++ ofString " " ++ p ++ ofString " (read-only)"))
  else .ok ()

def parentFolder (path : Utf16) (fs : Fs) : Except Thrown Found := do
  match ← resolve (dirname path) fs with
  | none => throw (.vfsError .enoent (dirname path))
  | some parent =>
    if parent.2.type ≠ folderType then throw (.vfsError .enotdir (dirname path))
    else return parent

def mkdirSync (path : Utf16) : Op VfsRecord := do
  match ← read (resolve path) with
  | some existing =>
    if existing.2.type = folderType then return record existing path
    else throw (.vfsError .eexist path)
  | none =>
    let parent ← read (parentFolder path)
    let id ← freshId
    let modifiedAt ← tick
    let node : MemNode := ⟨folderType, basename path, modifiedAt, some .empty, none, none, none⟩
    modify (put id node)
    editChildren parent (·.set (basename path) id)
    return record (id, node) path

/-- `record.type || "file"`. -/
def recordType (record : VfsWriteRecord) : Utf16 :=
  if record.type.getD [] = [] then fileType else record.type.getD []

/-- The node after a record was written to it. -/
def written (node : MemNode) (record : VfsWriteRecord) (modifiedAt : ℕ) : MemNode :=
  let node := { node with type := recordType record, modifiedAt }
  if recordType record = folderType then
    { node with children := some (node.children.getD .empty) }
  else if recordType record = aliasType then
    { node with target := some (record.target.getD []), bytes := none }
  else { node with bytes := some (record.bytes.getD []), mime := record.mime, children := none }

/-- The node that a write changes: what has the name already, or a new one. -/
def writeTarget (children : JsMap Utf16 NodeId) (name : Utf16) : Op Found :=
  match children.get name with
  | some existingId => read (nodeAt existingId)
  | none => do return (← freshId, ⟨fileType, name, 0, none, none, none, none⟩)

def writeSync (path : Utf16) (rec : VfsWriteRecord) : Op VfsRecord := do
  let parent ← read (parentFolder path)
  let name := basename path
  let node ← writeTarget (← read (children parent)) name
  let modifiedAt ← tick
  let node := (node.1, written node.2 rec modifiedAt)
  modify (put node.1 node.2)
  editChildren parent (·.set name node.1)
  return record node path

def stat (path : Utf16) (fs : Fs) : Except Thrown (Option VfsRecord) := do
  return (← resolve path fs).map (record · path)

def list (path : Utf16) (fs : Fs) : Except Thrown (List VfsRecord) := do
  match ← resolve path fs with
  | none => throw (.vfsError .enoent path)
  | some node =>
    if node.2.type ≠ folderType then throw (.vfsError .enotdir path)
    else do
      let base := normalize path
      let out ← (← childrenOf node.1 node.2).entries.mapM fun (name, id) => do
        return record (← nodeAt id fs)
          (if base = [slash] then slash :: name else base ++ slash :: name)
      return out.mergeSort fun a b => !decide (b.name < a.name)

def readBlob (path : Utf16) (fs : Fs) : Except Thrown (List UInt8) := do
  match ← resolve path fs with
  | none => throw (.vfsError .enoent path)
  | some node =>
    if node.2.type = folderType then throw (.vfsError .eisdir path)
    else return node.2.bytes.getD []

/-- The bytes that are stored for a record: its own, those of its blob, or of its body. -/
def payload (rec : VfsWriteRecord) : Option (List UInt8) :=
  rec.bytes.or (rec.blob.or (rec.body.map utf8Encode))

def write (path : Utf16) (rec : VfsWriteRecord) : Op VfsRecord := do
  read (assertWritable "write" path)
  writeSync path { rec with bytes := payload rec }

def mkdir (path : Utf16) : Op VfsRecord := do
  read (assertWritable "mkdir" path)
  mkdirSync path

/-- A folder that has children. -/
def isFull (o : Found) (fs : Fs) : Except Thrown Bool := do
  if o.2.type = folderType then return (← children o fs).entries ≠ []
  else return false

def remove (path : Utf16) : Op Unit := do
  read (assertWritable "remove" path)
  match ← read (resolve path) with
  | none => throw (.vfsError .enoent path)
  | some node =>
    if ← read (isFull node) then throw (.vfsError .enotempty path)
    let parent ← read (parentFolder path)
    editChildren parent (·.delete (basename path))
    modify (drop node.1)

def move (srcPath dstPath : Utf16) : Op VfsRecord := do
  read (assertWritable "move" srcPath)
  read (assertWritable "move" dstPath)
  match ← read (resolve srcPath) with
  | none => throw (.vfsError .enoent srcPath)
  | some node =>
    let srcParent ← read (parentFolder srcPath)
    let dstParent ← read (parentFolder dstPath)
    let dstName := basename dstPath
    match (← read (children dstParent)).get dstName with
    | some clashId => if clashId ≠ node.1 then modify (drop clashId)
    | none => pure ()
    editChildren srcParent (·.delete (basename srcPath))
    let modifiedAt ← tick
    modify (alter node.1 fun node => { node with name := dstName, modifiedAt })
    editChildren dstParent (·.set dstName node.1)
    return record (node.1, now (← get) node) dstPath

def rename (srcPath dstPath : Utf16) : Op VfsRecord := move srcPath dstPath

def isWritablePath (path : Utf16) (fs : Fs) : Bool := !readOnlyPath fs (normalize path)

mutual
/-- A seed: bytes make a file, an object a folder. -/
inductive Seed
  | bytes (bytes : List UInt8)
  | tree (entries : Seeds)

/-- The entries of an object. -/
inductive Seeds
  | nil
  | cons (name : Utf16) (seed : Seed) (entries : Seeds)
end

mutual
/-- One round of the function `build` of MemVfs.from. -/
def plant (path : Utf16) : Seed → Op Unit
  | .tree entries => do
    let _ ← mkdirSync path
    build path entries
  | .bytes bytes => do
    let _ ← writeSync path ⟨some fileType, some bytes, none, none, none,
      some (ofString "application/octet-stream")⟩

def build (parentPath : Utf16) : Seeds → Op Unit
  | .nil => pure ()
  | .cons name seed entries => do
    plant (if parentPath = [slash] then slash :: name else parentPath ++ slash :: name) seed
    build parentPath entries
end

/-- A call of the API that changes the tree. -/
inductive Call
  | write (path : Utf16) (record : VfsWriteRecord)
  | mkdir (path : Utf16)
  | remove (path : Utf16)
  | move (srcPath dstPath : Utf16)
  | rename (srcPath dstPath : Utf16)

def perform : Call → Op Unit
  | .write path record => discard (write path record)
  | .mkdir path => discard (mkdir path)
  | .remove path => remove path
  | .move srcPath dstPath => discard (move srcPath dstPath)
  | .rename srcPath dstPath => discard (rename srcPath dstPath)

/-- One call of a run, whether it returns or throws. -/
def step (fs : Fs) (call : Call) : Fs := final (perform call fs)

end NixWasm.MemVfs
