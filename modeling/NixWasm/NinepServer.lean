import NixWasm.JsMap
import NixWasm.NinepCodec
import NixWasm.Vfs
import Mathlib.Logic.Function.Basic

/-!
The 9P2000.L server of ninep/server.ts. A handler runs over the whole world, the
server's tables and the states of its backends, and a throw keeps what was already
changed. Fid objects live in a heap, because the table of writer owners compares them
by identity and outlives their fid numbers. The requests of a run are served one after
the other.
-/
namespace NixWasm.NinepServer

open Unicode Vfs NinepCodec

def ofString (s : String) : Utf16 := s.toList.flatMap fun c => toUnits c.toNat

def dotlVersion : Utf16 := ofString "9P2000.L"
def slash : UInt16 := 0x2F

namespace QT
def dir : ℕ := 0x80
def symlink : ℕ := 0x02
def file : ℕ := 0x00
end QT

namespace DT
def dir : ℕ := 4
def reg : ℕ := 8
def lnk : ℕ := 10
end DT

namespace E
def perm : ℕ := 1
def noent : ℕ := 2
def io : ℕ := 5
def badf : ℕ := 9
def acces : ℕ := 13
def exist : ℕ := 17
def xdev : ℕ := 18
def nodev : ℕ := 19
def notdir : ℕ := 20
def isdir : ℕ := 21
def inval : ℕ := 22
def rofs : ℕ := 30
def nametoolong : ℕ := 36
def nosys : ℕ := 38
def notempty : ℕ := 39
def nodata : ℕ := 61
end E

def notag : ℕ := 0xffff
def getattrBasic : ℕ := 0x000007ff
/-- Linux V9FS_MAGIC, reported by Tstatfs. -/
def v9fsMagic : ℕ := 0x01021997
/-- Tsetattr.valid bit for "set size". -/
def setattrSize : ℕ := 0x00000008
/-- open(2) O_TRUNC flag, honored on Tlopen. -/
def oTrunc : ℕ := 0x200

def codeToErrno : Code → ℕ
  | .eperm => E.perm
  | .enoent => E.noent
  | .eio => E.io
  | .ebadf => E.badf
  | .eacces => E.acces
  | .eexist => E.exist
  | .exdev => E.xdev
  | .enodev => E.nodev
  | .enotdir => E.notdir
  | .eisdir => E.isdir
  | .einval => E.inval
  | .erofs => E.rofs
  | .enotempty => E.notempty
  | .enosys => E.nosys
  | .enametoolong => E.nametoolong
  | .unknown => E.io

def errnoFromError : Fault → ℕ
  | .p9errno n => n
  | .code c => codeToErrno c
  | .plain => E.io

def parentOf (p : Path) : Path := p.dropLast

theorem plain_of_joined {seg : Utf16} (hsame : ¬ (seg = [] ∨ seg = ofString "."))
    (hup : seg ≠ ofString "..") (hslash : slash ∉ seg) : Plain seg :=
  ⟨fun h => hsame (.inl h), fun h => hsame (.inr h), hup, hslash⟩

def joinName (base : Path) (seg : Utf16) : Except Fault Path :=
  if hsame : seg = [] ∨ seg = ofString "." then .ok base
  else if hup : seg = ofString ".." then .ok (parentOf base)
  else if hslash : slash ∈ seg then .error (.p9errno E.inval)
  else .ok (base ++ [⟨seg, plain_of_joined hsame hup hslash⟩])

/-- The pieces between slashes. -/
def splitSlash : Utf16 → List Utf16
  | [] => [[]]
  | u :: rest =>
    if u = slash then [] :: splitSlash rest
    else
      match splitSlash rest with
      | [] => [[u]]
      | piece :: pieces => (u :: piece) :: pieces

def joinPath (base : Path) (rel : Utf16) : Except Fault Path :=
  (splitSlash rel).foldlM (fun cur s => if s = [] then .ok cur else joinName cur s) base

def normAname (a : Utf16) : Utf16 :=
  let s := a.dropWhile (· = slash)
  if s = [] then [slash] else s

structure Dirent where
  qid : Qid
  offset : ℕ
  type : ℕ
  name : Utf16
deriving DecidableEq

/-- qid[13] offset[8] type[1] name[s]. -/
def packDirent (d : Dirent) : List UInt8 :=
  Write.qid d.qid ++ Write.u64 d.offset ++ Write.u8 d.type ++ Write.str d.name

def peekTag (input : List UInt8) : ℕ :=
  if input.length < 7 then notag else Bytes.leValue ((input.drop 5).take 2)

/-- A streaming writer: one file that grows. `dirty` bytes are not in the backend yet. -/
structure Writer where
  path : Path
  bytes : List UInt8
  dirty : Bool
deriving DecidableEq

/-- `Ref` names a fid object, whatever fid number it is or was bound to. -/
abbrev Ref := ℕ

structure Fid (V : Type) where
  path : Path
  vfs : V
  opened : Bool
  dirents : Option (List Dirent)
  writer : Option Writer
  writerPath : Option Path

structure Conn where
  msize : ℕ
  fids : JsMap ℕ Ref

structure Export (V : Type) where
  vfs : V
  root : Path

/-- The server's options, its backends, and which of them offer `openWrite`. A writer
may put its bytes into the backend before it is flushed; `eager` says when it does. -/
structure Config (V σ : Type) where
  maxMsize : ℕ
  uid : ℕ
  gid : ℕ
  exports : List (Utf16 × Export V)
  backend : V → Backend σ
  openWrite : V → Bool
  eager : V → Writer → Bool

structure World (V σ : Type) where
  conns : JsMap ℕ Conn
  heap : Ref → Fid V
  next : Ref
  owners : V × Path → Option Ref
  qidPaths : Utf16 → Option ℕ
  qidSeq : ℕ
  negotiatedMsize : ℕ
  disk : V → σ

variable {V σ : Type} [DecidableEq V]

/-- A throw keeps the changes made before it. -/
abbrev Handler (V σ : Type) := EStateM Fault (World V σ)

def p9err {α : Type} (errno : ℕ) : Handler V σ α := throw (.p9errno errno)

namespace Config

variable (cfg : Config V σ)

def exportsByName : JsMap Utf16 (Export V) :=
  cfg.exports.foldl (fun m e => m.set (normAname e.1) e.2) JsMap.empty

def defaultExport : Option (Export V) :=
  (cfg.exportsByName.get [slash]).or cfg.exportsByName.values.head?

def resolveAttach (aname : Utf16) : Except Fault (V × Path) :=
  match cfg.exportsByName.get (normAname aname) with
  | some exp => .ok (exp.vfs, exp.root)
  | none =>
    match cfg.defaultExport with
    | none => .error .plain
    | some exp =>
      if aname = [] ∨ aname = [slash] then .ok (exp.vfs, exp.root)
      else (joinPath exp.root aname).map fun path => (exp.vfs, path)

/-! Calls of a backend. -/

def stat (v : V) (p : Path) : Handler V σ (Option VfsRecord) := do
  match (cfg.backend v).stat ((← get).disk v) p with
  | .ok found => return found
  | .error e => throw e

def list (v : V) (p : Path) : Handler V σ (List VfsRecord) := do
  match (cfg.backend v).list ((← get).disk v) p with
  | .ok kids => return kids
  | .error e => throw e

def readBlob (v : V) (p : Path) : Handler V σ (List UInt8) := do
  match (cfg.backend v).readBlob ((← get).disk v) p with
  | .ok bytes => return bytes
  | .error e => throw e

def call (v : V) (c : Call) : Handler V σ Unit := do
  match (cfg.backend v).apply ((← get).disk v) c with
  | .ok s => modify fun w => { w with disk := Function.update w.disk v s }
  | .error e => throw e

/-! Tables of the server. -/

def conn (cid : ℕ) : Handler V σ Conn := do
  match (← get).conns.get cid with
  | some c => return c
  | none =>
    let c : Conn := ⟨cfg.maxMsize, JsMap.empty⟩
    modify fun w => { w with conns := w.conns.set cid c }
    return c

def setConn (cid : ℕ) (c : Conn) : Handler V σ Unit :=
  modify fun w => { w with conns := w.conns.set cid c }

def getFid (cid fid : ℕ) : Handler V σ Ref := do
  match (← cfg.conn cid).fids.get fid with
  | some r => return r
  | none => p9err E.badf

/-- `fids.set(fid, { path, vfs })` with a new object. -/
def bindFid (cid fid : ℕ) (v : V) (path : Path) : Handler V σ Unit := do
  let c ← cfg.conn cid
  let r := (← get).next
  modify fun w =>
    { w with heap := Function.update w.heap r ⟨path, v, false, none, none, none⟩, next := r + 1 }
  setConn cid { c with fids := c.fids.set fid r }

def dropFid (cid fid : ℕ) : Handler V σ Unit := do
  let c ← cfg.conn cid
  setConn cid { c with fids := c.fids.delete fid }

omit [DecidableEq V] in
def fidAt (r : Ref) : Handler V σ (Fid V) := return (← get).heap r

omit [DecidableEq V] in
def modifyFid (r : Ref) (f : Fid V → Fid V) : Handler V σ Unit :=
  modify fun w => { w with heap := Function.update w.heap r (f (w.heap r)) }

omit [DecidableEq V] in
/-- Interns an inode id into a small integer. -/
def qidPathFor (inode : Utf16) : Handler V σ ℕ := do
  match (← get).qidPaths inode with
  | some v => return v
  | none =>
    let v := (← get).qidSeq
    modify fun w => { w with
      qidSeq := v + 1, qidPaths := Function.update w.qidPaths inode (some v) }
    return v

end Config

/-- The string form of a path. -/
def pathString : Path → Utf16
  | [] => [slash]
  | p => p.flatMap fun seg => slash :: seg.1

namespace Config

variable (cfg : Config V σ)

omit [DecidableEq V] in
def qidOf (rec : VfsRecord) : Handler V σ Qid := do
  let t := match rec.type with
    | .folder => QT.dir
    | .alias => QT.symlink
    | .file => QT.file
  let version := rec.modifiedAt.getD 0 / 1000 % 2 ^ 32
  return ⟨t, version, ← qidPathFor (rec.id.getD (pathString rec.path))⟩

omit [DecidableEq V] in
/-- A path the handler just created must stat. -/
def created (found : Option VfsRecord) : Handler V σ VfsRecord :=
  match found with
  | some rec => return rec
  | none => throw .plain

def dtypeOf (rec : VfsRecord) : ℕ :=
  match rec.type with
  | .folder => DT.dir
  | .alias => DT.lnk
  | .file => DT.reg

def modeOf (rec : VfsRecord) : ℕ :=
  match rec.type with
  | .folder => 0o040755
  | .alias => 0o120777
  | .file => 0o100755

omit [DecidableEq V] in
def sizeOf (v : V) (rec : VfsRecord) : Handler V σ ℕ := do
  match rec.type with
  | .folder => return 0
  | .alias => return (rec.target.map fun t => (utf8Encode t).length).getD 0
  | .file =>
    match rec.size with
    | some n => return n
    | none => return ((cfg.backend v).readBytes ((← get).disk v) rec.path).length

omit [DecidableEq V] in
def readBytes (v : V) (p : Path) : Handler V σ (List UInt8) := do
  return (cfg.backend v).readBytes ((← get).disk v) p

def writeBytes (v : V) (p : Path) (bytes : List UInt8) : Handler V σ Unit :=
  cfg.call v (.write p (.file bytes))

/-! Streaming writers. -/

/-- Puts the writer's bytes into the backend. -/
def save (r : Ref) (v : V) (w : Writer) : Handler V σ Unit := do
  cfg.writeBytes v w.path w.bytes
  modifyFid r fun f => { f with writer := some { w with dirty := false } }

/-- `writer.write` and `writer.truncate`: the new bytes, at once in the backend or not. -/
def replaceBytes (r : Ref) (v : V) (w : Writer) (bytes : List UInt8) : Handler V σ Unit := do
  let grown : Writer := ⟨w.path, bytes, true⟩
  modifyFid r fun f => { f with writer := some grown }
  if cfg.eager v grown then cfg.save r v grown

def flush (r : Ref) (v : V) (w : Writer) : Handler V σ Unit :=
  if w.dirty then cfg.save r v w else pure ()

def closeWriter (r : Ref) : Handler V σ Unit := do
  let f ← fidAt r
  modifyFid r fun f => { f with writer := none, writerPath := none }
  match f.writerPath with
  | none => pure ()
  | some path =>
    if (← get).owners (f.vfs, path) = some r then
      modify fun w => { w with owners := Function.update w.owners (f.vfs, path) none }
  match f.writer with
  | none => pure ()
  | some w => if w.dirty then cfg.writeBytes f.vfs w.path w.bytes

def closeConflictingWriter (r : Ref) : Handler V σ Unit := do
  let f ← fidAt r
  match (← get).owners (f.vfs, f.path) with
  | none => pure ()
  | some owner => if owner ≠ r then cfg.closeWriter owner

/-- `vfs.openWrite`: appending starts from the bytes that are there, otherwise the file
is created or emptied. -/
def openWriteAt (v : V) (p : Path) (append : Bool) : Handler V σ Writer := do
  if append then
    if (cfg.backend v).isWritablePath p then
      return ⟨p, ← cfg.readBlob v p, false⟩
    else throw (.code .erofs)
  else
    cfg.writeBytes v p []
    return ⟨p, [], false⟩

/-- False when the backend does not stream. -/
def openWriter (r : Ref) (append : Bool) : Handler V σ Bool := do
  let f ← fidAt r
  if cfg.openWrite f.vfs then
    cfg.closeConflictingWriter r
    cfg.closeWriter r
    let writer ← cfg.openWriteAt f.vfs f.path append
    modifyFid r fun f => { f with writer := some writer, writerPath := some f.path }
    modify fun w => { w with owners := Function.update w.owners (f.vfs, f.path) (some r) }
    return true
  else return false

/-- Entries of an open directory, with "." and "..", numbered from 1. -/
def loadDirents (v : V) (dir : Path) : Handler V σ (List Dirent) := do
  match ← cfg.stat v dir with
  | none => p9err E.noent
  | some self =>
    let parent := (← cfg.stat v (parentOf dir)).getD self
    let kids ← cfg.list v dir
    let entries := (ofString ".", self) :: (ofString "..", parent) :: kids.map fun k => (k.name, k)
    entries.zipIdx.mapM fun e => do
      return ⟨← qidOf e.1.2, e.2 + 1, dtypeOf e.1.2, e.1.1⟩

omit [DecidableEq V] in
def lift {α : Type} (x : Except Fault α) : Handler V σ α :=
  match x with
  | .ok a => return a
  | .error e => throw e

/-- The qids of the components found and the path reached. -/
def walk (v : V) : Bool → Path → List Utf16 → Handler V σ (List Qid × Path)
  | _, cur, [] => return ([], cur)
  | first, cur, name :: names => do
    let next ← lift (joinName cur name)
    match ← cfg.stat v next with
    | none => if first then p9err E.noent else return ([], cur)
    | some rec =>
      let qid ← qidOf rec
      let (qids, last) ← walk v false next names
      return (qid :: qids, last)

/-- All closes run; the first rejection is thrown when they are done. -/
def closeAll : List Ref → Handler V σ Unit
  | [] => pure ()
  | r :: rest => do
    let failed : Option Fault ← tryCatch (do cfg.closeWriter r; return none) fun e => return some e
    closeAll rest
    match failed with
    | none => pure ()
    | some e => throw e

def tversion (cid msize : ℕ) (version : Utf16) : Handler V σ Body := do
  let c ← cfg.conn cid
  let agreed := min (if msize = 0 then 8192 else msize) cfg.maxMsize
  setConn cid { c with msize := agreed }
  cfg.closeAll c.fids.values
  setConn cid ⟨agreed, JsMap.empty⟩
  modify fun w => { w with negotiatedMsize := agreed }
  return .rversion agreed (if dotlVersion.isPrefixOf version then dotlVersion
    else ofString "unknown")

def tattach (cid fid : ℕ) (aname : Utf16) : Handler V σ Body := do
  let (v, path) ← lift (cfg.resolveAttach aname)
  match ← cfg.stat v path with
  | none => p9err E.noent
  | some rec =>
    cfg.bindFid cid fid v path
    return .rattach (← qidOf rec)

def twalk (cid fid newfid : ℕ) (wnames : List Utf16) : Handler V σ Body := do
  let f ← fidAt (← cfg.getFid cid fid)
  let (qids, cur) ← cfg.walk f.vfs true f.path wnames
  if qids.length = wnames.length then cfg.bindFid cid newfid f.vfs cur
  return .rwalk qids

def tgetattr (cid fid : ℕ) : Handler V σ Body := do
  let f ← fidAt (← cfg.getFid cid fid)
  match ← cfg.stat f.vfs f.path with
  | none => p9err E.noent
  | some rec =>
    let size ← cfg.sizeOf f.vfs rec
    let ms := rec.modifiedAt.getD 0
    let sec := ms / 1000
    let nsec := ms % 1000 * 1000000
    let nlink := if rec.type = .folder then 2 else 1
    return .rgetattr getattrBasic (← qidOf rec) (modeOf rec) cfg.uid cfg.gid nlink 0 size 4096
      ((size + 511) / 512) sec nsec sec nsec sec nsec 0 0 0 0

/-- The first `size` bytes, with zeros after the end. -/
def resized (bytes : List UInt8) (size : ℕ) : List UInt8 :=
  bytes.take size ++ List.replicate (size - bytes.length) 0

def tsetattr (cid fid valid size : ℕ) : Handler V σ Body := do
  let r ← cfg.getFid cid fid
  if valid &&& setattrSize = 0 then return .rsetattr
  else
    let f ← fidAt r
    match f.writer with
    | some w =>
      if size ≤ w.bytes.length then
        cfg.replaceBytes r f.vfs w (w.bytes.take size)
        return .rsetattr
      else resize r f size
    | none => resize r f size
where
  resize (r : Ref) (f : Fid V) (size : ℕ) : Handler V σ Body := do
    cfg.closeWriter r
    match ← cfg.stat f.vfs f.path with
    | none => return .rsetattr
    | some rec =>
      if rec.type = .folder then return .rsetattr
      else
        let cur ← cfg.readBytes f.vfs f.path
        cfg.writeBytes f.vfs f.path (resized cur size)
        return .rsetattr

/-- The file emptied or created, through a writer when the backend streams. -/
def emptyFile (r : Ref) (v : V) (p : Path) : Handler V σ Unit := do
  if ← cfg.openWriter r false then pure () else cfg.writeBytes v p []

def tlopen (cid fid flags : ℕ) : Handler V σ Body := do
  let r ← cfg.getFid cid fid
  let f ← fidAt r
  match ← cfg.stat f.vfs f.path with
  | none => p9err E.noent
  | some rec =>
    if rec.type = .folder then
      modifyFid r fun f => { f with opened := true }
      let dirents ← cfg.loadDirents f.vfs f.path
      modifyFid r fun f => { f with dirents := some dirents }
    else
      -- best effort: a read-only target stays as it is
      if flags &&& oTrunc = 0 then tryCatch (discard (cfg.openWriter r true)) fun _ => pure ()
      else tryCatch (cfg.emptyFile r f.vfs f.path) fun _ => pure ()
      modifyFid r fun f => { f with opened := true, dirents := none }
    return .rlopen (← qidOf rec) 0

/-- The directory fid becomes the new file. -/
def tlcreate (cid fid : ℕ) (name : Utf16) : Handler V σ Body := do
  let r ← cfg.getFid cid fid
  let f ← fidAt r
  let path ← lift (joinName f.path name)
  cfg.closeWriter r
  modifyFid r fun f => { f with path := path }
  cfg.emptyFile r f.vfs path
  let found ← cfg.stat f.vfs path
  modifyFid r fun f => { f with opened := true, dirents := none }
  return .rlcreate (← qidOf (← created found)) 0

/-- A call on a path below a directory fid, whose new record is reported. -/
def make (cid dfid : ℕ) (name : Utf16) (c : Path → Call) : Handler V σ Qid := do
  let f ← fidAt (← cfg.getFid cid dfid)
  let path ← lift (joinName f.path name)
  cfg.call f.vfs (c path)
  let found ← cfg.stat f.vfs path
  qidOf (← created found)

def treadlink (cid fid : ℕ) : Handler V σ Body := do
  let f ← fidAt (← cfg.getFid cid fid)
  match ← cfg.stat f.vfs f.path with
  | none => p9err E.inval
  | some rec => if rec.type = .alias then return .rreadlink (rec.target.getD []) else p9err E.inval

def tread (cid fid offset count : ℕ) : Handler V σ Body := do
  let f ← fidAt (← cfg.getFid cid fid)
  match ← cfg.stat f.vfs f.path with
  | none => p9err E.noent
  | some rec =>
    if rec.type = .folder then p9err E.isdir
    else
      let buf ← cfg.readBytes f.vfs f.path
      return .rread ((buf.drop offset).take count)

/-- `cur` with `data` laid over it from `offset`, zeros in between. -/
def overlay (cur : List UInt8) (offset : ℕ) (data : List UInt8) : List UInt8 :=
  resized cur offset ++ data ++ cur.drop (offset + data.length)

def twrite (cid fid offset : ℕ) (data : List UInt8) : Handler V σ Body := do
  let r ← cfg.getFid cid fid
  cfg.closeConflictingWriter r
  let f ← fidAt r
  reopen r f
  match (← fidAt r).writer with
  | some w =>
    if offset = w.bytes.length then
      cfg.replaceBytes r f.vfs w (w.bytes ++ data)
      return .rwrite data.length
    else readModifyWrite r f
  | none => readModifyWrite r f
where
  /-- Another fid may have closed this one's writer: reopen it at the end of the file. -/
  reopen (r : Ref) (f : Fid V) : Handler V σ Unit := do
    if f.writer.isNone ∧ cfg.openWrite f.vfs then
      let size ← sizeOrZero f.vfs (← cfg.stat f.vfs f.path)
      if offset = size then discard (cfg.openWriter r true)
  sizeOrZero (v : V) : Option VfsRecord → Handler V σ ℕ
    | some rec => cfg.sizeOf v rec
    | none => pure 0
  readModifyWrite (r : Ref) (f : Fid V) : Handler V σ Body := do
    cfg.closeWriter r
    let cur ← cfg.readBytes f.vfs f.path
    cfg.writeBytes f.vfs f.path (overlay cur offset data)
    return .rwrite data.length

/-- The packed entries after `offset` that fit in `count` bytes. -/
def fitting (offset count : ℕ) : ℕ → List Dirent → List UInt8
  | _, [] => []
  | total, d :: rest =>
    if d.offset ≤ offset then fitting offset count total rest
    else
      let packed := packDirent d
      if total + packed.length > count then []
      else packed ++ fitting offset count (total + packed.length) rest

def treaddir (cid fid offset count : ℕ) : Handler V σ Body := do
  let r ← cfg.getFid cid fid
  let f ← fidAt r
  match f.dirents with
  | some dirents =>
    if offset = 0 then reload r f else return .rreaddir (fitting offset count 0 dirents)
  | none => reload r f
where
  reload (r : Ref) (f : Fid V) : Handler V σ Body := do
    let dirents ← cfg.loadDirents f.vfs f.path
    modifyFid r fun f => { f with dirents := some dirents }
    return .rreaddir (fitting offset count 0 dirents)

def tclunk (cid fid : ℕ) : Handler V σ Body := do
  cfg.closeWriter (← cfg.getFid cid fid)
  cfg.dropFid cid fid
  return .rclunk

def tremove (cid fid : ℕ) : Handler V σ Body := do
  let r ← cfg.getFid cid fid
  cfg.closeWriter r
  let f ← fidAt r
  cfg.call f.vfs (.remove f.path)
  cfg.dropFid cid fid
  return .rremove

def tunlinkat (cid dirfid : ℕ) (name : Utf16) : Handler V σ Body := do
  let f ← fidAt (← cfg.getFid cid dirfid)
  let path ← lift (joinName f.path name)
  cfg.call f.vfs (.remove path)
  return .runlinkat

def trename (cid fid dfid : ℕ) (name : Utf16) : Handler V σ Body := do
  let r ← cfg.getFid cid fid
  let d ← fidAt (← cfg.getFid cid dfid)
  let dst ← lift (joinName d.path name)
  cfg.closeWriter r
  let f ← fidAt r
  cfg.call f.vfs (.move f.path dst)
  modifyFid r fun f => { f with path := dst }
  return .rrename

def trenameat (cid olddirfid : ℕ) (oldname : Utf16) (newdirfid : ℕ) (newname : Utf16) :
    Handler V σ Body := do
  let od ← fidAt (← cfg.getFid cid olddirfid)
  let nd ← fidAt (← cfg.getFid cid newdirfid)
  let src ← lift (joinName od.path oldname)
  let dst ← lift (joinName nd.path newname)
  cfg.call od.vfs (.move src dst)
  return .rrenameat

def tfsync (cid fid : ℕ) : Handler V σ Body := do
  let r ← cfg.getFid cid fid
  let f ← fidAt r
  match f.writer with
  | some w => cfg.flush r f.vfs w
  | none => pure ()
  return .rfsync

/-- One handler per message type. -/
def dispatch (cid : ℕ) : Body → Handler V σ Body
  | .tversion msize version => cfg.tversion cid msize version
  | .tattach fid _ _ aname _ => cfg.tattach cid fid aname
  | .twalk fid newfid wnames => cfg.twalk cid fid newfid wnames
  | .tgetattr fid _ => cfg.tgetattr cid fid
  | .tsetattr fid valid _ _ _ size _ _ _ _ => cfg.tsetattr cid fid valid size
  | .tlopen fid flags => cfg.tlopen cid fid flags
  | .tlcreate fid name _ _ _ => cfg.tlcreate cid fid name
  | .tmkdir dfid name _ _ => return .rmkdir (← cfg.make cid dfid name .mkdir)
  | .tsymlink fid name symtgt _ =>
    return .rsymlink (← cfg.make cid fid name fun p => .write p (.alias symtgt))
  | .treadlink fid => cfg.treadlink cid fid
  | .tread fid offset count => cfg.tread cid fid offset count
  | .twrite fid offset data => cfg.twrite cid fid offset data
  | .treaddir fid offset count => cfg.treaddir cid fid offset count
  | .tclunk fid => cfg.tclunk cid fid
  | .tremove fid => cfg.tremove cid fid
  | .tunlinkat dirfid name _ => cfg.tunlinkat cid dirfid name
  | .trename fid dfid name => cfg.trename cid fid dfid name
  | .trenameat olddirfid oldname newdirfid newname =>
    cfg.trenameat cid olddirfid oldname newdirfid newname
  | .tstatfs fid => do
    let _ ← cfg.getFid cid fid
    return .rstatfs v9fsMagic 4096 (2 ^ 20) (2 ^ 20) (2 ^ 20) (2 ^ 16) (2 ^ 16) 0 255
  | .tflush _ => return .rflush
  | .tfsync fid _ => cfg.tfsync cid fid
  -- locks are arbitrated in the guest, so every one is granted
  | .tlock fid _ _ _ _ _ _ => do
    let _ ← cfg.getFid cid fid
    return .rlock 0
  | .tgetlock fid _ start length procId clientId => do
    let _ ← cfg.getFid cid fid
    return .rgetlock 2 start length procId clientId
  | .txattrwalk _ _ _ => p9err E.nodata
  | _ => p9err E.nosys

/-- One request frame to one reply frame: a throw becomes Rlerror. -/
def handle (cid : ℕ) (frame : List UInt8) (w : World V σ) : List UInt8 × World V σ :=
  match decode frame with
  | none => (encode ⟨some (peekTag frame), .rlerror E.inval⟩, w)
  | some m =>
    match (cfg.dispatch cid m.body).run w with
    | .ok reply w' => (encode ⟨m.tag, reply⟩, w')
    | .error e w' => (encode ⟨m.tag, .rlerror (errnoFromError e)⟩, w')

/-- The world after a frame on a connection. -/
def serve (w : World V σ) (request : ℕ × List UInt8) : World V σ :=
  (cfg.handle request.1 request.2 w).2

end Config

end NixWasm.NinepServer
