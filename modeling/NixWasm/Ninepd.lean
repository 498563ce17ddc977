import NixWasm.Bytes
import Mathlib.Data.List.Sort

/-!
The guest's read-only 9P server of userspace/ninepd.c. Paths are the bytes of C strings up
to their NUL. What the kernel answers is a parameter: the calls a request makes are listed
with the path each is given. The reply is built in the output buffer; the end of the
furthest write to it is kept beside its bytes.
-/
namespace NixWasm.Ninepd

open Bytes

def maxMsize : ℕ := 65536
def maxFids : ℕ := 128
def maxWelem : ℕ := 16
def pathMax : ℕ := 3072

/-- The host's own files in the guest: /mnt/yore. -/
def excludePath : List UInt8 := [47, 109, 110, 116, 47, 121, 111, 114, 101]

def ENOENT : ℕ := 2
def EIO : ℕ := 5
def EBADF : ℕ := 9
def ENOMEM : ℕ := 12
def EINVAL : ℕ := 22
def EROFS : ℕ := 30
def ENAMETOOLONG : ℕ := 36
def ENOSYS : ℕ := 38
def ENODATA : ℕ := 61

def Rlerror : ℕ := 7
def Tstatfs : ℕ := 8
def Rstatfs : ℕ := 9
def Tlopen : ℕ := 12
def Rlopen : ℕ := 13
def Treadlink : ℕ := 22
def Rreadlink : ℕ := 23
def Tgetattr : ℕ := 24
def Rgetattr : ℕ := 25
def Txattrwalk : ℕ := 30
def Treaddir : ℕ := 40
def Rreaddir : ℕ := 41
def Tversion : ℕ := 100
def Rversion : ℕ := 101
def Tattach : ℕ := 104
def Rattach : ℕ := 105
def Tflush : ℕ := 108
def Rflush : ℕ := 109
def Twalk : ℕ := 110
def Rwalk : ℕ := 111
def Tread : ℕ := 116
def Rread : ℕ := 117
def Tclunk : ℕ := 120
def Rclunk : ℕ := 121

def isMutating (type : ℕ) : Bool := [14, 16, 18, 20, 26, 50, 72, 74, 76, 118, 122].contains type

def qtDir : ℕ := 0x80
def qtSymlink : ℕ := 0x02
def qtFile : ℕ := 0x00
def getattrBasic : ℕ := 0x7ff
def v9fsMagic : ℕ := 0x01021997

/-- The version 9P2000.L. -/
def dotlVersion : List UInt8 := [57, 80, 50, 48, 48, 48, 46, 76]

/-- The version "unknown". -/
def unknownVersion : List UInt8 := [117, 110, 107, 110, 111, 119, 110]

structure Stat where
  mode : ℕ
  ino : ℕ
  nlink : ℕ
  uid : ℕ
  gid : ℕ
  rdev : ℕ
  size : ℕ
  blksize : ℕ
  blocks : ℕ
  atime : ℕ
  mtime : ℕ
  ctime : ℕ
deriving DecidableEq

namespace Stat

def isDir (st : Stat) : Prop := st.mode &&& 0o170000 = 0o040000
def isLnk (st : Stat) : Prop := st.mode &&& 0o170000 = 0o120000
def isReg (st : Stat) : Prop := st.mode &&& 0o170000 = 0o100000

instance (st : Stat) : Decidable st.isDir := inferInstanceAs (Decidable (_ = _))
instance (st : Stat) : Decidable st.isLnk := inferInstanceAs (Decidable (_ = _))
instance (st : Stat) : Decidable st.isReg := inferInstanceAs (Decidable (_ = _))

end Stat

structure Dent where
  ino : ℕ
  dtype : ℕ
  name : List UInt8
deriving DecidableEq

def dtDir : ℕ := 4
def dtLnk : ℕ := 10

/-- What the kernel answers during one request; a failed call gives its errno. A call never
writes more than the buffer it is given. -/
structure Kernel (η : Type) where
  lstat : List UInt8 → Except ℕ Stat
  readlink : List UInt8 → ℕ → Except ℕ (List UInt8)
  openFile : List UInt8 → Except ℕ η
  pread : η → ℕ → ℕ → Except ℕ (List UInt8)
  readdir : List UInt8 → Except ℕ (List Dent)
  /-- errno where no call of the request has set it. -/
  stale : ℕ
  readlink_le : ∀ path size target, readlink path size = .ok target → target.length ≤ size
  pread_le : ∀ fd count off got, pread fd count off = .ok got → got.length ≤ count

/-- A path handed to the kernel, or bound to a fid. -/
inductive Call where
  | lstat (path : List UInt8)
  | readlink (path : List UInt8)
  | openFile (path : List UInt8)
  | opendir (path : List UInt8)
  | bind (path : List UInt8)
deriving DecidableEq

structure Fid (η : Type) where
  fid : ℕ
  path : List UInt8
  fd : Option η
  ents : Option (List Dent)

/-- The fid table and the message size. -/
structure Daemon (η : Type) where
  fids : List (Option (Fid η))
  msize : ℕ

/-- What `serve` starts a connection with. -/
def Daemon.new (η : Type) : Daemon η := ⟨List.replicate maxFids none, maxMsize⟩

/-- The output buffer up to `outpos`, and the end of the furthest write to it. -/
structure Out where
  bytes : List UInt8
  reach : ℕ

namespace Out

def new : Out := ⟨[], 0⟩

def put (o : Out) (s : List UInt8) : Out :=
  ⟨o.bytes ++ s, max o.reach (o.bytes.length + s.length)⟩

/-- `replyBegin`: the size is filled in when the reply is sent. -/
def replyBegin (o : Out) (type tag : ℕ) : Out :=
  (({ o with bytes := [] }.put (leBytes 4 0)).put (leBytes 1 type)).put (leBytes 2 tag)

/-- A 32-bit number over the four bytes at `pos`. -/
def patch (o : Out) (pos v : ℕ) : Out :=
  { o with bytes := o.bytes.take pos ++ leBytes 4 v ++ o.bytes.drop (pos + 4) }

def rlerror (o : Out) (tag ecode : ℕ) : Out := (o.replyBegin Rlerror tag).put (leBytes 4 ecode)

def str (o : Out) (s : List UInt8) : Out := (o.put (leBytes 2 s.length)).put s

/-- `replySend`: the frame that goes out. -/
def replySend (o : Out) : Out := o.patch 0 o.bytes.length

end Out

structure Qid where
  type : ℕ
  version : ℕ
  path : ℕ
deriving DecidableEq

def Out.qid (o : Out) (q : Qid) : Out :=
  ((o.put (leBytes 1 q.type)).put (leBytes 4 q.version)).put (leBytes 8 q.path)

structure Outcome (η : Type) where
  daemon : Daemon η
  calls : List Call
  out : Out

variable {η : Type}

section Fids

def fidGet (fids : List (Option (Fid η))) (id : ℕ) : Option (Fid η) :=
  fids.findSome? fun slot => slot.filter (·.fid = id)

/-- What the first slot of a fid holds from now on. -/
def fidSet (id : ℕ) (slot : Option (Fid η)) : List (Option (Fid η)) → List (Option (Fid η))
  | [] => []
  | old :: rest =>
    if old.map Fid.fid = some id then slot :: rest else old :: fidSet id slot rest

def fidDrop (id : ℕ) (fids : List (Option (Fid η))) : List (Option (Fid η)) := fidSet id none fids

def firstFree (f : Fid η) : List (Option (Fid η)) → Option (List (Option (Fid η)))
  | [] => none
  | none :: rest => some (some f :: rest)
  | some g :: rest => (firstFree f rest).map (some g :: ·)

/-- A fid number in use is dropped first. -/
def fidNew (id : ℕ) (path : List UInt8) (fids : List (Option (Fid η))) :
    Option (List (Option (Fid η))) :=
  firstFree ⟨id, path, none, none⟩ (fidDrop id fids)

end Fids

section Paths

/-- The string that C sees in a buffer. -/
def cString (b : List UInt8) : List UInt8 := b.takeWhile (· ≠ 0)

/-- `realPath`: a logical path below the served root, if it fits the buffer. -/
def realPath (serveRoot logical : List UInt8) : Option (List UInt8) :=
  let outsz := pathMax + 64
  if serveRoot = [47] then if outsz ≤ logical.length then none else some logical
  else if logical = [47] then if outsz ≤ serveRoot.length then none else some serveRoot
  else if outsz ≤ serveRoot.length + logical.length then none
  else some (serveRoot ++ logical)

def isExcluded (logical : List UInt8) : Prop := logical = excludePath

instance (logical : List UInt8) : Decidable (isExcluded logical) :=
  inferInstanceAs (Decidable (_ = _))

/-- A path up to its last slash, which the root keeps. -/
def parentPath (path : List UInt8) : List UInt8 :=
  let before := (path.reverse.dropWhile (· ≠ 47)).tail.reverse
  if before = [] then [47] else before

/-- The last component of a path. -/
def lastName (path : List UInt8) : List UInt8 := (path.reverse.takeWhile (· ≠ 47)).reverse

def pathJoin (path name : List UInt8) : Option (List UInt8) :=
  if name = [] ∨ 47 ∈ name then none
  else if name = [46] then some path
  else if name = [46, 46] then some (parentPath path)
  else if pathMax ≤ path.length + 1 + name.length + 1 then none
  else some ((if path = [47] then [47] else path ++ [47]) ++ cString name)

end Paths

def qidOf (st : Stat) : Qid :=
  ⟨if st.isDir then qtDir else if st.isLnk then qtSymlink else qtFile, st.mtime, st.ino⟩

/-- errno as a handler reports it. -/
def orEIO (errno : ℕ) : ℕ := if errno = 0 then EIO else errno

/-- `realPath` and `lstat`, as most handlers begin: the calls and their result. -/
def statPath (k : Kernel η) (serveRoot path : List UInt8) : List Call × Except ℕ Stat :=
  match realPath serveRoot path with
  | none => ([], .error k.stale)
  | some rp => ([.lstat rp], k.lstat rp)

/-- A request that fails leaves the daemon as it is. -/
def fail (d : Daemon η) (calls : List Call) (tag ecode : ℕ) : Outcome η :=
  ⟨d, calls, Out.new.rlerror tag ecode⟩

/-- The message size for the one that a client asks for. -/
def negotiate (want : ℕ) : ℕ :=
  let msize := if want < maxMsize then want else maxMsize
  if msize < 4096 then 4096 else msize

def rversion (tag msize : ℕ) (version : List UInt8) : Out :=
  ((Out.new.replyBegin Rversion tag).put (leBytes 4 msize)).str version

def doVersion (d : Daemon η) (tag : ℕ) (b : List UInt8) : Outcome η :=
  if b.length < 6 then fail d [] tag EINVAL
  else
    let want := leValue (b.take 4)
    let vlen := leValue ((b.drop 4).take 2)
    if b.length < 6 + vlen then fail d [] tag EINVAL
    else
      let msize := negotiate want
      let ok := vlen = 8 ∧ (b.drop 6).take 8 = dotlVersion
      ⟨{ d with msize }, [], rversion tag msize (if ok then dotlVersion else unknownVersion)⟩

def doAttach (k : Kernel η) (serveRoot : List UInt8) (d : Daemon η) (tag : ℕ) (b : List UInt8) :
    Outcome η :=
  if b.length < 8 then fail d [] tag EINVAL
  else
    let fid := leValue (b.take 4)
    match fidNew fid [47] d.fids with
    | none => fail { d with fids := fidDrop fid d.fids } [] tag ENOMEM
    | some fids =>
      match statPath k serveRoot [47] with
      | (calls, .error errno) => fail { d with fids := fidDrop fid fids } calls tag ( orEIO errno)
      | (calls, .ok st) =>
        ⟨{ d with fids }, calls ++ [.bind [47]], (Out.new.replyBegin Rattach tag).qid (qidOf st)⟩

/-- A walk that stops at a component: an error at the first, a shorter reply later. -/
def walkStop (path : List UInt8) (qids : List Qid) : Except ℕ (List UInt8 × List Qid) :=
  if qids = [] then .error ENOENT else .ok (path, qids)

/-- The loop of `doWalk` over the components left: the calls, and an error or the path and
the qids where it stops. -/
def walkLoop (k : Kernel η) (serveRoot : List UInt8) :
    ℕ → List UInt8 → List UInt8 → List Qid → List Call →
      List Call × Except ℕ (List UInt8 × List Qid)
  | 0, _, path, qids, calls => (calls, .ok (path, qids))
  | left + 1, p, path, qids, calls =>
    if p.length < 2 then (calls, .error EINVAL)
    else
      let nl := leValue (p.take 2)
      let p := p.drop 2
      if p.length < nl then (calls, .error EINVAL)
      else
        match pathJoin path (p.take nl) with
        | none => (calls, walkStop path qids)
        | some path =>
          if isExcluded path then (calls, walkStop path qids)
          else
            match statPath k serveRoot path with
            | (more, .error _) => (calls ++ more, walkStop path qids)
            | (more, .ok st) =>
              let qids := qids ++ [qidOf st]
              if st.isLnk ∧ left ≠ 0 then (calls ++ more, .ok (path, qids))
              else walkLoop k serveRoot left (p.drop nl) path qids (calls ++ more)

def rwalk (tag : ℕ) (qids : List Qid) : Out :=
  qids.foldl Out.qid ((Out.new.replyBegin Rwalk tag).put (leBytes 2 qids.length))

def doWalk (k : Kernel η) (serveRoot : List UInt8) (d : Daemon η) (tag : ℕ) (b : List UInt8) :
    Outcome η :=
  if b.length < 10 then fail d [] tag EINVAL
  else
    let fid := leValue (b.take 4)
    let newfid := leValue ((b.drop 4).take 4)
    let nwname := leValue ((b.drop 8).take 2)
    if maxWelem < nwname then fail d [] tag EINVAL
    else
      match fidGet d.fids fid with
      | none => fail d [] tag EBADF
      | some f =>
        match walkLoop k serveRoot nwname (b.drop 10) f.path [] [] with
        | (calls, .error ecode) => fail d calls tag ecode
        | (calls, .ok (path, qids)) =>
          if qids.length = nwname then
            match fidNew newfid path d.fids with
            | none => fail { d with fids := fidDrop newfid d.fids } calls tag ENOMEM
            | some fids => ⟨{ d with fids }, calls ++ [.bind path], rwalk tag qids⟩
          else ⟨d, calls, rwalk tag qids⟩

def doGetattr (k : Kernel η) (serveRoot : List UInt8) (d : Daemon η) (tag : ℕ) (b : List UInt8) :
    Outcome η :=
  if b.length < 12 then fail d [] tag EINVAL
  else
    match fidGet d.fids (leValue (b.take 4)) with
    | none => fail d [] tag EBADF
    | some f =>
      match statPath k serveRoot f.path with
      | (calls, .error errno) => fail d calls tag ( orEIO errno)
      | (calls, .ok st) =>
        let o := ((Out.new.replyBegin Rgetattr tag).put (leBytes 8 getattrBasic)).qid (qidOf st)
        let o := [st.mode, st.uid, st.gid].foldl (fun o v => o.put (leBytes 4 v)) o
        ⟨d, calls, [st.nlink, st.rdev, st.size, if st.blksize ≠ 0 then st.blksize else 4096,
          st.blocks, st.atime, 0, st.mtime, 0, st.ctime, 0, 0, 0, 0, 0].foldl
            (fun o v => o.put (leBytes 8 v)) o⟩

def doReadlink (k : Kernel η) (serveRoot : List UInt8) (d : Daemon η) (tag : ℕ)
    (b : List UInt8) : Outcome η :=
  if b.length < 4 then fail d [] tag EINVAL
  else
    match fidGet d.fids (leValue (b.take 4)) with
    | none => fail d [] tag EBADF
    | some f =>
      match realPath serveRoot f.path with
      | none => fail d [] tag ENAMETOOLONG
      | some rp =>
        match k.readlink rp (pathMax - 1) with
        | .error errno => fail d [.readlink rp] tag errno
        | .ok target => ⟨d, [.readlink rp], (Out.new.replyBegin Rreadlink tag).str target⟩

def rlopen (tag : ℕ) (st : Stat) : Out :=
  ((Out.new.replyBegin Rlopen tag).qid (qidOf st)).put (leBytes 4 0)

def doLopen (k : Kernel η) (serveRoot : List UInt8) (d : Daemon η) (tag : ℕ) (b : List UInt8) :
    Outcome η :=
  if b.length < 8 then fail d [] tag EINVAL
  else
    match fidGet d.fids (leValue (b.take 4)) with
    | none => fail d [] tag EBADF
    | some f =>
      let flags := leValue ((b.drop 4).take 4)
      if flags &&& 0x3 ≠ 0 ∨ flags &&& (0x40 ||| 0x200 ||| 0x400) ≠ 0 then fail d [] tag EROFS
      else
        match realPath serveRoot f.path with
        | none => fail d [] tag ( orEIO k.stale)
        | some rp =>
          match k.lstat rp with
          | .error errno => fail d [.lstat rp] tag ( orEIO errno)
          | .ok st =>
            if st.isReg then
              match k.openFile rp with
              | .error errno => fail d [.lstat rp, .openFile rp] tag errno
              | .ok fd =>
                ⟨{ d with fids := fidSet f.fid (some { f with fd := some fd }) d.fids },
                  [.lstat rp, .openFile rp], rlopen tag st⟩
            else ⟨d, [.lstat rp], rlopen tag st⟩

/-- `msize - 24` in 32 bits, and no more than that. -/
def clamp (msize count : ℕ) : ℕ := min count ((msize + 2 ^ 32 - 24) % 2 ^ 32)

def doRead (k : Kernel η) (d : Daemon η) (tag : ℕ) (b : List UInt8) : Outcome η :=
  if b.length < 16 then fail d [] tag EINVAL
  else
    match fidGet d.fids (leValue (b.take 4)) with
    | none => fail d [] tag EBADF
    | some f =>
      match f.fd with
      | none => fail d [] tag EBADF
      | some fd =>
        let off := leValue ((b.drop 4).take 8)
        let count := clamp d.msize (leValue ((b.drop 12).take 4))
        let o := (Out.new.replyBegin Rread tag).put (leBytes 4 0)
        -- the kernel may fill the buffer up to `count`, whatever it returns
        let o := { o with reach := max o.reach (o.bytes.length + count) }
        match k.pread fd count off with
        | .error errno => ⟨d, [], o.rlerror tag errno⟩
        | .ok got => ⟨d, [], (o.patch (o.bytes.length - 4) got.length).put got⟩

/-- `scanDir`: the entries of a directory in their order, without the one that is hidden. -/
def scanDir (k : Kernel η) (serveRoot path : List UInt8) : List Call × Except ℕ (List Dent) :=
  match realPath serveRoot path with
  | none => ([], .error k.stale)
  | some rp =>
    let atExcludeParent := path = parentPath excludePath
    ([.opendir rp], (k.readdir rp).map fun ents =>
      (ents.filter fun e => e.name ≠ [46] ∧ e.name ≠ [46, 46] ∧
        ¬(atExcludeParent ∧ e.name = lastName excludePath)).insertionSort
          fun a b => a.name ≤ b.name)

def direntType (dtype : ℕ) : ℕ :=
  if dtype = dtDir then qtDir else if dtype = dtLnk then qtSymlink else qtFile

/-- The loop of `doReaddir` from entry `i` on: the reply and the bytes of entries in it. -/
def putEntries (count : ℕ) : ℕ → ℕ → List Dent → Out → Out × ℕ
  | _, total, [], o => (o, total)
  | i, total, e :: rest, o =>
    let need := 13 + 8 + 1 + 2 + e.name.length
    if count < total + need then (o, total)
    else
      putEntries count (i + 1) (total + need) rest
        ((((o.qid ⟨direntType e.dtype, 0, e.ino⟩).put (leBytes 8 (i + 1))).put
          (leBytes 1 e.dtype)).str e.name)

def rreaddir (tag count off : ℕ) (ents : List Dent) : Out :=
  let o := (Out.new.replyBegin Rreaddir tag).put (leBytes 4 0)
  let cpos := o.bytes.length - 4
  -- the offset is cut to the 32 bits of a size_t
  let start := off % 2 ^ 32
  let (o, total) := putEntries count start 0 (ents.drop start) o
  o.patch cpos total

def doReaddir (k : Kernel η) (serveRoot : List UInt8) (d : Daemon η) (tag : ℕ)
    (b : List UInt8) : Outcome η :=
  if b.length < 16 then fail d [] tag EINVAL
  else
    match fidGet d.fids (leValue (b.take 4)) with
    | none => fail d [] tag EBADF
    | some f =>
      let off := leValue ((b.drop 4).take 8)
      let count := clamp d.msize (leValue ((b.drop 12).take 4))
      match if off = 0 then none else f.ents with
      | some ents => ⟨d, [], rreaddir tag count off ents⟩
      | none =>
        match scanDir k serveRoot f.path with
        | (calls, .error errno) =>
          fail { d with fids := fidSet f.fid (some { f with ents := none }) d.fids } calls tag
            ( orEIO errno)
        | (calls, .ok ents) =>
          ⟨{ d with fids := fidSet f.fid (some { f with ents := some ents }) d.fids }, calls,
            rreaddir tag count off ents⟩

def doStatfs (d : Daemon η) (tag : ℕ) : Outcome η :=
  let o := ((Out.new.replyBegin Rstatfs tag).put (leBytes 4 v9fsMagic)).put (leBytes 4 4096)
  let o := [2 ^ 20, 0, 0, 2 ^ 16, 0, 0].foldl (fun o v => o.put (leBytes 8 v)) o
  ⟨d, [], o.put (leBytes 4 255)⟩

def doClunk (d : Daemon η) (tag : ℕ) (b : List UInt8) : Outcome η :=
  if b.length < 4 then fail d [] tag EINVAL
  else ⟨{ d with fids := fidDrop (leValue (b.take 4)) d.fids }, [], Out.new.replyBegin Rclunk tag⟩

structure Frame where
  type : ℕ
  tag : ℕ
  body : List UInt8
deriving DecidableEq

/-- One request. -/
def handle (serveRoot : List UInt8) (k : Kernel η) (d : Daemon η) (m : Frame) : Outcome η :=
  if m.type = Tversion then doVersion d m.tag m.body
  else if m.type = Tattach then doAttach k serveRoot d m.tag m.body
  else if m.type = Twalk then doWalk k serveRoot d m.tag m.body
  else if m.type = Tgetattr then doGetattr k serveRoot d m.tag m.body
  else if m.type = Treadlink then doReadlink k serveRoot d m.tag m.body
  else if m.type = Tlopen then doLopen k serveRoot d m.tag m.body
  else if m.type = Tread then doRead k d m.tag m.body
  else if m.type = Treaddir then doReaddir k serveRoot d m.tag m.body
  else if m.type = Tstatfs then doStatfs d m.tag
  else if m.type = Tclunk then doClunk d m.tag m.body
  else if m.type = Tflush then ⟨d, [], Out.new.replyBegin Rflush m.tag⟩
  else if m.type = Txattrwalk then fail d [] m.tag ENODATA
  else fail d [] m.tag (if isMutating m.type then EROFS else ENOSYS)

/-- A request and the reply to it as it goes out. -/
structure Exchange where
  request : Frame
  reply : List UInt8
  reach : ℕ

/-- The first frame of a stream, and what follows it; none where the stream ends or is out of
step. -/
def nextFrame (stream : List UInt8) : Option (Frame × List UInt8) :=
  let sz := leValue (stream.take 4)
  let rest := stream.drop 4
  if stream.length < 4 ∨ sz < 7 ∨ maxMsize < sz ∨ rest.length < sz - 4 then none
  else
    let inbuf := rest.take (sz - 4)
    some (⟨leValue (inbuf.take 1), leValue ((inbuf.drop 1).take 2), inbuf.drop 3⟩,
      rest.drop (sz - 4))

/-- The loop of `serve`, as long as the kernel answers: each request has its own answers. -/
def serve (serveRoot : List UInt8) :
    List (Kernel η) → Daemon η → List UInt8 → List Exchange
  | [], _, _ => []
  | k :: ks, d, stream =>
    match nextFrame stream with
    | none => []
    | some (m, rest) =>
      let r := handle serveRoot k d m
      let out := r.out.replySend
      ⟨m, out.bytes, out.reach⟩ :: serve serveRoot ks r.daemon rest

end NixWasm.Ninepd
