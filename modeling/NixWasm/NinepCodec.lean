import NixWasm.Bytes
import NixWasm.Unicode

/-!
The 9P2000.L wire codec of ninep/protocol.ts. Each message has its list of writer
calls, from `encode`, and its sequence of reader calls, from `decode`; the two are
transcribed separately. Numbers are naturals, strings are UTF-16, and a throw of the
reader or of an unknown type is a failure.
-/
namespace NixWasm.NinepCodec

open Bytes Bytes.Reader Unicode

/-- Message type numbers (T = request, R = reply). -/
inductive P9
  | rlerror | tstatfs | rstatfs | tlopen | rlopen | tlcreate | rlcreate | tsymlink
  | rsymlink | tmknod | rmknod | trename | rrename | treadlink | rreadlink | tgetattr
  | rgetattr | tsetattr | rsetattr | txattrwalk | rxattrwalk | treaddir | rreaddir | tfsync
  | rfsync | tlock | rlock | tgetlock | rgetlock | tmkdir | rmkdir | trenameat
  | rrenameat | tunlinkat | runlinkat | tversion | rversion | tauth | rauth | tattach
  | rattach | tflush | rflush | twalk | rwalk | tread | rread | twrite
  | rwrite | tclunk | rclunk | tremove | rremove
deriving DecidableEq

def P9.code : P9 → ℕ
  | .rlerror => 7
  | .tstatfs => 8
  | .rstatfs => 9
  | .tlopen => 12
  | .rlopen => 13
  | .tlcreate => 14
  | .rlcreate => 15
  | .tsymlink => 16
  | .rsymlink => 17
  | .tmknod => 18
  | .rmknod => 19
  | .trename => 20
  | .rrename => 21
  | .treadlink => 22
  | .rreadlink => 23
  | .tgetattr => 24
  | .rgetattr => 25
  | .tsetattr => 26
  | .rsetattr => 27
  | .txattrwalk => 30
  | .rxattrwalk => 31
  | .treaddir => 40
  | .rreaddir => 41
  | .tfsync => 50
  | .rfsync => 51
  | .tlock => 52
  | .rlock => 53
  | .tgetlock => 54
  | .rgetlock => 55
  | .tmkdir => 72
  | .rmkdir => 73
  | .trenameat => 74
  | .rrenameat => 75
  | .tunlinkat => 76
  | .runlinkat => 77
  | .tversion => 100
  | .rversion => 101
  | .tauth => 102
  | .rauth => 103
  | .tattach => 104
  | .rattach => 105
  | .tflush => 108
  | .rflush => 109
  | .twalk => 110
  | .rwalk => 111
  | .tread => 116
  | .rread => 117
  | .twrite => 118
  | .rwrite => 119
  | .tclunk => 120
  | .rclunk => 121
  | .tremove => 122
  | .rremove => 123

def P9.ofCode : ℕ → Option P9
  | 7 => some .rlerror
  | 8 => some .tstatfs
  | 9 => some .rstatfs
  | 12 => some .tlopen
  | 13 => some .rlopen
  | 14 => some .tlcreate
  | 15 => some .rlcreate
  | 16 => some .tsymlink
  | 17 => some .rsymlink
  | 18 => some .tmknod
  | 19 => some .rmknod
  | 20 => some .trename
  | 21 => some .rrename
  | 22 => some .treadlink
  | 23 => some .rreadlink
  | 24 => some .tgetattr
  | 25 => some .rgetattr
  | 26 => some .tsetattr
  | 27 => some .rsetattr
  | 30 => some .txattrwalk
  | 31 => some .rxattrwalk
  | 40 => some .treaddir
  | 41 => some .rreaddir
  | 50 => some .tfsync
  | 51 => some .rfsync
  | 52 => some .tlock
  | 53 => some .rlock
  | 54 => some .tgetlock
  | 55 => some .rgetlock
  | 72 => some .tmkdir
  | 73 => some .rmkdir
  | 74 => some .trenameat
  | 75 => some .rrenameat
  | 76 => some .tunlinkat
  | 77 => some .runlinkat
  | 100 => some .tversion
  | 101 => some .rversion
  | 102 => some .tauth
  | 103 => some .rauth
  | 104 => some .tattach
  | 105 => some .rattach
  | 108 => some .tflush
  | 109 => some .rflush
  | 110 => some .twalk
  | 111 => some .rwalk
  | 116 => some .tread
  | 117 => some .rread
  | 118 => some .twrite
  | 119 => some .rwrite
  | 120 => some .tclunk
  | 121 => some .rclunk
  | 122 => some .tremove
  | 123 => some .rremove
  | _ => none

structure Qid where
  type : ℕ
  version : ℕ
  path : ℕ
deriving DecidableEq

inductive Body
  | tversion (msize : ℕ) (version : Utf16)
  | rversion (msize : ℕ) (version : Utf16)
  | tauth (afid : ℕ) (uname aname : Utf16) (nUname : ℕ)
  | rauth (aqid : Qid)
  | tattach (fid afid : ℕ) (uname aname : Utf16) (nUname : ℕ)
  | rattach (qid : Qid)
  | rlerror (ecode : ℕ)
  | tstatfs (fid : ℕ)
  | rstatfs (fstype bsize blocks bfree bavail files ffree fsid namelen : ℕ)
  | tlopen (fid flags : ℕ)
  | rlopen (qid : Qid) (iounit : ℕ)
  | tlcreate (fid : ℕ) (name : Utf16) (flags mode gid : ℕ)
  | rlcreate (qid : Qid) (iounit : ℕ)
  | tsymlink (fid : ℕ) (name symtgt : Utf16) (gid : ℕ)
  | rsymlink (qid : Qid)
  | tmknod (dfid : ℕ) (name : Utf16) (mode major minor gid : ℕ)
  | rmknod (qid : Qid)
  | trename (fid dfid : ℕ) (name : Utf16)
  | rrename
  | treadlink (fid : ℕ)
  | rreadlink (target : Utf16)
  | tgetattr (fid requestMask : ℕ)
  | rgetattr (valid : ℕ) (qid : Qid)
      (mode uid gid nlink rdev size blksize blocks atimeSec atimeNsec mtimeSec mtimeNsec ctimeSec
        ctimeNsec btimeSec btimeNsec gen dataVersion : ℕ)
  | tsetattr (fid valid mode uid gid size atimeSec atimeNsec mtimeSec mtimeNsec : ℕ)
  | rsetattr
  | txattrwalk (fid newfid : ℕ) (name : Utf16)
  | treaddir (fid offset count : ℕ)
  | rreaddir (data : List UInt8)
  | tfsync (fid datasync : ℕ)
  | rfsync
  | tlock (fid locktype flags start length procId : ℕ) (clientId : Utf16)
  | rlock (status : ℕ)
  | tgetlock (fid locktype start length procId : ℕ) (clientId : Utf16)
  | rgetlock (locktype start length procId : ℕ) (clientId : Utf16)
  | tmkdir (dfid : ℕ) (name : Utf16) (mode gid : ℕ)
  | rmkdir (qid : Qid)
  | trenameat (olddirfid : ℕ) (oldname : Utf16) (newdirfid : ℕ) (newname : Utf16)
  | rrenameat
  | tunlinkat (dirfid : ℕ) (name : Utf16) (flags : ℕ)
  | runlinkat
  | tflush (oldtag : ℕ)
  | rflush
  | twalk (fid newfid : ℕ) (wnames : List Utf16)
  | rwalk (qids : List Qid)
  | tread (fid offset count : ℕ)
  | rread (data : List UInt8)
  | twrite (fid offset : ℕ) (data : List UInt8)
  | rwrite (count : ℕ)
  | tclunk (fid : ℕ)
  | rclunk
  | tremove (fid : ℕ)
  | rremove
deriving DecidableEq

def Body.type : Body → P9
  | .tversion .. => .tversion
  | .rversion .. => .rversion
  | .tauth .. => .tauth
  | .rauth .. => .rauth
  | .tattach .. => .tattach
  | .rattach .. => .rattach
  | .rlerror .. => .rlerror
  | .tstatfs .. => .tstatfs
  | .rstatfs .. => .rstatfs
  | .tlopen .. => .tlopen
  | .rlopen .. => .rlopen
  | .tlcreate .. => .tlcreate
  | .rlcreate .. => .rlcreate
  | .tsymlink .. => .tsymlink
  | .rsymlink .. => .rsymlink
  | .tmknod .. => .tmknod
  | .rmknod .. => .rmknod
  | .trename .. => .trename
  | .rrename => .rrename
  | .treadlink .. => .treadlink
  | .rreadlink .. => .rreadlink
  | .tgetattr .. => .tgetattr
  | .rgetattr .. => .rgetattr
  | .tsetattr .. => .tsetattr
  | .rsetattr => .rsetattr
  | .txattrwalk .. => .txattrwalk
  | .treaddir .. => .treaddir
  | .rreaddir .. => .rreaddir
  | .tfsync .. => .tfsync
  | .rfsync => .rfsync
  | .tlock .. => .tlock
  | .rlock .. => .rlock
  | .tgetlock .. => .tgetlock
  | .rgetlock .. => .rgetlock
  | .tmkdir .. => .tmkdir
  | .rmkdir .. => .rmkdir
  | .trenameat .. => .trenameat
  | .rrenameat => .rrenameat
  | .tunlinkat .. => .tunlinkat
  | .runlinkat => .runlinkat
  | .tflush .. => .tflush
  | .rflush => .rflush
  | .twalk .. => .twalk
  | .rwalk .. => .rwalk
  | .tread .. => .tread
  | .rread .. => .rread
  | .twrite .. => .twrite
  | .rwrite .. => .rwrite
  | .tclunk .. => .tclunk
  | .rclunk => .rclunk
  | .tremove .. => .tremove
  | .rremove => .rremove

/-- `tag` is optional in the source and defaults to 0 on the wire. -/
structure P9Message where
  tag : Option ℕ
  body : Body
deriving DecidableEq

/-- One call on the `Writer`. -/
inductive Field
  | u8 (v : ℕ)
  | u16 (v : ℕ)
  | u32 (v : ℕ)
  | u64 (v : ℕ)
  | str (s : Utf16)
  | qid (q : Qid)
  | data (b : List UInt8)
  | wnames (v : List Utf16)
  | qids (v : List Qid)

namespace Write

-- the writer masks every number to its width
def u8 (v : ℕ) : List UInt8 := leBytes 1 v
def u16 (v : ℕ) : List UInt8 := leBytes 2 v
def u32 (v : ℕ) : List UInt8 := leBytes 4 v
def u64 (v : ℕ) : List UInt8 := leBytes 8 v

def str (s : Utf16) : List UInt8 := u16 (utf8Encode s).length ++ utf8Encode s

def qid (q : Qid) : List UInt8 := u8 q.type ++ (u32 q.version ++ u64 q.path)

def data (b : List UInt8) : List UInt8 := u32 b.length ++ b

def wnames (v : List Utf16) : List UInt8 := u16 v.length ++ v.flatMap str

def qids (v : List Qid) : List UInt8 := u16 v.length ++ v.flatMap qid

def patchU32 (w : List UInt8) (off v : ℕ) : List UInt8 :=
  w.take off ++ u32 v ++ w.drop (off + 4)

end Write

def Field.write : Field → List UInt8
  | .u8 v => Write.u8 v
  | .u16 v => Write.u16 v
  | .u32 v => Write.u32 v
  | .u64 v => Write.u64 v
  | .str s => Write.str s
  | .qid q => Write.qid q
  | .data b => Write.data b
  | .wnames v => Write.wnames v
  | .qids v => Write.qids v

/-- `Number(v)` of a 64-bit value: nearest double, ties to even. -/
def toNumber (v : ℕ) : ℕ :=
  if v < 2 ^ 53 then v
  else
    let unit := 2 ^ (Nat.log2 v - 52)
    let low := v / unit
    if 2 * (v % unit) > unit ∨ 2 * (v % unit) = unit ∧ low % 2 = 1 then (low + 1) * unit
    else low * unit

namespace Read

def u8 : Reader ℕ := le 1
def u16 : Reader ℕ := le 2
def u32 : Reader ℕ := le 4
def u64 : Reader ℕ := toNumber <$> le 8

/-- `subarray(...).slice()` does not throw past the end: it is cut short. -/
def raw (n : ℕ) : Reader (List UInt8) := upTo n

def str : Reader Utf16 := do
  let n ← u16
  utf8Decode <$> raw n

def qid : Reader Qid := return ⟨← u8, ← u32, ← u64⟩

def data : Reader (List UInt8) := do raw (← u32)

def wnames : Reader (List Utf16) := do items str (← u16)

def qids : Reader (List Qid) := do items qid (← u16)

end Read

/-- The `Writer` calls of a message, in the order `encode` makes them. -/
def Body.fields : Body → List Field
  | .tversion msize version => [.u32 msize, .str version]
  | .rversion msize version => [.u32 msize, .str version]
  | .tauth afid uname aname nUname => [.u32 afid, .str uname, .str aname, .u32 nUname]
  | .rauth aqid => [.qid aqid]
  | .tattach fid afid uname aname nUname =>
    [.u32 fid, .u32 afid, .str uname, .str aname, .u32 nUname]
  | .rattach qid => [.qid qid]
  | .rlerror ecode => [.u32 ecode]
  | .tstatfs fid => [.u32 fid]
  | .rstatfs fstype bsize blocks bfree bavail files ffree fsid namelen =>
    [.u32 fstype, .u32 bsize, .u64 blocks, .u64 bfree, .u64 bavail, .u64 files, .u64 ffree,
      .u64 fsid, .u32 namelen]
  | .tlopen fid flags => [.u32 fid, .u32 flags]
  | .rlopen qid iounit => [.qid qid, .u32 iounit]
  | .tlcreate fid name flags mode gid => [.u32 fid, .str name, .u32 flags, .u32 mode, .u32 gid]
  | .rlcreate qid iounit => [.qid qid, .u32 iounit]
  | .tsymlink fid name symtgt gid => [.u32 fid, .str name, .str symtgt, .u32 gid]
  | .rsymlink qid => [.qid qid]
  | .tmknod dfid name mode major minor gid =>
    [.u32 dfid, .str name, .u32 mode, .u32 major, .u32 minor, .u32 gid]
  | .rmknod qid => [.qid qid]
  | .trename fid dfid name => [.u32 fid, .u32 dfid, .str name]
  | .rrename => []
  | .treadlink fid => [.u32 fid]
  | .rreadlink target => [.str target]
  | .tgetattr fid requestMask => [.u32 fid, .u64 requestMask]
   | .rgetattr valid qid mode uid gid nlink rdev size blksize blocks atimeSec atimeNsec
      mtimeSec mtimeNsec ctimeSec ctimeNsec btimeSec btimeNsec gen dataVersion =>
    [.u64 valid, .qid qid, .u32 mode, .u32 uid, .u32 gid, .u64 nlink, .u64 rdev, .u64 size,
      .u64 blksize, .u64 blocks, .u64 atimeSec, .u64 atimeNsec, .u64 mtimeSec, .u64 mtimeNsec,
      .u64 ctimeSec, .u64 ctimeNsec, .u64 btimeSec, .u64 btimeNsec, .u64 gen, .u64 dataVersion]
  | .tsetattr fid valid mode uid gid size atimeSec atimeNsec mtimeSec mtimeNsec =>
    [.u32 fid, .u32 valid, .u32 mode, .u32 uid, .u32 gid, .u64 size, .u64 atimeSec,
      .u64 atimeNsec, .u64 mtimeSec, .u64 mtimeNsec]
  | .rsetattr => []
  | .txattrwalk fid newfid name => [.u32 fid, .u32 newfid, .str name]
  | .treaddir fid offset count => [.u32 fid, .u64 offset, .u32 count]
  | .rreaddir data => [.data data]
  | .tfsync fid datasync => [.u32 fid, .u32 datasync]
  | .rfsync => []
  | .tlock fid locktype flags start length procId clientId =>
    [.u32 fid, .u8 locktype, .u32 flags, .u64 start, .u64 length, .u32 procId, .str clientId]
  | .rlock status => [.u8 status]
  | .tgetlock fid locktype start length procId clientId =>
    [.u32 fid, .u8 locktype, .u64 start, .u64 length, .u32 procId, .str clientId]
  | .rgetlock locktype start length procId clientId =>
    [.u8 locktype, .u64 start, .u64 length, .u32 procId, .str clientId]
  | .tmkdir dfid name mode gid => [.u32 dfid, .str name, .u32 mode, .u32 gid]
  | .rmkdir qid => [.qid qid]
  | .trenameat olddirfid oldname newdirfid newname =>
    [.u32 olddirfid, .str oldname, .u32 newdirfid, .str newname]
  | .rrenameat => []
  | .tunlinkat dirfid name flags => [.u32 dirfid, .str name, .u32 flags]
  | .runlinkat => []
  | .tflush oldtag => [.u16 oldtag]
  | .rflush => []
  | .twalk fid newfid wnames => [.u32 fid, .u32 newfid, .wnames wnames]
  | .rwalk qids => [.qids qids]
  | .tread fid offset count => [.u32 fid, .u64 offset, .u32 count]
  | .rread data => [.data data]
  | .twrite fid offset data => [.u32 fid, .u64 offset, .data data]
  | .rwrite count => [.u32 count]
  | .tclunk fid => [.u32 fid]
  | .rclunk => []
  | .tremove fid => [.u32 fid]
  | .rremove => []

/-- The fields `decode` reads for each type, in the order it reads them. -/
def decodeBody : P9 → Reader Body
  | .tversion => return .tversion (← Read.u32) (← Read.str)
  | .rversion => return .rversion (← Read.u32) (← Read.str)
  | .tauth => return .tauth (← Read.u32) (← Read.str) (← Read.str) (← Read.u32)
  | .rauth => return .rauth (← Read.qid)
  | .tattach => return .tattach (← Read.u32) (← Read.u32) (← Read.str) (← Read.str) (← Read.u32)
  | .rattach => return .rattach (← Read.qid)
  | .rlerror => return .rlerror (← Read.u32)
  | .tstatfs => return .tstatfs (← Read.u32)
  | .rstatfs => do
    return .rstatfs (← Read.u32) (← Read.u32) (← Read.u64) (← Read.u64) (← Read.u64) (← Read.u64)
      (← Read.u64) (← Read.u64) (← Read.u32)
  | .tlopen => return .tlopen (← Read.u32) (← Read.u32)
  | .rlopen => return .rlopen (← Read.qid) (← Read.u32)
  | .tlcreate => return .tlcreate (← Read.u32) (← Read.str) (← Read.u32) (← Read.u32) (← Read.u32)
  | .rlcreate => return .rlcreate (← Read.qid) (← Read.u32)
  | .tsymlink => return .tsymlink (← Read.u32) (← Read.str) (← Read.str) (← Read.u32)
  | .rsymlink => return .rsymlink (← Read.qid)
  | .tmknod => do
    return .tmknod (← Read.u32) (← Read.str) (← Read.u32) (← Read.u32) (← Read.u32) (← Read.u32)
  | .rmknod => return .rmknod (← Read.qid)
  | .trename => return .trename (← Read.u32) (← Read.u32) (← Read.str)
  | .rrename => pure .rrename
  | .treadlink => return .treadlink (← Read.u32)
  | .rreadlink => return .rreadlink (← Read.str)
  | .tgetattr => return .tgetattr (← Read.u32) (← Read.u64)
  | .rgetattr => do
    return .rgetattr (← Read.u64) (← Read.qid) (← Read.u32) (← Read.u32) (← Read.u32) (← Read.u64)
      (← Read.u64) (← Read.u64) (← Read.u64) (← Read.u64) (← Read.u64) (← Read.u64) (← Read.u64)
      (← Read.u64) (← Read.u64) (← Read.u64) (← Read.u64) (← Read.u64) (← Read.u64) (← Read.u64)
  | .tsetattr => do
    return .tsetattr (← Read.u32) (← Read.u32) (← Read.u32) (← Read.u32) (← Read.u32) (← Read.u64)
      (← Read.u64) (← Read.u64) (← Read.u64) (← Read.u64)
  | .rsetattr => pure .rsetattr
  | .txattrwalk => return .txattrwalk (← Read.u32) (← Read.u32) (← Read.str)
  | .treaddir => return .treaddir (← Read.u32) (← Read.u64) (← Read.u32)
  | .rreaddir => return .rreaddir (← Read.data)
  | .tfsync => return .tfsync (← Read.u32) (← Read.u32)
  | .rfsync => pure .rfsync
  | .tlock => do
    return .tlock (← Read.u32) (← Read.u8) (← Read.u32) (← Read.u64) (← Read.u64) (← Read.u32)
      (← Read.str)
  | .rlock => return .rlock (← Read.u8)
  | .tgetlock => do
    return .tgetlock (← Read.u32) (← Read.u8) (← Read.u64) (← Read.u64) (← Read.u32) (← Read.str)
  | .rgetlock => return .rgetlock (← Read.u8) (← Read.u64) (← Read.u64) (← Read.u32) (← Read.str)
  | .tmkdir => return .tmkdir (← Read.u32) (← Read.str) (← Read.u32) (← Read.u32)
  | .rmkdir => return .rmkdir (← Read.qid)
  | .trenameat => return .trenameat (← Read.u32) (← Read.str) (← Read.u32) (← Read.str)
  | .rrenameat => pure .rrenameat
  | .tunlinkat => return .tunlinkat (← Read.u32) (← Read.str) (← Read.u32)
  | .runlinkat => pure .runlinkat
  | .tflush => return .tflush (← Read.u16)
  | .rflush => pure .rflush
  | .twalk => return .twalk (← Read.u32) (← Read.u32) (← Read.wnames)
  | .rwalk => return .rwalk (← Read.qids)
  | .tread => return .tread (← Read.u32) (← Read.u64) (← Read.u32)
  | .rread => return .rread (← Read.data)
  | .twrite => return .twrite (← Read.u32) (← Read.u64) (← Read.data)
  | .rwrite => return .rwrite (← Read.u32)
  | .tclunk => return .tclunk (← Read.u32)
  | .rclunk => pure .rclunk
  | .tremove => return .tremove (← Read.u32)
  | .rremove => pure .rremove
  | .rxattrwalk => failure

/-- `encode`: header with a size placeholder, the fields, then the size patched in. -/
def encode (m : P9Message) : List UInt8 :=
  let w := Write.u32 0 ++ (Write.u8 m.body.type.code ++
    (Write.u16 (m.tag.getD 0) ++ m.body.fields.flatMap Field.write))
  Write.patchU32 w 0 w.length

def decodeReader : Reader P9Message := do
  let _ ← Read.u32
  let type ← Read.u8
  let tag ← Read.u16
  match P9.ofCode type with
  | none => failure
  | some t => return ⟨some tag, ← decodeBody t⟩

/-- `decode`: bytes after the last field are not looked at. -/
def decode (input : List UInt8) : Option P9Message := (decodeReader input).map Prod.fst

end NixWasm.NinepCodec
