import Mathlib.Algebra.GroupWithZero.Nat
import NixWasm.Ownership
import NixWasm.JsMap

/-!
The kernel's cache of executable images. An image is a copy of a file that all processes
running the file share; it is kept in a list, the most recently used first, and counted by
references: one for the list and one for each process. The programs below are the kernel's
functions cut at their spinlock sections and their single atomic operations; every step
is labelled with what the call holds when it takes the step.
-/
namespace NixWasm.ExecImage

open Coroutines

/-- The backing inode of a file: device and inode number. -/
structure Key where
  sDev : ℕ
  iIno : ℕ
deriving DecidableEq, Repr

structure Timespec where
  tvSec : ℤ
  tvNsec : ℕ
deriving DecidableEq, Repr

/-- A file between two modifications. -/
structure Version where
  content : List ℕ
  mtime : Timespec
  iVersion : ℕ
deriving DecidableEq, Repr

/-- A file with all it has been, the latest first. The kernel sees the current version. -/
structure Inode where
  haveIVersion : Bool
  current : Version
  past : List Version

def Inode.write (inode : Inode) (version : Version) : Inode :=
  { inode with current := version, past := inode.current :: inode.past }

structure Image where
  refs : ℕ
  key : Key
  size : ℕ
  mtime : Timespec
  haveIVersion : Bool
  iVersion : ℕ
  buf : ℕ
  bytes : List ℕ
  bufSize : ℕ
deriving DecidableEq, Repr

/-- What a call of `wasm_exec_image_get` knows of its file. -/
structure Request where
  key : Key
  wholeSize : ℕ
  mtime : Timespec
  haveIVersion : Bool
  iVersion : ℕ
  head : List ℕ
deriving DecidableEq, Repr

/-- How `kernel_read` can go wrong for reasons outside the file. -/
inductive Fault where
  | errno (n : ℕ)
  | short
deriving DecidableEq, Repr

inductive Err where
  | enomem
  | eio
  | errno (n : ℕ)
deriving DecidableEq, Repr

/-- What the next call into the rest of the kernel meets: whether memory is found, whether
a read fails, whether the executable is rejected after its image was obtained. -/
structure Draw where
  memory : Bool
  read : Option Fault
  rejected : Bool
deriving DecidableEq, Repr

/-- The cache, the buffers that are allocated, the address spaces that hold an image with
the image, the images released and the images handed out by `wasm_exec_image_get`, the
latest first. -/
structure Kernel where
  images : JsMap ℕ Image
  lru : List ℕ
  loadMutex : Bool
  buffers : List ℕ
  mms : List (ℕ × ℕ)
  released : List ℕ
  obtained : List ℕ
  nextImage : ℕ
  nextBuffer : ℕ
  nextMm : ℕ
  inodes : Key → Inode
  chance : ℕ → Draw
  draws : ℕ

/-- What a call holds: a reference; an image taken off the list to be released, with the
reference of the list; an image whose last reference it dropped; a buffer; the mutex. -/
inductive Token where
  | ref (image : ℕ)
  | evicted (image : ℕ)
  | dropped (image : ℕ)
  | buffer (buf : ℕ)
  | loadMutex
deriving DecidableEq, Repr

/-- What the memory of evicted images is wanted for. -/
inductive Reason where
  | cap
  | allocation
  | shrinker
deriving DecidableEq, Repr

inductive Point where
  | head
  | size
  | mtime
  | iVersion
  | lookup
  | mutexLock
  | recheck
  | unhash
  | allocPages
  | kernelRead
  | freePages
  | kzalloc
  | insert
  | mutexUnlock
  | decAndTest
  | release
  | idleBytes
  | evictWalk (reason : Reason) (maxBytes : ℕ)
  | returned (image wholeSize : ℕ)
  | dupMmap
  | destroyContext
deriving DecidableEq, Repr

structure Label where
  point : Point
  holds : List Token
deriving DecidableEq, Repr

abbrev Program (α : Type) : Type := Task Kernel Empty Label α

/-! The sections. -/

def imageKeyMatches (img : Image) (key : Key) : Bool :=
  img.key.sDev = key.sDev ∧ img.key.iIno = key.iIno

def imageValidatorsMatch (img : Image) (req : Request) : Bool :=
  if img.size ≠ req.wholeSize then false
  else if img.mtime.tvSec ≠ req.mtime.tvSec ∨ img.mtime.tvNsec ≠ req.mtime.tvNsec then false
  else if req.haveIVersion ∧ img.haveIVersion ∧ img.iVersion ≠ req.iVersion then false
  else
    let cmpLen := min req.head.length img.bufSize
    img.bytes.take cmpLen = req.head.take cmpLen

/-- The image is one of the file, and its validators match. -/
def Kernel.hits (k : Kernel) (req : Request) (image : ℕ) : Bool :=
  match k.images.get image with
  | some img => imageKeyMatches img req.key && imageValidatorsMatch img req
  | none => false

def Kernel.keyed (k : Kernel) (key : Key) (image : ℕ) : Bool :=
  match k.images.get image with
  | some img => imageKeyMatches img key
  | none => false

def Kernel.idle (k : Kernel) (image : ℕ) : Bool :=
  match k.images.get image with
  | some img => img.refs = 1
  | none => false

def Kernel.bufSize (k : Kernel) (image : ℕ) : ℕ :=
  match k.images.get image with
  | some img => img.bufSize
  | none => 0

def refcountInc (image : ℕ) (k : Kernel) : Kernel :=
  match k.images.get image with
  | some img => { k with images := k.images.set image { img with refs := img.refs + 1 } }
  | none => k

def refcountDecAndTest (image : ℕ) (k : Kernel) : Bool × Kernel :=
  match k.images.get image with
  | some img =>
    (img.refs = 1, { k with images := k.images.set image { img with refs := img.refs - 1 } })
  | none => (false, k)

def wasmExecImageRelease (image : ℕ) (k : Kernel) : Kernel :=
  match k.images.get image with
  | some img =>
    { k with
      images := k.images.delete image
      buffers := k.buffers.erase img.buf
      released := image :: k.released }
  | none => { k with released := image :: k.released }

/-- The list is searched, and a hit is referenced and moved to the front. -/
def findAndRef (req : Request) (k : Kernel) : Option ℕ × Kernel :=
  match k.lru.find? (k.hits req) with
  | some image =>
    (some image, { refcountInc image k with
      lru := image :: k.lru.erase image
      obtained := image :: k.obtained })
  | none => (none, k)

/-- The first image of the file leaves the list, unless its validators match. -/
def unhashStale (req : Request) (k : Kernel) : Option ℕ × Kernel :=
  match k.lru.find? (k.keyed req.key) with
  | some image =>
    if k.hits req image then (none, k)
    else (some image, { k with lru := k.lru.erase image })
  | none => (none, k)

/-- The walk from the end of the list: idle images are taken until they add up. -/
def takeIdle (k : Kernel) (maxBytes : ℕ) : List ℕ → ℕ → List ℕ
  | [], _ => []
  | image :: rest, evicted =>
    if maxBytes ≤ evicted then []
    else if k.idle image then image :: takeIdle k maxBytes rest (evicted + k.bufSize image)
    else takeIdle k maxBytes rest evicted

/-- The images taken off the list, as they stand in the list of the dead. -/
def evictWalk (maxBytes : ℕ) (k : Kernel) : List ℕ × Kernel :=
  let taken := takeIdle k maxBytes k.lru.reverse 0
  (taken.reverse, { k with lru := k.lru.filter fun image => image ∉ taken })

/-- The bytes of the idle images; the images lie side by side in one memory, so the sum
does not wrap. -/
def Kernel.idleTotal (k : Kernel) : ℕ := ((k.lru.filter k.idle).map k.bufSize).sum

def mutexLock (k : Kernel) : Unit × Kernel := ((), { k with loadMutex := true })

def mutexUnlock (k : Kernel) : Unit × Kernel := ((), { k with loadMutex := false })

def allocPagesExact (k : Kernel) : Option ℕ × Kernel :=
  if (k.chance k.draws).memory then
    (some k.nextBuffer, { k with
      buffers := k.nextBuffer :: k.buffers
      nextBuffer := k.nextBuffer + 1
      draws := k.draws + 1 })
  else (none, { k with draws := k.draws + 1 })

def freePagesExact (buf : ℕ) (k : Kernel) : Unit × Kernel :=
  ((), { k with buffers := k.buffers.erase buf })

def kernelRead (key : Key) (wholeSize : ℕ) (k : Kernel) : Except Err (List ℕ) × Kernel :=
  let bytes := (k.inodes key).current.content.take wholeSize
  (match (k.chance k.draws).read with
    | some (.errno n) => .error (.errno n)
    | some .short => .error .eio
    | none => if bytes.length = wholeSize then .ok bytes else .error .eio,
    { k with draws := k.draws + 1 })

def kzalloc (k : Kernel) : Bool × Kernel :=
  ((k.chance k.draws).memory, { k with draws := k.draws + 1 })

/-- The new image is filled in, with one reference for the list and one for the caller, and
put at the front of the list. -/
def insertImage (req : Request) (buf : ℕ) (bytes : List ℕ) (k : Kernel) : ℕ × Kernel :=
  (k.nextImage, { k with
    images := k.images.set k.nextImage
      ⟨2, req.key, req.wholeSize, req.mtime, req.haveIVersion, req.iVersion, buf, bytes,
        req.wholeSize⟩
    lru := k.nextImage :: k.lru
    obtained := k.nextImage :: k.obtained
    nextImage := k.nextImage + 1 })

/-- The first bytes of a file, filled up with zeros. -/
def bprmBuf (content : List ℕ) : List ℕ := (content ++ List.replicate 256 0).take 256

/-! The programs. The first argument of those that are called with something in hand is
what their callers hold. -/

def capBytes : ℕ := 160 * 1024 * 1024

def ulongMax : ℕ := 2 ^ 32 - 1

def releaseAll (outer : List Token) : List ℕ → Program Unit
  | [] => pure ()
  | image :: dead => do
    .act ⟨.release, (image :: dead).map .evicted ++ outer⟩ fun k =>
      ((), wasmExecImageRelease image k)
    releaseAll outer dead

def wasmExecImageEvictIdle (outer : List Token) (reason : Reason) (maxBytes : ℕ) :
    Program Unit := do
  let dead ← .act ⟨.evictWalk reason maxBytes, outer⟩ (evictWalk maxBytes)
  releaseAll outer dead

def wasmExecImageIdleBytes (outer : List Token) : Program ℕ :=
  .act ⟨.idleBytes, outer⟩ fun k => (k.idleTotal, k)

/-- The excess over the cap is evicted, after a put and after a load. -/
def enforceCap (outer : List Token) : Program Unit := do
  let idle ← wasmExecImageIdleBytes outer
  if idle > capBytes then wasmExecImageEvictIdle outer .cap (idle - capBytes) else pure ()

def wasmExecImagePut (outer : List Token) (image : ℕ) : Program Unit := do
  let zero ← .act ⟨.decAndTest, .ref image :: outer⟩ (refcountDecAndTest image)
  if zero then
    .act ⟨.release, .dropped image :: outer⟩ fun k => ((), wasmExecImageRelease image k)
  else enforceCap outer

def unhashStaleAndPut (outer : List Token) (req : Request) : Program Bool := do
  match ← .act ⟨.unhash, outer⟩ (unhashStale req) with
  | some image => do
    wasmExecImagePut outer image
    return true
  | none => return false

/-- The file is read into the buffer and the image put into the cache. -/
def loadImage (req : Request) (buf : ℕ) : Program (Except Err ℕ) := do
  match ← .act ⟨.kernelRead, [.loadMutex, .buffer buf]⟩ (kernelRead req.key req.wholeSize) with
  | .error e => do
    .act ⟨.freePages, [.loadMutex, .buffer buf]⟩ (freePagesExact buf)
    .act ⟨.mutexUnlock, [.loadMutex]⟩ mutexUnlock
    return .error e
  | .ok bytes => do
    if ← .act ⟨.kzalloc, [.loadMutex, .buffer buf]⟩ kzalloc then
      let image ← .act ⟨.insert, [.loadMutex, .buffer buf]⟩ (insertImage req buf bytes)
      .act ⟨.mutexUnlock, [.loadMutex, .ref image]⟩ mutexUnlock
      enforceCap [.ref image]
      return .ok image
    else
      .act ⟨.freePages, [.loadMutex, .buffer buf]⟩ (freePagesExact buf)
      .act ⟨.mutexUnlock, [.loadMutex]⟩ mutexUnlock
      return .error .enomem

/-- An allocation that fails evicts every idle image and is tried once more. -/
def allocOrEvict : Program (Option ℕ) := do
  match ← .act ⟨.allocPages, [.loadMutex]⟩ allocPagesExact with
  | some buf => return some buf
  | none => do
    wasmExecImageEvictIdle [.loadMutex] .allocation ulongMax
    .act ⟨.allocPages, [.loadMutex]⟩ allocPagesExact

/-- The rest of `wasm_exec_image_get` after the validators were sampled. -/
def lookupOrLoad (req : Request) : Program (Except Err ℕ) := do
  match ← .act ⟨.lookup, []⟩ (findAndRef req) with
  | some image => return .ok image
  | none => do
    .act ⟨.mutexLock, []⟩ mutexLock
    match ← .act ⟨.recheck, [.loadMutex]⟩ (findAndRef req) with
    | some image => do
      .act ⟨.mutexUnlock, [.loadMutex, .ref image]⟩ mutexUnlock
      return .ok image
    | none => do
      let _ ← unhashStaleAndPut [.loadMutex] req
      match ← allocOrEvict with
      | some buf => loadImage req buf
      | none => do
        .act ⟨.mutexUnlock, [.loadMutex]⟩ mutexUnlock
        return .error .enomem

def wasmExecImageGet (key : Key) (wholeSize : ℕ) (head : List ℕ) : Program (Except Err ℕ) := do
  let mtime ← .act ⟨.mtime, []⟩ fun k => ((k.inodes key).current.mtime, k)
  let (haveIVersion, iVersion) ← .act ⟨.iVersion, []⟩ fun k =>
    (((k.inodes key).haveIVersion,
      if (k.inodes key).haveIVersion then (k.inodes key).current.iVersion else 0), k)
  lookupOrLoad ⟨key, wholeSize, mtime, haveIVersion, iVersion, head⟩

/-- The image goes to a new address space, unless the executable is rejected. -/
def attach (image : ℕ) (k : Kernel) : Bool × Kernel :=
  if (k.chance k.draws).rejected then (true, { k with draws := k.draws + 1 })
  else (false, { k with
    mms := (k.nextMm, image) :: k.mms
    nextMm := k.nextMm + 1
    draws := k.draws + 1 })

/-- The part of an exec that concerns the image: the generic code reads the head of the
file, `load_wasm_file` its size, and the image goes to the new address space. -/
def loadWasmFile (key : Key) : Program Unit := do
  let head ← .act ⟨.head, []⟩ fun k => (bprmBuf (k.inodes key).current.content, k)
  let wholeSize ← .act ⟨.size, []⟩ fun k => ((k.inodes key).current.content.length, k)
  match ← wasmExecImageGet key wholeSize head with
  | .error _ => return ()
  | .ok image => do
    let rejected ← .act ⟨.returned image wholeSize, [.ref image]⟩ (attach image)
    if rejected then wasmExecImagePut [] image else pure ()

/-- The image of an address space, if it has one. -/
def Kernel.image (k : Kernel) (mm : ℕ) : Option ℕ :=
  (k.mms.find? fun entry => entry.1 = mm).map Prod.snd

/-- A fork: the child's address space holds the parent's image too. -/
def archDupMmap (oldmm : ℕ) : Program Unit :=
  .act ⟨.dupMmap, []⟩ fun k =>
    match k.image oldmm with
    | some image => ((), { refcountInc image k with
        mms := (k.nextMm, image) :: k.mms
        nextMm := k.nextMm + 1 })
    | none => ((), k)

/-- The end of an address space: its reference goes to the put. -/
def destroyContext (mm : ℕ) : Program Unit := do
  let image ← .act ⟨.destroyContext, []⟩ fun k =>
    (k.image mm, { k with mms := k.mms.eraseP fun entry => entry.1 = mm })
  match image with
  | some image => wasmExecImagePut [] image
  | none => return ()

/-- What the rest of the kernel calls. -/
inductive Call where
  | exec (key : Key)
  | fork (oldmm : ℕ)
  | exit (mm : ℕ)
  | shrinkCount
  | shrinkScan (maxBytes : ℕ)
deriving DecidableEq, Repr

def Call.program : Call → Program Unit
  | .exec key => loadWasmFile key
  | .fork oldmm => archDupMmap oldmm
  | .exit mm => destroyContext mm
  | .shrinkCount => do
    let _ ← wasmExecImageIdleBytes []
    return ()
  | .shrinkScan maxBytes => wasmExecImageEvictIdle [] .shrinker maxBytes

/-! Any number of calls in any interleaving, with modifications of the files between. -/

inductive Event (ι : Type) where
  | turn (i : ι)
  | modify (key : Key) (version : Version)

/-- A call that waits for the mutex goes on when the mutex is free. -/
def Enabled (label : Label) (k : Kernel) : Prop := label.point = .mutexLock → k.loadMutex = false

instance (label : Label) (k : Kernel) : Decidable (Enabled label k) := by
  unfold Enabled
  infer_instance

section System

variable {ι : Type} [DecidableEq ι]

abbrev System (ι : Type) : Type := Kernel × (ι → Program Unit)

def takeTurn (system : System ι) (i : ι) : System ι :=
  match (system.2 i).label with
  | some label => if Enabled label system.1 then turn system i else system
  | none => system

def writeFile (key : Key) (version : Version) (k : Kernel) : Kernel :=
  { k with inodes := Function.update k.inodes key ((k.inodes key).write version) }

def step (system : System ι) : Event ι → System ι
  | .turn i => takeTurn system i
  | .modify key version => (writeFile key version system.1, system.2)

end System

/-- The kernel before the first exec. -/
def Kernel.boot (inodes : Key → Inode) (chance : ℕ → Draw) : Kernel :=
  ⟨JsMap.empty, [], false, [], [], [], [], 0, 0, 0, inodes, chance, 0⟩

/-- Calls that have not begun. -/
def start {ι : Type} (inodes : Key → Inode) (chance : ℕ → Draw) (calls : ι → Call) : System ι :=
  (Kernel.boot inodes chance, fun i => (calls i).program)

end NixWasm.ExecImage
