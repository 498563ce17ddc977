import NixWasm.Bytes
import Mathlib.Data.Finset.Basic
import Mathlib.Logic.Function.Basic

/-!
The host-to-guest half of the virtio-wl device of virtio/wl-device.ts: the messages the
host queues for the guest and their delivery over the in-queue. The in-queue is seen as
the writable buffers the guest has made available, in order, each known by its capacity.
A flush answers what it put into them.
-/
namespace NixWasm.WlDevice

open Bytes

def cmdVfdNew : ℕ := 0x100
def cmdVfdRecv : ℕ := 0x103
def cmdVfdHup : ℕ := 0x106
def vfdWrite : ℕ := 0x1
def vfdRead : ℕ := 0x2
def vfdFill : ℕ := 0x1000
def vfdHostIdBit : ℕ := 0x40000000
def vfdHostPipeBit : ℕ := 0x20000000
def sendHdrSize : ℕ := 16

/-- The driver fills the in-queue with buffers of one page. -/
def pageSize : ℕ := 4096

def maxFillChunk : ℕ := 4096 - sendHdrSize

/-- One fd payload from the server to the client: shm bytes or a host pipe. -/
inductive WlFd where
  | bytes (payload : List UInt8)
  | pipe (n : ℕ)
deriving DecidableEq

/-- A message waiting for a free in-buffer. -/
inductive WlPendingIn where
  | bytes (vfdId : ℕ) (data : List UInt8)
  | raw (msg : List UInt8)
deriving DecidableEq

/-- A used in-buffer: its capacity, the message meant for it and what was written. -/
structure Delivery where
  capacity : ℕ
  message : List UInt8
  written : List UInt8
deriving DecidableEq

structure Wl where
  nextHostVfdId : ℕ
  guestPipes : Finset ℕ
  pendingIn : List WlPendingIn
  /-- Capacities of the available in-buffers; `none` before the queue is set up. -/
  vringIn : Option (List ℕ)
deriving DecidableEq

/-- The device the constructor builds. -/
def Wl.new : Wl := ⟨1, ∅, [], none⟩

/-- The subarrays of `data` from `off` on, each of at most `maxFillChunk` bytes. -/
def chunksFrom (data : List UInt8) : ℕ → ℕ → List (List UInt8)
  | 0, _ => []
  | fuel + 1, off =>
    if off < data.length then
      (data.drop off).take maxFillChunk :: chunksFrom data fuel (off + maxFillChunk)
    else []

/-- A round takes a byte at least, so the length is fuel enough. -/
def chunks (data : List UInt8) : List (List UInt8) := chunksFrom data data.length 0

/-- A VFD_RECV: type, flags, vfd id, no fds, and the bytes. -/
def vfdRecvMsg (vfdId : ℕ) (data : List UInt8) : List UInt8 :=
  leBytes 4 cmdVfdRecv ++ leBytes 4 0 ++ leBytes 4 vfdId ++ leBytes 4 0 ++ data

/-- A VFD_RECV with trailing vfd ids before its bytes. -/
def vfdRecvWithFds (ctxVfdId : ℕ) (data : List UInt8) (ids : List ℕ) : List UInt8 :=
  leBytes 4 cmdVfdRecv ++ leBytes 4 0 ++ leBytes 4 ctxVfdId ++ leBytes 4 ids.length ++
    ids.flatMap (leBytes 4) ++ data

/-- A VFD_NEW from the host to the guest, up to the union of the structure. -/
def vfdNewHost (id size flags : ℕ) : List UInt8 :=
  leBytes 4 cmdVfdNew ++ leBytes 4 0 ++ leBytes 4 id ++ leBytes 4 flags ++ leBytes 8 0 ++
    leBytes 4 size ++ leBytes 4 0

/-- A VFD_HUP of 12 bytes. -/
def vfdHup (id : ℕ) : List UInt8 := leBytes 4 cmdVfdHup ++ leBytes 4 0 ++ leBytes 4 id

/-- The id of the `n`-th file from the host. -/
def hostVfdId (n : ℕ) : ℕ := vfdHostIdBit ||| (n &&& (vfdHostPipeBit - 1))

/-- The id of host pipe `n`. -/
def hostPipeId (n : ℕ) : ℕ := vfdHostIdBit ||| vfdHostPipeBit ||| (n &&& (vfdHostPipeBit - 1))

/-- The messages that announce and fill the fds, the ids, and the next host id. -/
def announceFds : ℕ → List WlFd → List (List UInt8) × List ℕ × ℕ
  | next, [] => ([], [], next)
  | next, .pipe n :: rest =>
    let (msgs, ids, last) := announceFds next rest
    (vfdNewHost (hostPipeId n) 0 vfdWrite :: msgs, hostPipeId n :: ids, last)
  | next, .bytes payload :: rest =>
    let id := hostVfdId next
    let (msgs, ids, last) := announceFds (next + 1) rest
    (vfdNewHost id payload.length (vfdRead ||| vfdFill) ::
      ((chunks payload).map (vfdRecvMsg id) ++ msgs), id :: ids, last)

/-- The control messages of a reply with fds, the RECV that names them last. -/
def buildFdDelivery (next ctxVfdId : ℕ) (data : List UInt8) (fds : List WlFd) :
    List (List UInt8) × ℕ :=
  let (msgs, ids, last) := announceFds next fds
  (msgs ++ [vfdRecvWithFds ctxVfdId data ids], last)

/-- The vfd a RECV or HUP addresses. -/
def rawVfdId (msg : List UInt8) : Option ℕ :=
  let type := leValue (msg.take 4)
  if type = cmdVfdRecv ∨ type = cmdVfdHup then some (leValue ((msg.drop 8).take 4)) else none

namespace WlPendingIn

/-- The message that goes into the in-buffer. -/
def message : WlPendingIn → List UInt8
  | .bytes vfdId data => vfdRecvMsg vfdId data
  | .raw msg => msg

def addresses (id : ℕ) : WlPendingIn → Prop
  | .bytes vfdId _ => vfdId = id
  | .raw msg => rawVfdId msg = some id

instance (id : ℕ) : DecidablePred (addresses id)
  | .bytes vfdId _ => inferInstanceAs (Decidable (vfdId = id))
  | .raw msg => inferInstanceAs (Decidable (rawVfdId msg = some id))

end WlPendingIn

/-- `_queueIn`: what is pushed for the bytes of one vfd. -/
def inEntries (vfdId : ℕ) (data : List UInt8) : List WlPendingIn :=
  if maxFillChunk < data.length then (chunks data).map (.bytes vfdId) else [.bytes vfdId data]

/-- `writeIn`: the part of a message that a buffer takes. -/
def writeIn (capacity : ℕ) (msg : List UInt8) : List UInt8 := msg.take capacity

/-- The loop of _flushPendingIn: entries left, buffers left and buffers used. -/
def flushLoop : List WlPendingIn → List ℕ → List WlPendingIn × List ℕ × List Delivery
  | [], avail => ([], avail, [])
  | entry :: rest, [] => (entry :: rest, [], [])
  | entry :: rest, capacity :: avail =>
    let msg := entry.message
    let (left, free, used) := flushLoop rest avail
    (left, free, ⟨capacity, msg, writeIn capacity msg⟩ :: used)

namespace Wl

def flushPendingIn (w : Wl) : Wl × List Delivery :=
  match w.vringIn with
  | none => (w, [])
  | some avail =>
    let (left, free, used) := flushLoop w.pendingIn avail
    ({ w with pendingIn := left, vringIn := some free }, used)

def queueIn (vfdId : ℕ) (data : List UInt8) (w : Wl) : Wl :=
  { w with pendingIn := w.pendingIn ++ inEntries vfdId data }

def queueRaw (msg : List UInt8) (w : Wl) : Wl :=
  { w with pendingIn := w.pendingIn ++ [.raw msg] }

/-- Queue a message to a client, with the fds that go with it. -/
def queueInjection (clientId : ℕ) (data : List UInt8) (fds : List WlFd) (w : Wl) : Wl :=
  let id := clientId % 2 ^ 32
  match fds with
  | [] => w.queueIn id data
  | _ :: _ =>
    let (msgs, last) := buildFdDelivery w.nextHostVfdId id data fds
    { msgs.foldl (fun w msg => w.queueRaw msg) w with nextHostVfdId := last }

def injectIn (clientId : ℕ) (data : List UInt8) (fds : List WlFd) (w : Wl) :
    Wl × List Delivery :=
  (w.queueInjection clientId data fds).flushPendingIn

/-- Write into a pipe of the guest; a pipe that is not open takes nothing. -/
def pipeWrite (vfdId : ℕ) (data : List UInt8) (w : Wl) : Wl × List Delivery :=
  let id := vfdId % 2 ^ 32
  if id ∈ w.guestPipes then
    (if data = [] then w else w.queueIn id data).flushPendingIn
  else (w, [])

/-- A guest pipe opened or closed; on close, what waits for it is dropped. -/
def guestPipe (vfdId : ℕ) (opened : Bool) (w : Wl) : Wl :=
  let id := vfdId % 2 ^ 32
  if opened then { w with guestPipes := insert id w.guestPipes }
  else
    { w with
      guestPipes := w.guestPipes.erase id
      pendingIn := w.pendingIn.filter fun entry => ¬entry.addresses id }

/-- Hang up a pipe of the guest. -/
def pipeClose (vfdId : ℕ) (w : Wl) : Wl × List Delivery :=
  let id := vfdId % 2 ^ 32
  if id ∈ w.guestPipes then
    ({ w with guestPipes := w.guestPipes.erase id }.queueRaw (vfdHup id)).flushPendingIn
  else (w, [])

/-- The guest makes `n` more buffers of a page available; the first time sets the queue up. -/
def refill (n : ℕ) (w : Wl) : Wl :=
  { w with vringIn := some (w.vringIn.getD [] ++ List.replicate n pageSize) }

end Wl

end NixWasm.WlDevice
