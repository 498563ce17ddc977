import NixWasm.Bytes
import NixWasm.Effects

/-!
The playback device of virtio/snd-device.ts. The guest's buffers are seen as the chains of a
queue, in the order in which they were posted; a chain may be one that cannot be read or
written, as guest memory has it. The rings themselves are in that memory: taking and completing
a chain meet no bad address of their own. Time counts in frames at 48 kHz, 48 to the millisecond.
The buffers taken and completed and the control replies are logged.
-/
namespace NixWasm.SndDevice

open Bytes Effects

def rPcmInfo : ℕ := 0x0100
def rPcmSetParams : ℕ := 0x0101
def rPcmPrepare : ℕ := 0x0102
def rPcmRelease : ℕ := 0x0103
def rPcmStart : ℕ := 0x0104
def rPcmStop : ℕ := 0x0105
def rJackInfo : ℕ := 0x0001
def rChmapInfo : ℕ := 0x0200
def sOk : ℕ := 0x8000
def sBadMsg : ℕ := 0x8001
def sNotSupp : ℕ := 0x8002
def sIoErr : ℕ := 0x8003
def dOutput : ℕ := 0
def pcmFmtS16 : ℕ := 5
def pcmRate48000 : ℕ := 7
def hdrLen : ℕ := 4
def pcmInfoLen : ℕ := 32
def pcmXferLen : ℕ := 4
def streams : ℕ := 1
def theStream : ℕ := 0
def rateHz : ℕ := 48000
def channelsMin : ℕ := 1
def channelsMax : ℕ := 2
def vqControl : ℕ := 0
def vqTx : ℕ := 2

/-- A chain of a queue: what its readable part holds and what its writable part takes, each
`none` where it leaves the guest's memory. -/
structure Chain where
  head : ℕ
  out : Option (List UInt8)
  room : Option ℕ
deriving DecidableEq

structure SndStreamParams where
  streamId : ℕ
  bufferBytes : ℕ
  periodBytes : ℕ
  channels : ℕ
  format : ℕ
  rate : ℕ
  rateHz : ℕ
deriving DecidableEq

structure SndTxPending where
  chain : Chain
  frames : ℕ
  ok : Bool
  dueAt : ℕ
deriving DecidableEq

/-- The host's sink, by what its callbacks throw and what it has buffered. -/
structure SndSink where
  onParams : Option Thrown
  onStart : Option Thrown
  onStop : Option Thrown
  onRelease : Option Thrown
  bufferedBytes : Except Thrown ℕ

/-- A completed buffer, with the state of the stream at that moment and whether a release
completed it. -/
structure Done where
  chain : Chain
  status : ℕ
  latency : ℕ
  written : ℕ
  running : Bool
  released : Bool
deriving DecidableEq

/-- A control request, its response, and how many tx buffers were left then. -/
structure Reply where
  request : List UInt8
  response : List UInt8
  outstanding : ℕ
deriving DecidableEq

/-- The device with its two queues; `none` in a queue is a chain whose descriptors cannot be
read. -/
structure Snd where
  sink : Option SndSink
  params : Option SndStreamParams
  prepared : Bool
  running : Bool
  consumedBytes : ℕ
  txPending : List SndTxPending
  txTimer : Option ℕ
  playhead : ℕ
  controlRing : Option (List (Option Chain))
  txRing : Option (List (Option Chain))
  posted : List (Option Chain)
  popped : List Chain
  played : List (List UInt8)
  done : List Done
  replies : List Reply

def Snd.new : Snd :=
  ⟨none, none, false, false, 0, [], none, 0, none, none, [], [], [], [], []⟩

def corruptChain : Thrown := .error "[vring] descriptor chain too long (corrupt vring?)"

def outOfBounds : Thrown := .rangeError "Offset is outside the bounds of the DataView"

def readOut (chain : Chain) : Js Snd (List UInt8) :=
  match chain.out with
  | some bytes => return bytes
  | none => throw outOfBounds

def writeIn (chain : Chain) (bytes : List UInt8) : Js Snd ℕ :=
  match chain.room with
  | some capacity => return min capacity bytes.length
  | none => throw outOfBounds

/-- Take the next chain of the tx queue. -/
def nextTx : Js Snd (Option Chain) := do
  match (← get).txRing with
  | some (some chain :: rest) =>
    modify fun d => { d with txRing := some rest, popped := d.popped ++ [chain] }
    return some chain
  | some (none :: _) => throw corruptChain
  | _ => return none

def nextControl : Js Snd (Option Chain) := do
  match (← get).controlRing with
  | some (some chain :: rest) =>
    modify fun d => { d with controlRing := some rest }
    return some chain
  | some (none :: _) => throw corruptChain
  | _ => return none

/-- Call the sink, if there is one. -/
def callSink (callback : SndSink → Option Thrown) : Js Snd Unit := do
  match (← get).sink.bind callback with
  | some e => throw e
  | none => return ()

def bufferedBytes : Js Snd ℕ := do
  match (← get).sink.map SndSink.bufferedBytes with
  | some (.ok n) => return n % 2 ^ 32
  | some (.error e) => throw e
  | none => return 0

/-- Write the status of a buffer and push it used. -/
def completeTx (released : Bool) (pending : SndTxPending) : Js Snd Unit := do
  let status := if pending.ok then sOk else sBadMsg
  let latency ← bufferedBytes
  let written ← writeIn pending.chain (leBytes 4 status ++ leBytes 4 latency)
  modify fun d =>
    { d with done := d.done ++ [⟨pending.chain, status, latency, written, d.running, released⟩] }

/-- Complete what is due; a round takes one buffer off the queue. -/
def pumpLoop (now : ℕ) : ℕ → Js Snd Unit
  | 0 => return ()
  | fuel + 1 => do
    match (← get).txPending with
    | [] => return ()
    | head :: rest =>
      -- half a millisecond is 24 frames
      if now + 24 < head.dueAt then modify fun d => { d with txTimer := some head.dueAt }
      else
        modify fun d => { d with txPending := rest }
        completeTx false head
        pumpLoop now fuel

def pumpTx (now : ℕ) : Js Snd Unit := do
  let d ← get
  if d.txTimer.isSome ∨ d.txRing.isNone then return ()
  else pumpLoop now d.txPending.length

/-- The frames of a buffer that was read, and whether it was long enough. -/
def deliver (buf : List UInt8) : Js Snd (ℕ × Bool) := do
  if buf.length < pcmXferLen then return (0, false)
  else
    let d ← get
    let streamId := leValue (buf.take 4)
    let pcm := buf.drop pcmXferLen
    let bytesPerFrame := (d.params.elim channelsMax SndStreamParams.channels) * 2
    modify fun d => { d with consumedBytes := d.consumedBytes + pcm.length }
    -- what the sink's onPcm throws is caught
    if streamId = theStream ∧ d.sink.isSome ∧ d.params.isSome then
      modify fun d => { d with played := d.played ++ [pcm] }
    return (pcm.length / bytesPerFrame, true)

/-- Take what the guest has posted; a round takes one chain off the queue. -/
def serviceLoop (now : ℕ) : ℕ → Js Snd Unit
  | 0 => return ()
  | fuel + 1 => do
    match ← nextTx with
    | none => return ()
    | some chain =>
      let buf ← readOut chain
      let (frames, ok) ← deliver buf
      modify fun d =>
        let playhead := max d.playhead now + frames
        { d with playhead, txPending := d.txPending ++ [⟨chain, frames, ok, playhead⟩] }
      serviceLoop now fuel

def serviceTx (now : ℕ) : Js Snd Unit := do
  let d ← get
  match d.txRing with
  | none => return ()
  | some ring =>
    if d.running = false then return ()
    else
      serviceLoop now (ring.length + 1)
      pumpTx now

def pauseTx : Js Snd Unit := modify fun d => { d with txTimer := none }

/-- Complete the buffers taken, and then those still in the queue. -/
def releasePending : ℕ → Js Snd Unit
  | 0 => return ()
  | fuel + 1 => do
    match (← get).txPending with
    | [] => return ()
    | head :: rest =>
      modify fun d => { d with txPending := rest }
      completeTx true head
      releasePending fuel

def releaseRing : ℕ → Js Snd Unit
  | 0 => return ()
  | fuel + 1 => do
    match ← nextTx with
    | none => return ()
    | some chain =>
      completeTx true ⟨chain, 0, true, 0⟩
      releaseRing fuel

def completePendingTx : Js Snd Unit := do
  pauseTx
  let d ← get
  match d.txRing with
  | none => return ()
  | some ring =>
    releasePending d.txPending.length
    releaseRing (ring.length + 1)

def hdr (code : ℕ) : List UInt8 := leBytes 4 code

/-- The information about the one stream, padded to the size asked for. -/
def pcmInfo (size : ℕ) : List UInt8 :=
  leBytes 4 0 ++ leBytes 4 0 ++ leBytes 8 (2 ^ pcmFmtS16) ++ leBytes 8 (2 ^ pcmRate48000) ++
    leBytes 1 dOutput ++ leBytes 1 channelsMin ++ leBytes 1 channelsMax ++ leBytes (size - 27) 0

def handlePcmInfo (req : List UInt8) : List UInt8 :=
  if req.length < 16 then hdr sBadMsg
  else
    let startId := leValue ((req.drop 4).take 4)
    let count := leValue ((req.drop 8).take 4)
    let size := leValue ((req.drop 12).take 4)
    if streams < startId + count ∨ size < pcmInfoLen then hdr sBadMsg
    else hdr sOk ++ (List.replicate count (pcmInfo size)).flatten

def handleSetParams (req : List UInt8) : Js Snd (List UInt8) := do
  if req.length < 24 then return hdr sBadMsg
  else if leValue ((req.drop 4).take 4) ≠ theStream then return hdr sBadMsg
  else
    let channels := leValue ((req.drop 20).take 1)
    let format := leValue ((req.drop 21).take 1)
    let rate := leValue ((req.drop 22).take 1)
    if channels < channelsMin ∨ channelsMax < channels ∨ format ≠ pcmFmtS16 ∨
        rate ≠ pcmRate48000 then
      return hdr sNotSupp
    else
      let params : SndStreamParams :=
        ⟨theStream, leValue ((req.drop 8).take 4), leValue ((req.drop 12).take 4), channels, format,
          rate, rateHz⟩
      modify fun d => { d with params := some params }
      callSink SndSink.onParams
      return hdr sOk

def start (now : ℕ) : Js Snd Unit := do
  modify fun d => { d with running := true }
  callSink SndSink.onStart
  serviceTx now

def stop : Js Snd Unit := do
  modify fun d => { d with running := false }
  pauseTx
  callSink SndSink.onStop

def release : Js Snd Unit := do
  modify fun d => { d with prepared := false, running := false }
  completePendingTx
  callSink SndSink.onRelease

/-- A request that moves the stream. -/
def pcmCommand (now code : ℕ) : Js Snd Unit :=
  if code = rPcmPrepare then modify fun d => { d with prepared := true }
  else if code = rPcmStart then start now
  else if code = rPcmStop then stop
  else release

/-- One control request. -/
def handleControl (now : ℕ) (req : List UInt8) : Js Snd (List UInt8) := do
  let code := leValue (req.take 4)
  if req.length < hdrLen then return hdr sBadMsg
  else if code = rPcmInfo then return handlePcmInfo req
  else if code = rPcmSetParams then handleSetParams req
  else if code ∈ [rPcmPrepare, rPcmRelease, rPcmStart, rPcmStop] then
    if req.length < 8 then return hdr sBadMsg
    else if leValue ((req.drop 4).take 4) ≠ theStream then return hdr sBadMsg
    else
      pcmCommand now code
      return hdr sOk
  else if code = rJackInfo ∨ code = rChmapInfo then return hdr sBadMsg
  else return hdr sNotSupp

/-- Answer the control requests; a round takes one chain off the queue. -/
def controlLoop (now : ℕ) : ℕ → Js Snd Unit
  | 0 => return ()
  | fuel + 1 => do
    match ← nextControl with
    | none => return ()
    | some chain =>
      let req ← readOut chain
      let resp ← tryCatch (handleControl now req) fun _ => return hdr sIoErr
      let written ← writeIn chain resp
      modify fun d =>
        { d with replies := d.replies ++
          [⟨req, resp.take written, d.txPending.length + (d.txRing.getD []).length⟩] }
      controlLoop now fuel

def serviceControl (now : ℕ) : Js Snd Unit := do
  match (← get).controlRing with
  | none => return ()
  | some ring => controlLoop now (ring.length + 1)

/-- The driver posts chains and notifies; the timer and the host come in between. -/
inductive Event
  | setUp (q : ℕ)
  | postControl (chain : Option Chain)
  | postTx (chain : Option Chain)
  | notify (q now : ℕ)
  | timer (now : ℕ)
  | setSink (sink : Option SndSink)

def onNotify (q now : ℕ) : Js Snd Unit :=
  if q = vqControl then serviceControl now
  else if q = vqTx then serviceTx now
  else return ()

/-- The timer that `pumpTx` has set, if it is still set. -/
def onTimer (now : ℕ) : Js Snd Unit := do
  if (← get).txTimer.isSome then
    modify fun d => { d with txTimer := none }
    pumpTx now

def step (d : Snd) : Event → Snd
  | .setUp q =>
    if q = vqControl then { d with controlRing := some (d.controlRing.getD []) }
    else if q = vqTx then { d with txRing := some (d.txRing.getD []) }
    else d
  | .postControl chain => { d with controlRing := d.controlRing.map (· ++ [chain]) }
  | .postTx chain =>
    if d.txRing.isSome then
      { d with txRing := d.txRing.map (· ++ [chain]), posted := d.posted ++ [chain] }
    else d
  | .notify q now => final (onNotify q now d)
  | .timer now => final (onTimer now d)
  | .setSink sink => { d with sink }

end NixWasm.SndDevice
