import NixWasm.JsMap
import NixWasm.VringChains

/-!
The virtio-vsock device of virtio/vsock-device.ts: the guest's packets on the tx
queue, the packets the host sends on the rx queue, and the connections between them
with their credit. Connection objects live in a heap, because a new connection request
may take the place of an old one in the table while the host still holds the old
object. A callback of the host is the list of calls it makes into the device. The logs have
no part in what the device does; every used buffer of the rx queue is logged with the memory
that the device left in it.
-/
namespace NixWasm.VsockDevice

open Bytes Effects Virtio

def vsockHdrLen : ℕ := 44
def vmaddrCidHost : ℕ := 2
def vsockGuestCid : ℕ := 3
def vqRx : ℕ := 0
def vqTx : ℕ := 1

def typeStream : ℕ := 1
def opRequest : ℕ := 1
def opResponse : ℕ := 2
def opRst : ℕ := 3
def opShutdown : ℕ := 4
def opRw : ℕ := 5
def opCreditUpdate : ℕ := 6
def opCreditRequest : ℕ := 7
def shutdownRcv : ℕ := 1
def shutdownSend : ℕ := 2
def hostBufAlloc : ℕ := 256 * 1024

/-- The fields of a packet header that the device reads. -/
structure Hdr where
  srcPort : ℕ
  dstPort : ℕ
  len : ℕ
  op : ℕ
  flags : ℕ
  bufAlloc : ℕ
  fwdCnt : ℕ

def decodeHdr (pkt : List UInt8) : Hdr :=
  let field (off n : ℕ) : ℕ := leValue ((pkt.drop off).take n)
  ⟨field 16 4, field 20 4, field 24 4, field 30 2, field 32 4, field 36 4, field 40 4⟩

/-- One half of a stream connection, as the host sees it. -/
structure VsockConnection where
  hostPort : ℕ
  guestPort : ℕ
  isOpen : Bool
  peerBufAlloc : ℕ
  peerFwdCnt : ℕ
  txCnt : ℕ
  rxFwdCnt : ℕ
  pendingTx : List (List UInt8)
  /-- Log of the bytes the host wrote. -/
  written : List UInt8

abbrev Ref := ℕ

/-- What is logged of the packets between the parties and of the calls of the host. A pair
is a host port and a guest port. -/
inductive Mark
  /-- A REQUEST of the guest or a `connect`, and whether the table held the pair already. -/
  | opening (pair : ℕ × ℕ) (taken : Bool)
  /-- A packet that went out on the rx queue. -/
  | sent (pair : ℕ × ℕ) (r : Option Ref) (op : ℕ)
  /-- A RST of the guest on a connection. -/
  | reset (pair : ℕ × ℕ)
  /-- An onData callback that returned, and whether it left its connection closed. -/
  | consumed (r : Ref) (closed : Bool)
  /-- An onData callback that threw. -/
  | threw (r : Ref)
  /-- A control packet that the protocol asks of the device. -/
  | due (pair : ℕ × ℕ) (r : Option Ref) (op : ℕ)
  /-- A control packet on its way out finds no buffer on the rx queue. -/
  | blocked (pair : ℕ × ℕ) (r : Option Ref) (op : ℕ)
deriving DecidableEq

/-- A used buffer of the rx queue, and the connection that sent the packet in it, as the
connection was then. -/
structure RxDelivery extends Delivery where
  sender : Option (Ref × VsockConnection)

structure Vsock where
  guestCid : ℕ
  listeners : List ℕ
  heap : Ref → VsockConnection
  fresh : Ref
  conns : JsMap (ℕ × ℕ) Ref
  nextHostPort : ℕ
  log : List Mark
  /-- Log of the used buffers of the rx queue. -/
  deliveries : List RxDelivery

namespace VsockConnection

def new (hostPort guestPort : ℕ) : VsockConnection :=
  ⟨hostPort % 2 ^ 32, guestPort % 2 ^ 32, true, 0, 0, 0, 0, [], []⟩

def key (c : VsockConnection) : ℕ × ℕ := (c.hostPort, c.guestPort)

/-- Bytes the guest will currently accept. -/
def creditAvailable (c : VsockConnection) : ℕ :=
  c.peerBufAlloc - (((c.txCnt : ℤ) - c.peerFwdCnt) % 2 ^ 32).toNat

end VsockConnection

def conn (r : Ref) : Js (Host Vsock) VsockConnection := return (← get).own.heap r

def modifyOwn (f : Vsock → Vsock) : Js (Host Vsock) Unit :=
  modify fun h => { h with own := f h.own }

def Vsock.setConn (v : Vsock) (r : Ref) (c : VsockConnection) : Vsock :=
  { v with heap := Function.update v.heap r c }

def modifyConn (r : Ref) (f : VsockConnection → VsockConnection) : Js (Host Vsock) Unit :=
  modifyOwn fun v => v.setConn r (f (v.heap r))

def Vsock.note (v : Vsock) (m : Mark) : Vsock := { v with log := v.log ++ [m] }

def note (m : Mark) : Js (Host Vsock) Unit := modifyOwn fun v => v.note m

def newConn (hostPort guestPort : ℕ) : Js (Host Vsock) Ref := do
  let r := (← get).own.fresh
  modifyOwn fun v => { v.setConn r (.new hostPort guestPort) with fresh := r + 1 }
  return r

/-- A virtio_vsock_hdr from the host to the guest, and the payload. -/
def packet (guestCid srcPort dstPort op flags fwdCnt : ℕ) (payload : List UInt8) : List UInt8 :=
  leBytes 8 vmaddrCidHost ++ leBytes 8 guestCid ++ leBytes 4 srcPort ++ leBytes 4 dstPort ++
    leBytes 4 payload.length ++ leBytes 2 typeStream ++ leBytes 2 op ++ leBytes 4 flags ++
    leBytes 4 hostBufAlloc ++ leBytes 4 fwdCnt ++ payload

/-- Log a used buffer of the rx queue. -/
def Vsock.deliver (v : Vsock) (d : RxDelivery) : Vsock :=
  { v with deliveries := v.deliveries ++ [d] }

/-- Push a packet onto the rx queue; false when no buffer takes it. -/
def pushRx (srcPort dstPort op : ℕ) (payload : List UInt8) (flags : ℕ) (r : Option Ref) :
    Js (Host Vsock) Bool := do
  match ← vring vqRx with
  | none => return false
  | some ring =>
    match ← next vqRx ring with
    | none => return false
    | some chain =>
      let own := (← get).own
      let fwdCnt := match r with
        | some r => (own.heap r).rxFwdCnt
        | none => 0
      let pkt := packet own.guestCid srcPort dstPort op flags fwdCnt payload
      if inCapacity chain < pkt.length then
        let memory := (← get).memory
        pushUsed vqRx ring chain.head 0
        modifyOwn fun v => v.deliver ⟨⟨chain.head, chain.in_, [], 0, memory⟩, none⟩
        return false
      else
        let written ← writeIn chain pkt
        let memory := (← get).memory
        pushUsed vqRx ring chain.head written
        let sender := r.map fun r => (r, own.heap r)
        modifyOwn fun v => (v.deliver ⟨⟨chain.head, chain.in_, pkt, written, memory⟩, sender⟩).note
          (.sent (srcPort, dstPort) r op)
        return true

/-- The rx queue has a buffer for a header, and the guest's memory holds what the queue
refers to. -/
def rxReady (h : Host Vsock) : Bool :=
  match h.queues vqRx with
  | none => false
  | some ring =>
    match next vqRx ring h with
    | .ok (some chain) _ =>
      decide (vsockHdrLen ≤ inCapacity chain ∧
        (∀ seg ∈ chain.in_, seg.addr + seg.len ≤ h.memory.length) ∧
        ring.used + 4 + 8 * ring.num ≤ h.memory.length)
    | _ => false

/-- Log a control packet that finds the rx queue without a buffer. -/
def noteBlocked (pair : ℕ × ℕ) (r : Option Ref) (op : ℕ) : Js (Host Vsock) Unit := do
  if rxReady (← get) then return () else note (.blocked pair r op)

/-- A control packet without payload. -/
def sendCtl (r : Ref) (op flags : ℕ) : Js (Host Vsock) Bool := do
  let c ← conn r
  noteBlocked c.key (some r) op
  pushRx c.hostPort c.guestPort op [] flags (some r)

/-- A bare RST, with no connection behind it. -/
def sendRst (hostPort guestPort : ℕ) : Js (Host Vsock) Bool := do
  noteBlocked (hostPort, guestPort) none opRst
  pushRx hostPort guestPort opRst [] 0 none

/-- Log that the protocol asks for a control packet on a connection. -/
def noteDue (r : Ref) (op : ℕ) : Js (Host Vsock) Unit := do
  note (.due (← conn r).key (some r) op)

/-- The loop of _flushConnection. -/
def flushLoop : ℕ → Ref → Js (Host Vsock) Unit
  | 0, _ => return ()
  | fuel + 1, r => do
    let c ← conn r
    match c.pendingTx with
    | [] => return ()
    | head :: rest =>
      let credit := c.creditAvailable
      if credit = 0 then return ()
      else
        let n := min head.length credit
        let ok ← pushRx c.hostPort c.guestPort opRw (head.take n) 0 (some r)
        if ok then
          modifyConn r fun c =>
            { c with
              txCnt := (c.txCnt + n) % 2 ^ 32
              pendingTx := if head.length ≤ n then rest else head.drop n :: rest }
          flushLoop fuel r
        else return ()

/-- A round either sends a whole buffer, or uses up the credit. -/
def flushConnection (r : Ref) : Js (Host Vsock) Unit := do
  let c ← conn r
  if c.isOpen then flushLoop (c.pendingTx.length + 2) r else return ()

def flushEach : List Ref → Js (Host Vsock) Unit
  | [] => return ()
  | r :: rest => do
    flushConnection r
    flushEach rest

def flushAll : Js (Host Vsock) Unit := do
  flushEach (← get).own.conns.values

def write (r : Ref) (bytes : List UInt8) : Js (Host Vsock) Bool := do
  let c ← conn r
  if c.isOpen then
    modifyConn r fun c =>
      { c with pendingTx := c.pendingTx ++ [bytes], written := c.written ++ bytes }
    flushConnection r
    return true
  else return false

/-- Tear a connection down; `onClose` is the host's callback, whose throw is logged. -/
def closeConnection (r : Ref) (sendShutdown : Bool) (onClose : Js (Host Vsock) Unit) :
    Js (Host Vsock) Unit := do
  let c ← conn r
  if !c.isOpen && ((← get).own.conns.get c.key).isNone then return ()
  else
    if sendShutdown then
      let _ ← sendCtl r opShutdown (shutdownRcv ||| shutdownSend)
      noteDue r opRst
      let _ ← sendCtl r opRst 0
    modifyConn r fun c => { c with isOpen := false, pendingTx := [] }
    modifyOwn fun v => { v with conns := v.conns.delete c.key }
    tryCatch onClose fun _ => pure ()

def connect (guestPort : ℕ) : Js (Host Vsock) Ref := do
  let hostPort := (← get).own.nextHostPort
  modifyOwn fun v => { v with nextHostPort := hostPort + 1 }
  let r ← newConn hostPort guestPort
  let c ← conn r
  note (.opening c.key ((← get).own.conns.get c.key).isSome)
  modifyOwn fun v => { v with conns := v.conns.set c.key r }
  modifyConn r fun c => { c with peerBufAlloc := hostBufAlloc }
  noteDue r opRequest
  let _ ← sendCtl r opRequest 0
  return r

/-- A call of the host into the device; closing runs the host's onClose callback. -/
inductive Act
  | write (r : Ref) (bytes : List UInt8)
  | close (r : Ref) (onClose : List Act)
  | connect (guestPort : ℕ)
  | listen (port : ℕ)
  | unlisten (port : ℕ)

mutual

def perform : Act → Js (Host Vsock) Unit
  | .write r bytes => do
    let _ ← write r bytes
  | .close r onClose => do
    let c ← conn r
    if c.isOpen then closeConnection r true (performAll onClose)
  | .connect guestPort => do
    let _ ← connect guestPort
  | .listen port => modifyOwn fun v => { v with listeners := port % 2 ^ 32 :: v.listeners }
  | .unlisten port => modifyOwn fun v =>
    { v with listeners := v.listeners.filter (· ≠ port % 2 ^ 32) }

def performAll : List Act → Js (Host Vsock) Unit
  | [] => return ()
  | act :: rest => do
    perform act
    performAll rest

end

/-- What the host's callback does while a packet is handled. -/
structure Reaction where
  acts : List Act
  throws : Bool

def Reaction.run (reaction : Reaction) : Js (Host Vsock) Unit := do
  performAll reaction.acts
  if reaction.throws then throw (.error "callback")

/-- The guest's credit, as every packet of it carries. -/
def setCredit (r : Ref) (hdr : Hdr) : Js (Host Vsock) Unit :=
  modifyConn r fun c => { c with peerBufAlloc := hdr.bufAlloc, peerFwdCnt := hdr.fwdCnt }

def handleRequest (hdr : Hdr) (reaction : Reaction) : Js (Host Vsock) Unit := do
  let pair := (hdr.dstPort, hdr.srcPort)
  note (.opening pair ((← get).own.conns.get pair).isSome)
  if hdr.dstPort ∈ (← get).own.listeners then
    let r ← newConn hdr.dstPort hdr.srcPort
    setCredit r hdr
    modifyOwn fun v => { v with conns := v.conns.set (hdr.dstPort, hdr.srcPort) r }
    noteDue r opResponse
    let _ ← sendCtl r opResponse 0
    tryCatch reaction.run fun _ => pure ()
  else
    note (.due pair none opRst)
    let _ ← sendRst hdr.dstPort hdr.srcPort

/-- The onData callback; its throw is logged and goes on. -/
def deliver (r : Ref) (reaction : Reaction) : Js (Host Vsock) Unit := do
  tryCatch reaction.run fun e => do
    note (.threw r)
    throw e
  note (.consumed r !(← conn r).isOpen)

def handleRw (hdr : Hdr) (payload : List UInt8) (reaction : Reaction) (r : Ref) :
    Js (Host Vsock) Unit := do
  setCredit r hdr
  modifyConn r fun c => { c with rxFwdCnt := (c.rxFwdCnt + payload.length) % 2 ^ 32 }
  noteDue r opCreditUpdate
  deliver r reaction
  let _ ← sendCtl r opCreditUpdate 0
  flushConnection r

/-- Parse and dispatch one packet of the guest. -/
def handleTxPacket (pkt : List UInt8) (reaction : Reaction) : Js (Host Vsock) Unit := do
  if pkt.length < vsockHdrLen then return ()
  else
    let hdr := decodeHdr pkt
    let found := (← get).own.conns.get (hdr.dstPort, hdr.srcPort)
    if hdr.op = opRequest then handleRequest hdr reaction
    else
      match found with
      | none =>
        if hdr.op = opRw then
          note (.due (hdr.dstPort, hdr.srcPort) none opRst)
          let _ ← sendRst hdr.dstPort hdr.srcPort
      | some r =>
        if hdr.op = opResponse then
          setCredit r hdr
          modifyConn r fun c => { c with isOpen := true }
          flushConnection r
        else if hdr.op = opRw then
          handleRw hdr ((pkt.drop vsockHdrLen).take hdr.len) reaction r
        else if hdr.op = opCreditUpdate then
          setCredit r hdr
          flushConnection r
        else if hdr.op = opCreditRequest then
          noteDue r opCreditUpdate
          let _ ← sendCtl r opCreditUpdate 0
        else if hdr.op = opShutdown then
          if hdr.flags &&& (shutdownRcv ||| shutdownSend) = shutdownRcv ||| shutdownSend then
            closeConnection r true reaction.run
        else if hdr.op = opRst then
          note (.reset (hdr.dstPort, hdr.srcPort))
          closeConnection r false reaction.run

/-- One round of the tx drain; false when the guest exposed no other packet. -/
def serviceTx (reaction : Reaction) : Js (Host Vsock) Bool := do
  match ← vring vqTx with
  | none => return false
  | some ring =>
    match ← next vqTx ring with
    | none => return false
    | some chain =>
      let pkt ← readOut chain
      tryCatch (handleTxPacket pkt reaction) fun _ => pure ()
      pushUsed vqTx ring chain.head 0
      return true

end NixWasm.VsockDevice
