import NixWasm.TrayHostFrames

/-!
The notification server of the guest's session bus. Five kinds of events act on one table:
calls of applications, timers, owners that leave the bus, and the host's frames. GLib's
arrays are lists, its timers are the pending sources with the id that each was created with.
What the server emits on the bus is recorded in order; what it tells the host, if one is
connected, changes nothing of its own and is left out.
-/
namespace NixWasm.NoticeServer

structure Notice where
  id : BitVec 32
  owner : String
  title : List UInt8
  body : List UInt8
  actions : List (List UInt8 × List UInt8)
  urgency : UInt8
  timeout : ℤ
  timer : ℕ
deriving DecidableEq

structure NoticeRate where
  startUs : ℤ
  count : ℕ

inductive Signal
  | notificationClosed (id : BitVec 32) (reason : ℕ)
  | actionInvoked (id : BitVec 32) (key : List UInt8)
deriving DecidableEq

structure Server where
  notices : List Notice
  noticeRates : String → Option NoticeRate
  nextNoticeId : BitVec 32
  sources : List (ℕ × BitVec 32)
  signals : List Signal

/-- What the server uses of GLib: the check of a text, and the id of a new source, which is
nonzero and not that of a pending one. -/
structure Glib where
  utf8Validate : List UInt8 → Bool
  timeoutAdd : Server → ℕ
  timeoutAdd_ne_zero : ∀ server, timeoutAdd server ≠ 0
  timeoutAdd_fresh : ∀ server, timeoutAdd server ∉ server.sources.map Prod.fst

/-- Texts are all accepted, and a new source gets a number above those of the pending ones. -/
instance : Inhabited Glib where
  default :=
    { utf8Validate := fun _ => true
      timeoutAdd := fun server => (server.sources.map Prod.fst).sum + 1
      timeoutAdd_ne_zero := fun _ => Nat.succ_ne_zero _
      timeoutAdd_fresh := fun server hmem => by
        obtain ⟨before, after, hsplit⟩ := List.append_of_mem hmem
        have hsum := congrArg List.sum hsplit
        rw [List.sum_append, List.sum_cons] at hsum
        omega }

def maxNoticesPerOwnerWindow : ℕ := 20
def noticeRateWindowUs : ℤ := 10 * 1000000

section Table

/-- `g_source_remove`, for a timer that may be 0. -/
def removeTimer (timer : ℕ) (sources : List (ℕ × BitVec 32)) : List (ℕ × BitVec 32) :=
  if timer ≠ 0 then sources.filter (fun source => source.1 ≠ timer) else sources

/-- The loop of `find_notice`, from index `i` on. -/
def findFrom (id : BitVec 32) : ℕ → List Notice → Option (ℕ × Notice)
  | _, [] => none
  | i, notice :: rest => if notice.id = id then some (i, notice) else findFrom id (i + 1) rest

/-- `find_notice`: the index and the notice. -/
def findNotice (notices : List Notice) (id : BitVec 32) : Option (ℕ × Notice) :=
  findFrom id 0 notices

/-- `close_notice`; removing the notice from the array frees it and its timer. -/
def closeNotice (server : Server) (index reason : ℕ) : Server :=
  match server.notices[index]? with
  | none => server
  | some notice =>
    { server with
      signals := server.signals ++ [.notificationClosed notice.id reason]
      notices := server.notices.eraseIdx index
      sources := removeTimer notice.timer server.sources }

/-- `notice_expired` for a source that is due, which is then removed. -/
def noticeExpired (server : Server) (source : ℕ) : Server :=
  match server.sources.find? (fun pending => pending.1 = source) with
  | none => server
  | some (_, id) =>
    let called :=
      match findNotice server.notices id with
      | none => server
      | some (index, notice) =>
        closeNotice { server with notices := server.notices.set index { notice with timer := 0 } }
          index 1
    { called with sources := called.sources.filter (fun pending => pending.1 ≠ source) }

/-- The loop of `name_owner_changed` over the notices before index `i`, from the end. -/
def closeOwned (name : String) : ℕ → Server → Server
  | 0, server => server
  | i + 1, server =>
    closeOwned name i
      (match server.notices[i]? with
        | none => server
        | some notice => if notice.owner = name then closeNotice server i 3 else server)

/-- `name_owner_changed`. -/
def nameOwnerChanged (server : Server) (name newOwner : String) : Server :=
  if newOwner ≠ "" then server
  else
    closeOwned name server.notices.length
      { server with noticeRates := Function.update server.noticeRates name none }

/-- The host's frames about notifications. -/
def hostFrame (server : Server) : TrayHost.Action → Server
  | .item _ _ _ _ => server
  | .menu _ _ _ => server
  | .noticeAction id key =>
    match findNotice server.notices (BitVec.ofNat 32 id) with
    | none => server
    | some (_, notice) =>
      if key ∈ notice.actions.map Prod.fst then
        { server with signals := server.signals ++ [.actionInvoked notice.id key] }
      else server
  | .noticeClose id reason =>
    match findNotice server.notices (BitVec.ofNat 32 id) with
    | none => server
    | some (index, _) => closeNotice server index reason.toNat

end Table

section Notify

/-- The arguments of `Notify` that are used; `urgency` is the hint, if it is given. -/
structure NotifyCall where
  replaces : BitVec 32
  title : List UInt8
  body : List UInt8
  actions : List (List UInt8)
  urgency : Option UInt8
  timeout : ℤ

inductive Reply
  | empty
  | id (id : BitVec 32)
  | error (name message : String)
deriving DecidableEq

def limitsExceeded (message : String) : Reply :=
  .error "org.freedesktop.DBus.Error.LimitsExceeded" message

/-- The notice to replace, which must be the sender's own. -/
def replacement (server : Server) (sender : String) (call : NotifyCall) : Option (ℕ × Notice) :=
  if call.replaces ≠ 0 then
    (findNotice server.notices call.replaces).filter (fun found => found.2.owner = sender)
  else none

def valid (g : Glib) (server : Server) (found : Option (ℕ × Notice)) (call : NotifyCall) : Bool :=
  call.title.length ≤ 256 && call.body.length ≤ 4096 && g.utf8Validate call.title &&
    g.utf8Validate call.body && call.actions.length ≤ 16 && call.actions.length % 2 = 0 &&
    (found.isSome || server.notices.length < 128) &&
    call.actions.all fun value => 0 < value.length && value.length ≤ 64

/-- The sender's rate, in a new window when the old one is over. -/
def currentRate (server : Server) (sender : String) (now : ℤ) : NoticeRate :=
  match server.noticeRates sender with
  | none => ⟨now, 0⟩
  | some rate => if noticeRateWindowUs ≤ now - rate.startUs then ⟨now, 0⟩ else rate

/-- The loop that takes the next id that is neither 0 nor in use: the id, and the one behind it. -/
def allocateId (notices : List Notice) : ℕ → BitVec 32 → Option (BitVec 32 × BitVec 32)
  | 0, _ => none
  | rounds + 1, next =>
    if next = 0 ∨ (findNotice notices next).isSome then allocateId notices rounds (next + 1)
    else some (next, next + 1)

/-- Keys and labels, in turn. -/
def pairs : List (List UInt8) → List (List UInt8 × List UInt8)
  | key :: label :: rest => (key, label) :: pairs rest
  | _ => []

/-- The content of the call, without a timer yet. -/
def filled (notice : Notice) (call : NotifyCall) : Notice :=
  let urgency := call.urgency.getD 1
  { notice with
    title := call.title
    body := call.body
    actions := pairs call.actions
    urgency := if 2 < urgency then 1 else urgency
    timeout := if call.timeout < 0 then 4500 else min call.timeout 86400000
    timer := 0 }

/-- The timer of a notice that has one, and the sources with it. -/
def withTimer (g : Glib) (server : Server) (notice : Notice) : Notice × List (ℕ × BitVec 32) :=
  if 0 < notice.timeout then
    ({ notice with timer := g.timeoutAdd server },
      server.sources ++ [(g.timeoutAdd server, notice.id)])
  else (notice, server.sources)

/-- The new content of the notice at an index. -/
def replaceNotice (g : Glib) (server : Server) (index : ℕ) (notice : Notice) (call : NotifyCall) :
    Server × Reply :=
  let server := { server with sources := removeTimer notice.timer server.sources }
  let timed := withTimer g server (filled notice call)
  ({ server with
      notices := server.notices.set index timed.1
      sources := timed.2 },
    .id timed.1.id)

/-- A new notice, unless the loop for its id finds none. -/
def addNotice (g : Glib) (server : Server) (sender : String) (call : NotifyCall) :
    Option (Server × Reply) :=
  match allocateId server.notices (server.notices.length + 2) server.nextNoticeId with
  | none => none
  | some (id, next) =>
    let timed := withTimer g server (filled ⟨id, sender, [], [], [], 0, 0, 0⟩ call)
    some ({ server with
        notices := server.notices ++ [timed.1]
        nextNoticeId := next
        sources := timed.2 },
      .id timed.1.id)

/-- `Notify` of `notice_method`. -/
def notify (g : Glib) (server : Server) (sender : String) (call : NotifyCall) (now : ℤ) :
    Option (Server × Reply) :=
  let found := replacement server sender call
  if !valid g server found call then
    some (server, limitsExceeded "Notification exceeds Yore limits")
  else
    let rate := currentRate server sender now
    if maxNoticesPerOwnerWindow ≤ rate.count then
      some ({ server with noticeRates := Function.update server.noticeRates sender (some rate) },
        limitsExceeded "Notification rate exceeded")
    else
      let server := { server with
        noticeRates := Function.update server.noticeRates sender
          (some ⟨rate.startUs, rate.count + 1⟩) }
      match found with
      | some (index, notice) => some (replaceNotice g server index notice call)
      | none => addNotice g server sender call

end Notify

/-- `CloseNotification` of `notice_method`. -/
def closeNotification (server : Server) (sender : String) (id : BitVec 32) : Server × Reply :=
  match findNotice server.notices id with
  | none => (server, .empty)
  | some (index, notice) =>
    if notice.owner = sender then (closeNotice server index 3, .empty) else (server, .empty)

inductive Event
  | notify (sender : String) (call : NotifyCall) (now : ℤ)
  | closeNotification (sender : String) (id : BitVec 32)
  | expired (source : ℕ)
  | nameOwnerChanged (name newOwner : String)
  | host (action : TrayHost.Action)

/-- One event; nothing when the handler does not return. -/
def step (g : Glib) (server : Server) : Event → Option (Server × Reply)
  | .notify sender call now => notify g server sender call now
  | .closeNotification sender id => some (closeNotification server sender id)
  | .expired source => some (noticeExpired server source, .empty)
  | .nameOwnerChanged name newOwner => some (nameOwnerChanged server name newOwner, .empty)
  | .host action => some (hostFrame server action, .empty)

def run (g : Glib) (server : Server) : List Event → Option Server
  | [] => some server
  | event :: events => (step g server event).bind fun done => run g done.1 events

/-- `next_notice_id` starts at 1. -/
def Server.start : Server := ⟨[], fun _ => none, 1, [], []⟩

end NixWasm.NoticeServer
