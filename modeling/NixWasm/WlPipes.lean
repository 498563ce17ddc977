import NixWasm.WlDelivery

/-!
Pipes of the guest that come and go under the same ids. The worker that acknowledges the guest's
VFD_NEW or VFD_CLOSE only posts a report of it, which the device on the main thread handles
later. Each message that the device queues for a pipe is kept together with the incarnation of
the pipe that the device knew, as a parcel beside the entry that waits. Where the guest makes a
pipe only after all reports about its id were handled, what arrives is never meant for an
earlier pipe, and a pipe that stays gets all bytes written to it, and after them the one hang-up.
-/
namespace NixWasm.WlDevice

open Bytes Runs

/-- An entry that waits, and the pipe and incarnation that it was queued for. -/
structure Parcel where
  entry : WlPendingIn
  pipe : Option (ℕ × ℕ)
deriving DecidableEq

/-- A parcel in a used in-buffer, and the incarnation that its pipe's id then has. -/
structure Arrival where
  parcel : Parcel
  written : List UInt8
  incarnation : Option ℕ
deriving DecidableEq

/-- A `wayland_guest_pipe` message from a worker to the main thread. -/
structure Report where
  pipe : ℕ
  opened : Bool
deriving DecidableEq

/-- The guest opens or closes a pipe, the main thread handles the `n`-th report on its way, or
something happens at the device. -/
inductive Act where
  | guestOpens (vfdId : ℕ)
  | guestCloses (vfdId : ℕ)
  | report (n : ℕ)
  | device (e : Event)
deriving DecidableEq

/-- The device with the guest's pipes: how often each id was made a pipe and of how many of
those the device has heard, which pipes are there, what was written to those and which of them
were hung up. -/
structure Pipes where
  device : Wl
  reports : List Report
  parcels : List Parcel
  born : ℕ → ℕ
  heard : ℕ → ℕ
  alive : Finset ℕ
  written : ℕ → List UInt8
  hung : Finset ℕ
  arrived : List Arrival

namespace Pipes

def start : Pipes := ⟨.new, [], [], fun _ => 0, fun _ => 0, ∅, fun _ => [], ∅, []⟩

/-- The guest's kernel gives out ids that no pipe has, and only reports call `guestPipe`. -/
def Possible (s : Pipes) : Act → Prop
  | .guestOpens vfdId => vfdId % 2 ^ 32 ∉ s.alive
  | .guestCloses vfdId => vfdId % 2 ^ 32 ∈ s.alive
  | .report n => n < s.reports.length
  | .device (.guestPipe ..) => False
  | .device _ => True

instance (s : Pipes) : DecidablePred s.Possible
  | .guestOpens vfdId => inferInstanceAs (Decidable (vfdId % 2 ^ 32 ∉ s.alive))
  | .guestCloses vfdId => inferInstanceAs (Decidable (vfdId % 2 ^ 32 ∈ s.alive))
  | .report n => inferInstanceAs (Decidable (n < s.reports.length))
  | .device (.guestPipe ..) => isFalse fun h => h
  | .device (.injectIn ..) | .device (.pipeWrite ..) | .device (.pipeClose _)
  | .device (.refill _) | .device .flushIn => isTrue trivial

/-- A pipe is made when no report about its id is on its way, and the reports about one id are
handled in order. -/
def Prompt (s : Pipes) : Act → Prop
  | .guestOpens vfdId => ∀ r ∈ s.reports, r.pipe ≠ vfdId % 2 ^ 32
  | .report n => ∀ r ∈ s.reports[n]?, ∀ q ∈ s.reports.take n, q.pipe ≠ r.pipe
  | _ => True

instance (s : Pipes) : DecidablePred s.Prompt
  | .guestOpens vfdId => inferInstanceAs (Decidable (∀ r ∈ s.reports, r.pipe ≠ vfdId % 2 ^ 32))
  | .report n =>
    inferInstanceAs (Decidable (∀ r ∈ s.reports[n]?, ∀ q ∈ s.reports.take n, q.pipe ≠ r.pipe))
  | .guestCloses _ | .device _ => isTrue trivial

/-- The incarnation of the vfd with this id, when it is there. -/
def incarnation (s : Pipes) (id : ℕ) : Option ℕ := if id ∈ s.alive then some (s.born id) else none

/-- A pipe that is there and of which the host has been told. -/
def Known (s : Pipes) (id : ℕ) : Prop := id ∈ s.alive ∧ s.heard id = s.born id

instance (s : Pipes) : DecidablePred s.Known := fun _ => instDecidableAnd

/-- What waits after an event, before a flush. -/
def queued (s : Pipes) : Event → List Parcel
  | .injectIn clientId data fds =>
    s.parcels ++ ((s.device.queueInjection clientId data fds).pendingIn.drop
      s.device.pendingIn.length).map fun entry => ⟨entry, none⟩
  | .pipeWrite vfdId data =>
    if vfdId % 2 ^ 32 ∈ s.device.guestPipes ∧ data ≠ [] then
      s.parcels ++ (inEntries (vfdId % 2 ^ 32) data).map fun entry =>
        ⟨entry, some (vfdId % 2 ^ 32, s.heard (vfdId % 2 ^ 32))⟩
    else s.parcels
  | .pipeClose vfdId =>
    if vfdId % 2 ^ 32 ∈ s.device.guestPipes then
      s.parcels ++ [⟨.raw (vfdHup (vfdId % 2 ^ 32)),
        some (vfdId % 2 ^ 32, s.heard (vfdId % 2 ^ 32))⟩]
    else s.parcels
  | _ => s.parcels

/-- What was written to the guest's pipes, and which were hung up, after an event. -/
def track (s : Pipes) : Event → Pipes
  | .pipeWrite vfdId data =>
    let id := vfdId % 2 ^ 32
    if s.Known id ∧ id ∉ s.hung then
      { s with written := Function.update s.written id (s.written id ++ data) }
    else s
  | .pipeClose vfdId =>
    let id := vfdId % 2 ^ 32
    if s.Known id then { s with hung := insert id s.hung } else s
  | _ => s

def arrive (s : Pipes) (parcel : Parcel) (d : Delivery) : Arrival :=
  ⟨parcel, d.written, parcel.pipe.bind fun pipe => s.incarnation pipe.1⟩

/-- The guest makes a pipe, and the worker posts the report of it. -/
def opens (s : Pipes) (id : ℕ) : Pipes :=
  { s with
    reports := s.reports ++ [⟨id, true⟩]
    born := Function.update s.born id (s.born id + 1)
    alive := insert id s.alive
    written := Function.update s.written id []
    hung := s.hung.erase id }

def closes (s : Pipes) (id : ℕ) : Pipes :=
  { s with
    reports := s.reports ++ [⟨id, false⟩]
    alive := s.alive.erase id }

/-- The device hears of a pipe that was opened or closed. -/
def hears (s : Pipes) (r : Report) : Pipes :=
  { s with
    device := s.device.guestPipe r.pipe r.opened
    heard := if r.opened then Function.update s.heard (r.pipe % 2 ^ 32)
      (s.heard (r.pipe % 2 ^ 32) + 1) else s.heard
    parcels := if r.opened then s.parcels
      else s.parcels.filter fun parcel => ¬parcel.entry.addresses (r.pipe % 2 ^ 32) }

def handles (s : Pipes) (e : Event) : Pipes :=
  let (device, used) := s.device.react e
  let parcels := s.queued e
  let s := s.track e
  { s with
    device
    parcels := parcels.drop used.length
    arrived := s.arrived ++ List.zipWith s.arrive parcels used }

def step (s : Pipes) (act : Act) : Pipes :=
  if s.Possible act then
    match act with
    | .guestOpens vfdId => s.opens (vfdId % 2 ^ 32)
    | .guestCloses vfdId => s.closes (vfdId % 2 ^ 32)
    | .report n =>
      match s.reports[n]? with
      | some r => { s.hears r with reports := s.reports.eraseIdx n }
      | none => s
    | .device e => s.handles e
  else s

/-- What has arrived for a pipe that is there. -/
def arrivedAt (s : Pipes) (id : ℕ) : List (List UInt8) :=
  (s.arrived.filter fun a => a.parcel.pipe = some (id, s.born id)).map Arrival.written

/-- What waits for it. -/
def waitingFor (s : Pipes) (id : ℕ) : List (List UInt8) :=
  (s.parcels.filter fun p => p.pipe = some (id, s.born id)).map fun p => p.entry.message

/-- All that a pipe gets: its bytes in RECVs, and once it was hung up a HUP behind them. -/
def Due (s : Pipes) (id : ℕ) (messages : List (List UInt8)) : Prop :=
  ∃ pieces : List (List UInt8), pieces.flatten = s.written id ∧
    messages = pieces.map (vfdRecvMsg id) ++ if id ∈ s.hung then [vfdHup id] else []

end Pipes

theorem deliveries_of (entries : List WlPendingIn) (avail : List ℕ) :
    entries.drop avail.length = entries.drop (List.zipWith (fun entry capacity =>
        Delivery.mk capacity entry.message (writeIn capacity entry.message)) entries avail).length ∧
      List.Forall₂ (fun entry d => d.message = entry.message ∧
        d.written = writeIn d.capacity d.message)
        (entries.take (List.zipWith (fun entry capacity =>
          Delivery.mk capacity entry.message (writeIn capacity entry.message)) entries
            avail).length)
        (List.zipWith (fun entry capacity =>
          Delivery.mk capacity entry.message (writeIn capacity entry.message)) entries avail) := by
  induction entries generalizing avail with
  | nil => simp
  | cons entry rest ih =>
    cases avail with
    | nil => simp
    | cons capacity avail =>
      obtain ⟨hdrop, hused⟩ := ih avail
      exact ⟨by simpa using hdrop, by simpa using hused⟩

/-- What a flush leaves and what it puts into the buffers. -/
theorem flush_used (w : Wl) :
    w.flushPendingIn.1.pendingIn = w.pendingIn.drop w.flushPendingIn.2.length ∧
      List.Forall₂ (fun entry d => d.message = entry.message ∧
        d.written = writeIn d.capacity d.message)
        (w.pendingIn.take w.flushPendingIn.2.length) w.flushPendingIn.2 := by
  cases havail : w.vringIn with
  | none => simp [Wl.flushPendingIn, havail]
  | some avail =>
    rw [flushPendingIn_of_avail w avail havail]
    exact deliveries_of w.pendingIn avail

theorem react_used (w : Wl) (e : Event) :
    (w.react e).1.pendingIn = (w.queued e).pendingIn.drop (w.react e).2.length ∧
      List.Forall₂ (fun entry d => d.message = entry.message ∧
        d.written = writeIn d.capacity d.message)
        ((w.queued e).pendingIn.take (w.react e).2.length) (w.react e).2 := by
  rcases react_eq w e with he | he <;> rw [he]
  · exact flush_used _
  · simp

theorem flush_guestPipes (w : Wl) : w.flushPendingIn.1.guestPipes = w.guestPipes := by
  cases havail : w.vringIn with
  | none => simp [Wl.flushPendingIn, havail]
  | some avail => rw [flushPendingIn_of_avail w avail havail]

theorem react_guestPipes (w : Wl) (e : Event) :
    (w.react e).1.guestPipes = (w.queued e).guestPipes := by
  rcases react_eq w e with he | he <;> rw [he]
  exact flush_guestPipes _

namespace Pipes

/-- The reports about an id that are on their way. -/
def onWay (s : Pipes) (id : ℕ) : List Bool :=
  (s.reports.filter fun r => r.pipe = id).map Report.opened

/-- Nothing waits for a pipe with this id. -/
def NoneFor (s : Pipes) (id : ℕ) : Prop := ∀ p ∈ s.parcels, ∀ g, p.pipe ≠ some (id, g)

/-- How far the device is behind the guest with an id. -/
inductive Stage (s : Pipes) (id : ℕ) : Prop
  | settled (honWay : s.onWay id = [])
    (hopened : id ∈ s.device.guestPipes ↔ id ∈ s.alive ∧ id ∉ s.hung)
    (hheard : s.heard id = s.born id) (hwaits : id ∈ s.alive ∨ s.NoneFor id)
  | opening (honWay : s.onWay id = [true]) (halive : id ∈ s.alive)
    (hclosed : id ∉ s.device.guestPipes) (hhung : id ∉ s.hung)
    (hheard : s.heard id + 1 = s.born id) (hnone : s.NoneFor id)
  | closing (honWay : s.onWay id = [false]) (hgone : id ∉ s.alive)
    (hheard : s.heard id = s.born id)
  | passing (honWay : s.onWay id = [true, false]) (hgone : id ∉ s.alive)
    (hclosed : id ∉ s.device.guestPipes) (hheard : s.heard id + 1 = s.born id)
    (hnone : s.NoneFor id)

/-- What waits is what the device has, each message for the last pipe with its id; the device is
not more than one pipe behind. -/
structure Sound (s : Pipes) : Prop where
  paged : Paged s.device
  entries : s.parcels.map Parcel.entry = s.device.pendingIn
  small : ∀ r ∈ s.reports, r.pipe < 2 ^ 32
  current : ∀ parcel ∈ s.parcels, ∀ id g, parcel.pipe = some (id, g) →
    g = s.born id ∧ parcel.entry.addresses id ∧ parcel.entry.message.length ≤ pageSize
  stage : ∀ id, s.Stage id
  past : ∀ a ∈ s.arrived, ∀ id g, a.parcel.pipe = some (id, g) →
    g ≤ s.born id ∧ ∀ g', a.incarnation = some g' → g' = g
  due : ∀ id ∈ s.alive, s.Due id (s.arrivedAt id ++ s.waitingFor id)

theorem sound_start : Sound start := by
  refine ⟨World.balanced_start.paged, rfl, ?_, ?_, fun id => ?_, ?_, ?_⟩
  · simp [start]
  · simp [start]
  · refine .settled rfl ?_ rfl (Or.inr ?_)
    · simp [start, Wl.new]
    · simp [start, NoneFor]
  · simp [start]
  · simp [start]

/-- What the stage of an id is made of. -/
theorem Stage.congr {s t : Pipes} {id : ℕ} (h : s.Stage id) (honWay : t.onWay id = s.onWay id)
    (hguest : id ∈ t.device.guestPipes ↔ id ∈ s.device.guestPipes)
    (halive : id ∈ t.alive ↔ id ∈ s.alive) (hhung : id ∈ t.hung ↔ id ∈ s.hung)
    (hborn : t.born id = s.born id) (hheard : t.heard id = s.heard id)
    (hnone : id ∉ s.device.guestPipes → s.NoneFor id → t.NoneFor id) : t.Stage id := by
  cases h with
  | settled hway hopened hknown hwaits =>
    refine .settled (honWay.trans hway) ?_ (by rw [hheard, hborn, hknown]) ?_
    · rw [hguest, halive, hhung, hopened]
    · by_cases hal : id ∈ s.alive
      · exact Or.inl (halive.mpr hal)
      · exact Or.inr (hnone (fun hin => hal (hopened.mp hin).1) (hwaits.resolve_left hal))
  | opening hway hal hclosed hhu hknown hno =>
    exact .opening (honWay.trans hway) (halive.mpr hal) (fun hin => hclosed (hguest.mp hin))
      (fun hin => hhu (hhung.mp hin)) (by rw [hheard, hborn, hknown]) (hnone hclosed hno)
  | closing hway hgone hknown =>
    exact .closing (honWay.trans hway) (fun hin => hgone (halive.mp hin))
      (by rw [hheard, hborn, hknown])
  | passing hway hgone hclosed hknown hno =>
    exact .passing (honWay.trans hway) (fun hin => hgone (halive.mp hin))
      (fun hin => hclosed (hguest.mp hin)) (by rw [hheard, hborn, hknown]) (hnone hclosed hno)

/-- The device has a pipe only if it has heard of the last one. -/
theorem Stage.heard_of_guest {s : Pipes} {id : ℕ} (h : s.Stage id)
    (hopen : id ∈ s.device.guestPipes) : s.heard id = s.born id := by
  cases h with
  | settled _ _ hheard _ => exact hheard
  | opening _ _ hclosed _ _ _ => exact absurd hopen hclosed
  | closing _ _ hheard => exact hheard
  | passing _ _ hclosed _ _ => exact absurd hopen hclosed

/-- Of a pipe that the host knows the device knows whether it was hung up. -/
theorem Stage.opened_of_known {s : Pipes} {id : ℕ} (h : s.Stage id) (hknown : s.Known id) :
    id ∈ s.device.guestPipes ↔ id ∉ s.hung := by
  obtain ⟨halive, hheard⟩ := hknown
  cases h with
  | settled _ hopened _ _ => rw [hopened, and_iff_right halive]
  | opening _ _ _ _ hbehind _ => omega
  | closing _ hgone _ => exact absurd halive hgone
  | passing _ hgone _ _ _ => exact absurd halive hgone

/-- Parcels go into the buffers that a flush used. -/
def deliver (s : Pipes) (device : Wl) (used : List Delivery) : Pipes :=
  { s with
    device
    parcels := s.parcels.drop used.length
    arrived := s.arrived ++ List.zipWith s.arrive s.parcels used }

/-- An event before its flush. -/
def enqueue (s : Pipes) (e : Event) : Pipes :=
  { s.track e with
    device := s.device.queued e
    parcels := s.queued e }

theorem track_arrived (s : Pipes) (e : Event) : (s.track e).arrived = s.arrived := by
  cases e with
  | pipeWrite vfdId data =>
    rw [track]
    split_ifs <;> rfl
  | pipeClose vfdId =>
    rw [track]
    split_ifs <;> rfl
  | _ => rfl

theorem handles_eq (s : Pipes) (e : Event) :
    s.handles e = (s.enqueue e).deliver (s.device.react e).1 (s.device.react e).2 := by
  simp only [handles, deliver, enqueue, track_arrived]
  rfl

/-- The parcels of a pipe that a flush takes arrive as they waited. -/
theorem zipWith_arrive {s : Pipes} (pipe : ℕ × ℕ) {parcels : List Parcel} {used : List Delivery}
    (hused : List.Forall₂ (fun entry d => d.message = WlPendingIn.message entry ∧
      d.written = writeIn d.capacity d.message)
      ((parcels.map Parcel.entry).take used.length) used)
    (hcapacity : ∀ d ∈ used, d.capacity = pageSize)
    (hsmall : ∀ parcel ∈ parcels, parcel.pipe = some pipe →
      parcel.entry.message.length ≤ pageSize) :
    ((List.zipWith s.arrive parcels used).filter fun a => a.parcel.pipe = some pipe).map
        Arrival.written =
      ((parcels.take used.length).filter fun p => p.pipe = some pipe).map
        fun p => p.entry.message := by
  induction parcels generalizing used with
  | nil => simp
  | cons parcel parcels ih =>
    cases used with
    | nil => rfl
    | cons d used =>
      rw [List.map_cons, List.length_cons, List.take_succ_cons, List.forall₂_cons] at hused
      obtain ⟨⟨hmessage, hwritten⟩, hrest⟩ := hused
      have ih := ih hrest (fun d' hd => hcapacity d' (List.mem_cons_of_mem d hd))
        fun p hp => hsmall p (List.mem_cons_of_mem parcel hp)
      rw [List.zipWith_cons_cons, List.length_cons, List.take_succ_cons]
      by_cases hpipe : parcel.pipe = some pipe
      · have hwhole : d.written = parcel.entry.message := by
          rw [hwritten, hcapacity d List.mem_cons_self, hmessage]
          exact List.take_of_length_le (hsmall parcel List.mem_cons_self hpipe)
        have harrive : (s.arrive parcel d).parcel.pipe = some pipe := hpipe
        rw [List.filter_cons, List.filter_cons, if_pos (decide_eq_true harrive),
          if_pos (decide_eq_true hpipe), List.map_cons, List.map_cons, ih]
        exact congrArg (· :: _) hwhole
      · have harrive : ¬ (s.arrive parcel d).parcel.pipe = some pipe := hpipe
        rw [List.filter_cons, List.filter_cons, if_neg fun hd => harrive (of_decide_eq_true hd),
          if_neg fun hd => hpipe (of_decide_eq_true hd), ih]

theorem Sound.deliver {s : Pipes} (h : Sound s) {device : Wl} {used : List Delivery}
    (hpaged : Paged device) (hguest : device.guestPipes = s.device.guestPipes)
    (hleft : device.pendingIn = s.device.pendingIn.drop used.length)
    (hused : List.Forall₂ (fun entry d => d.message = WlPendingIn.message entry ∧
      d.written = writeIn d.capacity d.message) (s.device.pendingIn.take used.length) used)
    (hcapacity : ∀ d ∈ used, d.capacity = pageSize) : Sound (s.deliver device used) := by
  rw [← h.entries] at hleft hused
  refine ⟨hpaged, ?_, h.small, fun parcel hp => h.current parcel (List.mem_of_mem_drop hp),
    fun id => ?_, ?_, ?_⟩
  · change (s.parcels.drop used.length).map Parcel.entry = device.pendingIn
    rw [hleft, List.map_drop]
  · refine (h.stage id).congr rfl ?_ Iff.rfl Iff.rfl rfl rfl
      fun _ hnone p hp => hnone p (List.mem_of_mem_drop hp)
    change id ∈ device.guestPipes ↔ _
    rw [hguest]
  · intro a ha id g hpipe
    rcases List.mem_append.mp ha with ha | ha
    · exact h.past a ha id g hpipe
    · obtain ⟨n, hn, rfl⟩ := List.mem_iff_getElem.mp ha
      rw [List.getElem_zipWith] at hpipe ⊢
      have hlt : n < s.parcels.length := by
        simp at hn
        omega
      have hparcel : s.parcels[n] ∈ s.parcels := List.getElem_mem _
      obtain ⟨hg, -⟩ := h.current _ hparcel id g hpipe
      refine ⟨hg.le, fun g' hg' => ?_⟩
      change Option.bind _ _ = some g' at hg'
      rw [show s.parcels[n].pipe = some (id, g) from hpipe, Option.bind_some, incarnation] at hg'
      split_ifs at hg'
      exact (Option.some.inj hg').symm.trans hg.symm
  · intro id halive
    have hbalance : (s.deliver device used).arrivedAt id ++ (s.deliver device used).waitingFor id =
        s.arrivedAt id ++ s.waitingFor id := by
      have harrived : (s.deliver device used).arrivedAt id =
          s.arrivedAt id ++ ((s.parcels.take used.length).filter fun p =>
            p.pipe = some (id, s.born id)).map fun p => p.entry.message := by
        rw [← zipWith_arrive (s := s) _ hused hcapacity fun p hp hpipe =>
          (h.current p hp id _ hpipe).2.2, arrivedAt, arrivedAt, Pipes.deliver,
          List.filter_append, List.map_append]
      rw [harrived, List.append_assoc]
      congr 1
      rw [waitingFor, waitingFor, Pipes.deliver, ← List.map_append, ← List.filter_append,
        List.take_append_drop]
    rw [hbalance]
    exact h.due id halive

end Pipes

theorem addresses_unique {entry : WlPendingIn} {a b : ℕ} (ha : entry.addresses a)
    (hb : entry.addresses b) : a = b := by
  cases entry with
  | bytes vfdId data => exact Eq.trans (Eq.symm ha) hb
  | raw msg => exact Option.some.inj (Eq.trans (Eq.symm ha) hb)

theorem rawVfdId_vfdHup (id : ℕ) (hid : id < 2 ^ 32) : rawVfdId (vfdHup id) = some id := by
  have htype : leValue ((vfdHup id).take 4) = cmdVfdHup := by
    rw [vfdHup, List.append_assoc, List.take_left' (leBytes_length 4 _), leValue_leBytes]
    rfl
  have hvfd : leValue (((vfdHup id).drop 8).take 4) = id := by
    rw [vfdHup, List.drop_left' (by simp), List.take_of_length_le (by simp), leValue_leBytes,
      Nat.mod_eq_of_lt (by omega)]
  rw [rawVfdId, if_pos (Or.inr htype), hvfd]

theorem inEntries_pieces (v : ℕ) (data : List UInt8) :
    ∃ pieces : List (List UInt8), pieces.flatten = data ∧
      inEntries v data = pieces.map (.bytes v) := by
  unfold inEntries
  split_ifs
  · exact ⟨chunks data, chunks_flatten data, rfl⟩
  · exact ⟨[data], by simp, rfl⟩

theorem queueInjection_prefix (w : Wl) (clientId : ℕ) (data : List UInt8) (fds : List WlFd) :
    w.pendingIn <+: (w.queueInjection clientId data fds).pendingIn := by
  by_cases hfds : fds = []
  · subst hfds
    exact List.prefix_append _ _
  · rw [queueInjection_fds w clientId data fds hfds]
    exact List.prefix_append _ _

theorem queueInjection_guestPipes (w : Wl) (clientId : ℕ) (data : List UInt8) (fds : List WlFd) :
    (w.queueInjection clientId data fds).guestPipes = w.guestPipes := by
  by_cases hfds : fds = []
  · subst hfds
    rfl
  · rw [queueInjection_fds w clientId data fds hfds]

namespace Pipes

theorem id_lt (vfdId : ℕ) : vfdId % 2 ^ 32 < 2 ^ 32 := Nat.mod_lt _ (by decide)

/-- Parcels for no pipe, or for another, are none of this one's. -/
theorem filter_pipe_append {parcels more : List Parcel} {pipe : ℕ × ℕ}
    (h : ∀ p ∈ more, p.pipe ≠ some pipe) :
    (parcels ++ more).filter (fun p => p.pipe = some pipe) =
      parcels.filter fun p => p.pipe = some pipe := by
  have hnone : more.filter (fun p => p.pipe = some pipe) = [] :=
    List.filter_eq_nil_iff.mpr fun p hp hd => h p hp (of_decide_eq_true hd)
  rw [List.filter_append, hnone, List.append_nil]

theorem Sound.injectIn {s : Pipes} (h : Sound s) (clientId : ℕ) (data : List UInt8)
    (fds : List WlFd) : Sound (s.enqueue (.injectIn clientId data fds)) := by
  have hnew : ∀ p ∈ ((s.device.queueInjection clientId data fds).pendingIn.drop
      s.device.pendingIn.length).map fun entry => Parcel.mk entry none, p.pipe = none := by
    intro p hp
    obtain ⟨entry, -, rfl⟩ := List.mem_map.mp hp
    rfl
  refine ⟨paged_queued h.paged _, ?_, h.small, fun p hp id g hpipe => ?_, fun id => ?_, h.past,
    fun id halive => ?_⟩
  · obtain ⟨more, hmore⟩ := queueInjection_prefix s.device clientId data fds
    have hmap : ∀ entries : List WlPendingIn,
        (entries.map fun entry => Parcel.mk entry none).map Parcel.entry = entries :=
      fun entries => by
        rw [List.map_map]
        exact List.map_id' entries
    change (s.parcels ++ _).map Parcel.entry = (s.device.queueInjection clientId data fds).pendingIn
    rw [List.map_append, hmap, h.entries, ← hmore, List.drop_left]
  · rcases List.mem_append.mp hp with hp | hp
    · exact h.current p hp id g hpipe
    · rw [hnew p hp] at hpipe
      cases hpipe
  · refine (h.stage id).congr rfl ?_ Iff.rfl Iff.rfl rfl rfl fun _ hnone p hp g hpipe => ?_
    · change id ∈ (s.device.queueInjection clientId data fds).guestPipes ↔ _
      rw [queueInjection_guestPipes]
    · rcases List.mem_append.mp hp with hp | hp
      · exact hnone p hp g hpipe
      · rw [hnew p hp] at hpipe
        cases hpipe
  · have hdue := h.due id halive
    have hsame : (s.enqueue (.injectIn clientId data fds)).waitingFor id = s.waitingFor id := by
      refine congrArg (List.map fun p : Parcel => p.entry.message)
        (filter_pipe_append fun p hp => ?_)
      rw [hnew p hp]
      exact Option.some_ne_none _ |>.symm
    rw [hsame]
    exact hdue

/-- What an event does to the due of the other pipes: nothing. -/
theorem due_of_same {s t : Pipes} {id : ℕ} (hborn : t.born id = s.born id)
    (hwritten : t.written id = s.written id) (hhung : id ∈ t.hung ↔ id ∈ s.hung)
    (harrived : t.arrived = s.arrived)
    (hparcels : t.parcels.filter (fun p => p.pipe = some (id, s.born id)) =
      s.parcels.filter fun p => p.pipe = some (id, s.born id))
    (h : s.Due id (s.arrivedAt id ++ s.waitingFor id)) :
    t.Due id (t.arrivedAt id ++ t.waitingFor id) := by
  obtain ⟨pieces, hflat, hmessages⟩ := h
  refine ⟨pieces, by rw [hwritten, hflat], ?_⟩
  have harr : t.arrivedAt id = s.arrivedAt id := by rw [arrivedAt, hborn, harrived, arrivedAt]
  have hwait : t.waitingFor id = s.waitingFor id := by rw [waitingFor, hborn, hparcels, waitingFor]
  rw [harr, hwait, hmessages]
  congr 1
  by_cases hid : id ∈ s.hung
  · rw [if_pos hid, if_pos (hhung.mpr hid)]
  · rw [if_neg hid, if_neg fun hin => hid (hhung.mp hin)]

/-- The pieces of a write, as the entries that wait and as their parcels. -/
theorem queued_pipeWrite {s : Pipes} {vfdId : ℕ} (data : List UInt8)
    (hopen : vfdId % 2 ^ 32 ∈ s.device.guestPipes) :
    ∃ pieces : List (List UInt8), pieces.flatten = data ∧
      (s.device.queued (.pipeWrite vfdId data)).pendingIn =
        s.device.pendingIn ++ pieces.map (.bytes (vfdId % 2 ^ 32)) ∧
      s.queued (.pipeWrite vfdId data) = s.parcels ++
        (pieces.map (.bytes (vfdId % 2 ^ 32))).map (fun entry =>
          ⟨entry, some (vfdId % 2 ^ 32, s.heard (vfdId % 2 ^ 32))⟩) ∧
      ∀ piece ∈ pieces, (vfdRecvMsg (vfdId % 2 ^ 32) piece).length ≤ pageSize := by
  by_cases hdata : data = []
  · refine ⟨[], hdata.symm, ?_, ?_, fun piece hp => absurd hp List.not_mem_nil⟩
    · rw [Wl.queued, if_neg fun hboth => hboth.2 hdata]
      exact (List.append_nil _).symm
    · rw [queued, if_neg fun hboth => hboth.2 hdata]
      exact (List.append_nil _).symm
  · obtain ⟨pieces, hflat, hentries⟩ := inEntries_pieces (vfdId % 2 ^ 32) data
    refine ⟨pieces, hflat, ?_, ?_, fun piece hp => ?_⟩
    · rw [Wl.queued, if_pos ⟨hopen, hdata⟩, ← hentries]
      rfl
    · rw [queued, if_pos ⟨hopen, hdata⟩, hentries]
    · have hmem : WlPendingIn.bytes (vfdId % 2 ^ 32) piece ∈ inEntries (vfdId % 2 ^ 32) data := by
        rw [hentries]
        exact List.mem_map_of_mem hp
      exact (sound_inEntries _ data (id_lt vfdId) _ hmem).1

theorem queued_pipeWrite_guestPipes (w : Wl) (vfdId : ℕ) (data : List UInt8) :
    (w.queued (.pipeWrite vfdId data)).guestPipes = w.guestPipes := by
  rw [Wl.queued]
  split_ifs
  · rfl
  · rfl

/-- Parcels for a pipe that the device has. -/
theorem Sound.current_append {s : Pipes} (h : Sound s) {v : ℕ} (hopen : v ∈ s.device.guestPipes)
    {more : List WlPendingIn}
    (hmore : ∀ entry ∈ more, entry.addresses v ∧ entry.message.length ≤ pageSize) :
    ∀ p ∈ s.parcels ++ more.map (fun entry => ⟨entry, some (v, s.heard v)⟩), ∀ id g,
      p.pipe = some (id, g) →
        g = s.born id ∧ p.entry.addresses id ∧ p.entry.message.length ≤ pageSize := by
  intro p hp id g hpipe
  rcases List.mem_append.mp hp with hp | hp
  · exact h.current p hp id g hpipe
  · obtain ⟨entry, hentry, rfl⟩ := List.mem_map.mp hp
    obtain ⟨rfl, rfl⟩ := Prod.mk.inj (Option.some.inj hpipe)
    exact ⟨(h.stage _).heard_of_guest hopen, hmore entry hentry⟩

/-- They are none of the other pipes'. -/
theorem not_for_other {v id g n : ℕ} (more : List WlPendingIn) (hne : id ≠ v) :
    ∀ p ∈ more.map (fun entry => Parcel.mk entry (some (v, n))), p.pipe ≠ some (id, g) := by
  intro p hp hpipe
  obtain ⟨entry, -, rfl⟩ := List.mem_map.mp hp
  exact hne (Prod.mk.inj (Option.some.inj hpipe)).1.symm

theorem noneFor_append {s t : Pipes} {v id n : ℕ} (more : List WlPendingIn) (hne : id ≠ v)
    (hparcels : t.parcels = s.parcels ++ more.map fun entry => ⟨entry, some (v, n)⟩)
    (hnone : s.NoneFor id) : t.NoneFor id := by
  intro p hp g
  rw [hparcels] at hp
  rcases List.mem_append.mp hp with hp | hp
  · exact hnone p hp g
  · exact not_for_other more hne p hp

/-- What is due to a pipe, with parcels more for it. -/
theorem due_grown {s t : Pipes} {id : ℕ} (more : List WlPendingIn) (hborn : t.born id = s.born id)
    (harrived : t.arrived = s.arrived) (hparcels : t.parcels =
      s.parcels ++ more.map fun entry => ⟨entry, some (id, s.heard id)⟩)
    (hheard : s.heard id = s.born id)
    (hdue : t.Due id (s.arrivedAt id ++ s.waitingFor id ++ more.map WlPendingIn.message)) :
    t.Due id (t.arrivedAt id ++ t.waitingFor id) := by
  have harr : t.arrivedAt id = s.arrivedAt id := by rw [arrivedAt, hborn, harrived, arrivedAt]
  have hwait : t.waitingFor id = s.waitingFor id ++ more.map WlPendingIn.message := by
    rw [waitingFor, waitingFor, hborn, hparcels, hheard, List.filter_append, List.map_append]
    congr 1
    rw [List.filter_eq_self.mpr, List.map_map]
    · rfl
    · intro p hp
      obtain ⟨entry, -, rfl⟩ := List.mem_map.mp hp
      exact decide_eq_true rfl
  rw [harr, hwait, ← List.append_assoc]
  exact hdue

/-- A pipe that is gone but still known to the device keeps no account of its bytes. -/
theorem track_pipeWrite {s : Pipes} (h : Sound s) {vfdId : ℕ} (data : List UInt8)
    (hopen : vfdId % 2 ^ 32 ∈ s.device.guestPipes) :
    ∃ written, s.track (.pipeWrite vfdId data) = { s with written } ∧
      (∀ id, id ≠ vfdId % 2 ^ 32 → written id = s.written id) ∧
      (vfdId % 2 ^ 32 ∈ s.alive → vfdId % 2 ^ 32 ∉ s.hung ∧
        written (vfdId % 2 ^ 32) = s.written (vfdId % 2 ^ 32) ++ data) := by
  by_cases halive : vfdId % 2 ^ 32 ∈ s.alive
  · have hknown : s.Known (vfdId % 2 ^ 32) := ⟨halive, (h.stage _).heard_of_guest hopen⟩
    have hhung := ((h.stage _).opened_of_known hknown).mp hopen
    exact ⟨_, if_pos ⟨hknown, hhung⟩, fun id hid => Function.update_of_ne hid _ _,
      fun _ => ⟨hhung, Function.update_self ..⟩⟩
  · exact ⟨s.written, if_neg fun hboth => halive hboth.1.1, fun _ _ => rfl,
      fun hin => absurd hin halive⟩

/-- The device takes bytes for a pipe that it has heard of, whether the guest has closed it or
not. -/
theorem Sound.pipeWrite {s : Pipes} (h : Sound s) (vfdId : ℕ) (data : List UInt8) :
    Sound (s.enqueue (.pipeWrite vfdId data)) := by
  by_cases hopen : vfdId % 2 ^ 32 ∈ s.device.guestPipes
  · have hheard := (h.stage _).heard_of_guest hopen
    obtain ⟨pieces, hflat, hpending, hparcels, hsmall⟩ := queued_pipeWrite data hopen
    obtain ⟨written, htrack, hother, hself⟩ := track_pipeWrite h data hopen
    have hpaged := paged_queued h.paged (.pipeWrite vfdId data)
    have hguest := queued_pipeWrite_guestPipes s.device vfdId data
    rw [enqueue, htrack, hparcels]
    generalize s.device.queued (.pipeWrite vfdId data) = device at *
    generalize vfdId % 2 ^ 32 = v at *
    have hmore : ∀ entry ∈ pieces.map (WlPendingIn.bytes v),
        entry.addresses v ∧ entry.message.length ≤ pageSize := by
      intro entry hentry
      obtain ⟨piece, hpiece, rfl⟩ := List.mem_map.mp hentry
      exact ⟨rfl, hsmall piece hpiece⟩
    refine ⟨hpaged, ?_, h.small, h.current_append hopen hmore, fun id => ?_, h.past,
      fun id hid => ?_⟩
    · change (s.parcels ++ _).map Parcel.entry = device.pendingIn
      rw [List.map_append, h.entries, hpending, List.map_map]
      congr 1
      exact List.map_id' _
    · refine (h.stage id).congr rfl ?_ Iff.rfl Iff.rfl rfl rfl fun hclosed hnone => ?_
      · change id ∈ device.guestPipes ↔ _
        rw [hguest]
      · refine noneFor_append (pieces.map (.bytes v)) (fun heq => hclosed ?_) rfl hnone
        exact heq ▸ hopen
    · by_cases hv : id = v
      · subst hv
        obtain ⟨hhung, hwritten⟩ := hself hid
        obtain ⟨before, hbefore, hmessages⟩ := h.due id hid
        rw [if_neg hhung, List.append_nil] at hmessages
        refine due_grown (s := s) (pieces.map (.bytes id)) rfl rfl rfl hheard
          ⟨before ++ pieces, ?_, ?_⟩
        · rw [List.flatten_append, hbefore, hflat]
          exact hwritten.symm
        · rw [if_neg hhung, List.append_nil, List.map_append, ← hmessages, List.map_map]
          rfl
      · exact due_of_same (s := s) rfl (hother id hv) Iff.rfl rfl
          (filter_pipe_append (not_for_other _ hv)) (h.due id hid)
  · have hsame : s.enqueue (.pipeWrite vfdId data) = s := by
      have hdevice : s.device.queued (.pipeWrite vfdId data) = s.device :=
        if_neg fun hboth => hopen hboth.1
      have htrack : s.track (.pipeWrite vfdId data) = s := if_neg fun hboth =>
        hopen (((h.stage _).opened_of_known hboth.1).mpr hboth.2)
      rw [enqueue, hdevice, htrack, queued, if_neg fun hboth => hopen hboth.1]
    rw [hsame]
    exact h

/-- The host hangs a pipe up once, whether the guest has closed it or not. -/
theorem track_pipeClose {s : Pipes} (h : Sound s) {vfdId : ℕ}
    (hopen : vfdId % 2 ^ 32 ∈ s.device.guestPipes) :
    ∃ hung, s.track (.pipeClose vfdId) = { s with hung } ∧
      (∀ id, id ≠ vfdId % 2 ^ 32 → (id ∈ hung ↔ id ∈ s.hung)) ∧
      (vfdId % 2 ^ 32 ∈ s.alive → vfdId % 2 ^ 32 ∉ s.hung ∧ vfdId % 2 ^ 32 ∈ hung) := by
  by_cases halive : vfdId % 2 ^ 32 ∈ s.alive
  · have hknown : s.Known (vfdId % 2 ^ 32) := ⟨halive, (h.stage _).heard_of_guest hopen⟩
    have hhung := ((h.stage _).opened_of_known hknown).mp hopen
    refine ⟨_, if_pos hknown, fun id hid => ?_, fun _ => ⟨hhung, Finset.mem_insert_self ..⟩⟩
    rw [Finset.mem_insert, or_iff_right hid]
  · exact ⟨s.hung, if_neg fun hknown => halive hknown.1, fun _ _ => Iff.rfl,
      fun hin => absurd hin halive⟩

theorem Sound.pipeClose {s : Pipes} (h : Sound s) (vfdId : ℕ) :
    Sound (s.enqueue (.pipeClose vfdId)) := by
  by_cases hopen : vfdId % 2 ^ 32 ∈ s.device.guestPipes
  · have hheard := (h.stage _).heard_of_guest hopen
    obtain ⟨hung, htrack, hother, hself⟩ := track_pipeClose h hopen
    have hdevice : s.device.queued (.pipeClose vfdId) =
        { s.device with guestPipes := s.device.guestPipes.erase (vfdId % 2 ^ 32) }.queueRaw
          (vfdHup (vfdId % 2 ^ 32)) := if_pos hopen
    rw [enqueue, hdevice, htrack, queued, if_pos hopen]
    have hlt := id_lt vfdId
    generalize vfdId % 2 ^ 32 = v at *
    have hmore : ∀ entry ∈ [WlPendingIn.raw (vfdHup v)],
        entry.addresses v ∧ entry.message.length ≤ pageSize := by
      intro entry hentry
      rw [List.mem_singleton.mp hentry]
      exact ⟨rawVfdId_vfdHup v hlt, by simp [WlPendingIn.message, vfdHup, pageSize]⟩
    refine ⟨h.paged, ?_, h.small, h.current_append hopen hmore, fun id => ?_, h.past,
      fun id hid => ?_⟩
    · change (s.parcels ++ _).map Parcel.entry = s.device.pendingIn ++ [.raw (vfdHup v)]
      rw [List.map_append, h.entries]
      rfl
    · by_cases hv : id = v
      · subst hv
        cases h.stage id with
        | settled honWay hopened hknown _ =>
          have halive := (hopened.mp hopen).1
          refine .settled honWay (iff_of_false (Finset.notMem_erase id _) ?_) hknown
            (Or.inl halive)
          exact fun hboth => hboth.2 (hself halive).2
        | opening _ _ hclosed _ _ _ => exact absurd hopen hclosed
        | closing honWay hgone hknown => exact .closing honWay hgone hknown
        | passing _ _ hclosed _ _ => exact absurd hopen hclosed
      · refine (h.stage id).congr rfl ?_ Iff.rfl (hother id hv) rfl rfl
          fun _ hnone => noneFor_append (s := s) [.raw (vfdHup v)] hv rfl hnone
        change id ∈ s.device.guestPipes.erase v ↔ _
        rw [Finset.mem_erase, and_iff_right hv]
    · by_cases hv : id = v
      · subst hv
        obtain ⟨hhung, hnow⟩ := hself hid
        obtain ⟨pieces, hflat, hmessages⟩ := h.due id hid
        rw [if_neg hhung, List.append_nil] at hmessages
        refine due_grown (s := s) [.raw (vfdHup id)] rfl rfl rfl hheard ⟨pieces, hflat, ?_⟩
        rw [if_pos hnow, ← hmessages]
        rfl
      · exact due_of_same (s := s) rfl rfl (hother id hv) rfl
          (filter_pipe_append (not_for_other [.raw (vfdHup v)] hv)) (h.due id hid)
  · have hdevice : s.device.queued (.pipeClose vfdId) = s.device := if_neg hopen
    have hsame : s.enqueue (.pipeClose vfdId) = s := by
      rw [enqueue, hdevice, queued, if_neg hopen, track]
      split_ifs with hknown
      · have hhung : vfdId % 2 ^ 32 ∈ s.hung := by
          by_contra hnot
          exact hopen (((h.stage _).opened_of_known hknown).mpr hnot)
        rw [Finset.insert_eq_of_mem hhung]
      · rfl
    rw [hsame]
    exact h

theorem Sound.enqueue {s : Pipes} (h : Sound s) {e : Event} (hpossible : s.Possible (.device e)) :
    Sound (s.enqueue e) := by
  cases e with
  | injectIn clientId data fds => exact h.injectIn clientId data fds
  | pipeWrite vfdId data => exact h.pipeWrite vfdId data
  | pipeClose vfdId => exact h.pipeClose vfdId
  | guestPipe vfdId opened => exact hpossible.elim
  | refill n =>
    refine ⟨paged_queued h.paged (.refill n), h.entries, h.small, h.current, fun id => ?_, h.past,
      h.due⟩
    exact (h.stage id).congr rfl Iff.rfl Iff.rfl Iff.rfl rfl rfl fun _ hnone => hnone
  | flushIn => exact h

theorem Sound.handles {s : Pipes} (h : Sound s) {e : Event} (hpossible : s.Possible (.device e)) :
    Sound (s.handles e) := by
  obtain ⟨hleft, hused⟩ := react_used s.device e
  rw [handles_eq]
  exact (h.enqueue hpossible).deliver (paged_react h.paged e) (react_guestPipes s.device e) hleft
    hused (react_capacity h.paged e)

/-- The reports about an id, with one more about another. -/
theorem onWay_append {s t : Pipes} (id : ℕ) {v : ℕ} {opened : Bool}
    (hreports : t.reports = s.reports ++ [⟨v, opened⟩]) :
    t.onWay id = s.onWay id ++ if id = v then [opened] else [] := by
  rw [onWay, onWay, hreports, List.filter_append, List.map_append]
  congr 1
  by_cases hv : id = v
  · subst hv
    simp
  · simp [hv, Ne.symm hv]

/-- A pipe under a fresh incarnation starts with nothing. -/
theorem Sound.opens {s : Pipes} (h : Sound s) {v : ℕ} (hv : v < 2 ^ 32) (hnew : v ∉ s.alive)
    (hprompt : ∀ r ∈ s.reports, r.pipe ≠ v) : Sound (s.opens v) := by
  have hquiet : s.onWay v = [] :=
    List.map_eq_nil_iff.mpr (List.filter_eq_nil_iff.mpr fun r hr hd =>
      hprompt r hr (of_decide_eq_true hd))
  have hbefore : v ∉ s.device.guestPipes ∧ s.heard v = s.born v ∧ s.NoneFor v := by
    cases h.stage v with
    | settled _ hopened hheard hwaits =>
      exact ⟨fun hin => hnew (hopened.mp hin).1, hheard, hwaits.resolve_left hnew⟩
    | opening honWay => rw [hquiet] at honWay; cases honWay
    | closing honWay => rw [hquiet] at honWay; cases honWay
    | passing honWay => rw [hquiet] at honWay; cases honWay
  obtain ⟨hclosed, hheard, hnone⟩ := hbefore
  have hborn : (s.opens v).born v = s.born v + 1 := Function.update_self v _ s.born
  have hother : ∀ id, id ≠ v → (s.opens v).born id = s.born id := fun id hid =>
    Function.update_of_ne hid _ s.born
  refine ⟨h.paged, h.entries, fun r hr => ?_, fun p hp id g hpipe => ?_, fun id => ?_,
    fun a ha id g hpipe => ?_, fun id hid => ?_⟩
  · rcases List.mem_append.mp hr with hr | hr
    · exact h.small r hr
    · rw [List.mem_singleton.mp hr]
      exact hv
  · have hne : id ≠ v := by
      rintro rfl
      exact hnone p hp g hpipe
    rw [hother id hne]
    exact h.current p hp id g hpipe
  · have honWay := onWay_append (s := s) (t := s.opens v) id rfl
    by_cases hid : id = v
    · subst hid
      rw [hquiet, if_pos rfl] at honWay
      refine .opening honWay (Finset.mem_insert_self id _) hclosed
        (Finset.notMem_erase id _) ?_ hnone
      rw [hborn, ← hheard]
      rfl
    · rw [if_neg hid, List.append_nil] at honWay
      refine (h.stage id).congr honWay Iff.rfl ?_ ?_ (hother id hid) rfl fun _ hnone => hnone
      · exact Finset.mem_insert.trans (or_iff_right hid)
      · exact Finset.mem_erase.trans (and_iff_right hid)
  · obtain ⟨hle, hincarnation⟩ := h.past a ha id g hpipe
    refine ⟨hle.trans ?_, hincarnation⟩
    by_cases hid : id = v
    · rw [hid, hborn]
      exact Nat.le_succ _
    · exact (hother id hid).ge
  · by_cases hid' : id = v
    · subst hid'
      have harrived : s.arrived.filter (fun a => a.parcel.pipe = some (id, s.born id + 1)) =
          [] := by
        refine List.filter_eq_nil_iff.mpr fun a ha hpipe => ?_
        have hle := (h.past a ha id _ (of_decide_eq_true hpipe)).1
        omega
      have hwaiting : s.parcels.filter (fun p => p.pipe = some (id, s.born id + 1)) = [] :=
        List.filter_eq_nil_iff.mpr fun p hp hpipe => hnone p hp _ (of_decide_eq_true hpipe)
      refine ⟨[], (Function.update_self id _ s.written).symm, ?_⟩
      have harr : (s.opens id).arrivedAt id = [] := by
        rw [arrivedAt, hborn]
        exact congrArg (List.map Arrival.written) harrived
      have hwait : (s.opens id).waitingFor id = [] := by
        rw [waitingFor, hborn]
        exact congrArg (List.map fun p => p.entry.message) hwaiting
      have hhung : id ∉ (s.opens id).hung := Finset.notMem_erase id _
      rw [harr, hwait, if_neg hhung]
      rfl
    · refine due_of_same (s := s) (hother id hid') (Function.update_of_ne hid' _ _) ?_ rfl rfl
        (h.due id (Finset.mem_of_mem_insert_of_ne hid hid'))
      exact Finset.mem_erase.trans (and_iff_right hid')

/-- The pipe is gone, and the device is told later. -/
theorem Sound.closes {s : Pipes} (h : Sound s) {v : ℕ} (hv : v < 2 ^ 32) (halive : v ∈ s.alive) :
    Sound (s.closes v) := by
  refine ⟨h.paged, h.entries, fun r hr => ?_, h.current, fun id => ?_, h.past, fun id hid => ?_⟩
  · rcases List.mem_append.mp hr with hr | hr
    · exact h.small r hr
    · rw [List.mem_singleton.mp hr]
      exact hv
  · have honWay := onWay_append (s := s) (t := s.closes v) id rfl
    by_cases hid : id = v
    · subst hid
      rw [if_pos rfl] at honWay
      have hgone : id ∉ (s.closes id).alive := Finset.notMem_erase id _
      cases h.stage id with
      | settled hway _ hheard _ =>
        rw [hway] at honWay
        exact .closing honWay hgone hheard
      | opening hway _ hclosed _ hheard hnone =>
        rw [hway] at honWay
        exact .passing honWay hgone hclosed hheard hnone
      | closing _ hgone' => exact absurd halive hgone'
      | passing _ hgone' => exact absurd halive hgone'
    · rw [if_neg hid, List.append_nil] at honWay
      exact (h.stage id).congr honWay Iff.rfl (Finset.mem_erase.trans (and_iff_right hid)) Iff.rfl
        rfl rfl fun _ hnone => hnone
  · exact due_of_same (s := s) rfl rfl Iff.rfl rfl rfl (h.due id (Finset.mem_of_mem_erase hid))

/-- The reports about an id, the first of which is handled. -/
theorem onWay_eraseIdx {s : Pipes} {n : ℕ} {r : Report} (hget : s.reports[n]? = some r)
    (hfirst : ∀ q ∈ s.reports.take n, q.pipe ≠ r.pipe) (id : ℕ) :
    s.onWay id = (if id = r.pipe then [r.opened] else []) ++
      ((s.reports.eraseIdx n).filter fun q => q.pipe = id).map Report.opened := by
  obtain ⟨hn, hr⟩ := List.getElem?_eq_some_iff.mp hget
  have hsplit : s.reports = s.reports.take n ++ r :: s.reports.drop (n + 1) := by
    rw [← hr, List.getElem_cons_drop hn, List.take_append_drop]
  have honWay : s.onWay id =
      ((s.reports.take n ++ r :: s.reports.drop (n + 1)).filter fun q => q.pipe = id).map
        Report.opened := by
    rw [← hsplit]
    rfl
  rw [honWay, List.eraseIdx_eq_take_drop_succ, List.filter_append, List.filter_append]
  by_cases hid : id = r.pipe
  · have hnone : (s.reports.take n).filter (fun q => q.pipe = id) = [] :=
      List.filter_eq_nil_iff.mpr fun q hq hd => hfirst q hq ((of_decide_eq_true hd).trans hid)
    rw [hnone, if_pos hid, List.filter_cons, if_pos (decide_eq_true hid.symm)]
    rfl
  · rw [if_neg hid, List.filter_cons, if_neg fun hd => hid (of_decide_eq_true hd).symm]
    rfl

/-- The device hears of a new pipe. -/
theorem Sound.report_opened {s : Pipes} (h : Sound s) {n v : ℕ} (hv : v < 2 ^ 32)
    (hget : s.reports[n]? = some ⟨v, true⟩) (hfirst : ∀ q ∈ s.reports.take n, q.pipe ≠ v) :
    Sound { s.hears ⟨v, true⟩ with reports := s.reports.eraseIdx n } := by
  have honWay := onWay_eraseIdx hget hfirst
  have hmod : v % 2 ^ 32 = v := Nat.mod_eq_of_lt hv
  have hhears : s.hears ⟨v, true⟩ = { s with
      device := { s.device with guestPipes := insert v s.device.guestPipes }
      heard := Function.update s.heard v (s.heard v + 1) } := by
    simp only [hears, Wl.guestPipe, hmod, if_true]
  rw [hhears]
  refine ⟨h.paged, h.entries, fun r hr => h.small r (List.mem_of_mem_eraseIdx hr), h.current,
    fun id => ?_, h.past, fun id hid => ?_⟩
  · by_cases hid : id = v
    · subst hid
      have hway := honWay id
      rw [if_pos rfl] at hway
      have hheard : Function.update s.heard id (s.heard id + 1) id = s.heard id + 1 :=
        Function.update_self ..
      have hin : id ∈ insert id s.device.guestPipes := Finset.mem_insert_self ..
      cases h.stage id with
      | settled hold => rw [hold] at hway; cases hway
      | opening hold halive _ hhung hbehind =>
        rw [hold] at hway
        exact .settled (List.cons.inj hway).2.symm (iff_of_true hin ⟨halive, hhung⟩)
          (hheard.trans hbehind) (Or.inl halive)
      | closing hold => rw [hold] at hway; cases hway
      | passing hold hgone _ hbehind =>
        rw [hold] at hway
        exact .closing (List.cons.inj hway).2.symm hgone (hheard.trans hbehind)
    · have hway := honWay id
      rw [if_neg hid, List.nil_append] at hway
      exact (h.stage id).congr hway.symm (Finset.mem_insert.trans (or_iff_right hid)) Iff.rfl
        Iff.rfl rfl (Function.update_of_ne hid _ _) fun _ hnone => hnone
  · exact due_of_same (s := s) rfl rfl Iff.rfl rfl rfl (h.due id hid)

/-- With a closed pipe goes all that waits for it. -/
theorem Sound.report_closed {s : Pipes} (h : Sound s) {n v : ℕ} (hv : v < 2 ^ 32)
    (hget : s.reports[n]? = some ⟨v, false⟩) (hfirst : ∀ q ∈ s.reports.take n, q.pipe ≠ v) :
    Sound { s.hears ⟨v, false⟩ with reports := s.reports.eraseIdx n } := by
  have honWay := onWay_eraseIdx hget hfirst
  have hmod : v % 2 ^ 32 = v := Nat.mod_eq_of_lt hv
  have hhears : s.hears ⟨v, false⟩ = { s with
      device := { s.device with
        guestPipes := s.device.guestPipes.erase v
        pendingIn := s.device.pendingIn.filter fun entry => ¬entry.addresses v }
      parcels := s.parcels.filter fun parcel => ¬parcel.entry.addresses v } := by
    simp only [hears, Wl.guestPipe, hmod, if_neg Bool.false_ne_true]
  have hgone : v ∉ s.alive ∧ s.heard v = s.born v ∧
      (s.reports.eraseIdx n).filter (fun q => q.pipe = v) = [] := by
    have hway := honWay v
    rw [if_pos rfl] at hway
    cases h.stage v with
    | settled hold => rw [hold] at hway; cases hway
    | opening hold => rw [hold] at hway; cases hway
    | closing hold hgone hheard =>
      rw [hold] at hway
      exact ⟨hgone, hheard, List.map_eq_nil_iff.mp (List.cons.inj hway).2.symm⟩
    | passing hold => rw [hold] at hway; cases hway
  obtain ⟨hgone, hheard, hquiet⟩ := hgone
  rw [hhears]
  refine ⟨h.paged, ?_, fun r hr => h.small r (List.mem_of_mem_eraseIdx hr),
    fun p hp id g hpipe => h.current p (List.mem_of_mem_filter hp) id g hpipe, fun id => ?_, h.past,
    fun id hid => ?_⟩
  · change _ = s.device.pendingIn.filter fun entry => ¬entry.addresses v
    rw [← h.entries, List.filter_map]
    rfl
  · by_cases hid : id = v
    · subst hid
      refine .settled (congrArg (List.map Report.opened) hquiet)
        (iff_of_false (Finset.notMem_erase id _) fun hboth => hgone hboth.1) hheard
        (Or.inr fun p hp g hpipe => ?_)
      obtain ⟨hp, haddresses⟩ := List.mem_filter.mp hp
      exact of_decide_eq_true haddresses (h.current p hp id g hpipe).2.1
    · have hway := honWay id
      rw [if_neg hid, List.nil_append] at hway
      exact (h.stage id).congr hway.symm (Finset.mem_erase.trans (and_iff_right hid)) Iff.rfl
        Iff.rfl rfl rfl fun _ hnone p hp => hnone p (List.mem_of_mem_filter hp)
  · have hne : id ≠ v := by
      rintro rfl
      exact hgone hid
    refine due_of_same (s := s) rfl rfl Iff.rfl rfl ?_ (h.due id hid)
    rw [List.filter_filter]
    refine List.filter_congr fun p hp => ?_
    by_cases hpipe : p.pipe = some (id, s.born id)
    · have hentry := (h.current p hp id _ hpipe).2.1
      have hother : ¬p.entry.addresses v := fun hv => hne (addresses_unique hentry hv)
      simpa [hpipe] using hother
    · simp [hpipe]

theorem Sound.report {s : Pipes} (h : Sound s) {n : ℕ} {r : Report}
    (hget : s.reports[n]? = some r) (hfirst : ∀ q ∈ s.reports.take n, q.pipe ≠ r.pipe) :
    Sound { s.hears r with reports := s.reports.eraseIdx n } := by
  have hsmall := h.small r (List.mem_of_getElem? hget)
  obtain ⟨v, opened⟩ := r
  cases opened with
  | true => exact h.report_opened hsmall hget hfirst
  | false => exact h.report_closed hsmall hget hfirst

theorem Sound.step {s : Pipes} (h : Sound s) (act : Act) (hprompt : s.Prompt act) :
    Sound (s.step act) := by
  unfold Pipes.step
  split_ifs with hpossible
  · cases act with
    | guestOpens vfdId => exact h.opens (id_lt vfdId) hpossible hprompt
    | guestCloses vfdId => exact h.closes (id_lt vfdId) hpossible
    | report n =>
      dsimp only
      cases hget : s.reports[n]? with
      | none => exact h
      | some r => exact h.report hget (hprompt r hget)
    | device e => exact h.handles hpossible
  · exact h

theorem sound_run (acts : List Act) (hprompt : Along Prompt step start acts) :
    Sound (run step start acts) :=
  run_along Sound (fun _ act h hact => h.step act hact) acts sound_start hprompt

end Pipes

end NixWasm.WlDevice
