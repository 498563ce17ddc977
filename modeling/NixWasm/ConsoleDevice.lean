import NixWasm.Runs
import NixWasm.VringChains

/-!
The input side of the virtio-console device of virtio/console-device.ts. Bytes that the host
pushes wait in one array until the guest posts buffers on the receiveq; every flush fills the
posted buffers in turn. The guest runs on other threads, so it may change its memory between two
rounds of the loop. What a flush delivers is logged when its used buffer is published.
-/
namespace NixWasm.ConsoleDevice

open ByteStore Effects Virtio

def receiveq : ℕ := 0
def transmitq : ℕ := 1

structure Console where
  pending : List UInt8
  /-- Log of the used buffers. -/
  deliveries : List Delivery

def modifyOwn (f : Console → Console) : Js (Host Console) Unit :=
  modify fun h => { h with own := f h.own }

/-- Log a used buffer, after which `left` is still pending. -/
def Console.deliver (c : Console) (d : Delivery) (left : List UInt8) : Console :=
  { c with pending := left, deliveries := c.deliveries ++ [d] }

/-- What the guest does to its memory. -/
abbrev Guest := List UInt8 → List UInt8

/-- The loop of flushRx, one round for each element of the list. -/
def flushLoop (ring : VringLayout) : List Guest → Js (Host Console) Unit
  | [] => return ()
  | guest :: rounds => do
    modify fun h => { h with memory := guest h.memory }
    let pending := (← get).own.pending
    if pending = [] then return () else
      match ← next receiveq ring with
      | none => return ()
      | some chain =>
        let cap := inCapacity chain
        let memory := (← get).memory
        if cap = 0 then
          pushUsed receiveq ring chain.head 0
          modifyOwn fun c => c.deliver ⟨chain.head, chain.in_, [], 0, memory⟩ pending
          flushLoop ring rounds
        else
          let take := min cap pending.length
          let written ← writeIn chain (pending.take take)
          let memory := (← get).memory
          pushUsed receiveq ring chain.head written
          modifyOwn fun c =>
            c.deliver ⟨chain.head, chain.in_, pending.take written, written, memory⟩
              (pending.drop written)
          flushLoop ring rounds

/-- Deliver pending bytes into the posted buffers. -/
def flushRx (rounds : List Guest) : Js (Host Console) Unit := do
  if (← get).own.pending = [] then return () else
    match ← vring receiveq with
    | none => return ()
    | some ring => flushLoop ring rounds

/-- Queue input bytes, and flush what fits. -/
def pushRx (bytes : List UInt8) (rounds : List Guest) : Js (Host Console) Unit := do
  if bytes ≠ [] then modifyOwn fun c => { c with pending := c.pending ++ bytes }
  flushRx rounds

/-- What happens to the device and its guest. -/
inductive Event
  /-- The host pushes a block. -/
  | push (bytes : List UInt8) (rounds : List Guest)
  /-- The guest's notification of the receiveq. -/
  | kick (rounds : List Guest)
  /-- The guest posts buffers, sets queues up or does anything else to its memory, and the
  transmit side takes chains and publishes used buffers of its own. -/
  | elsewhere (memory : List UInt8) (queues : ℕ → Option VringLayout) (lastAvail : ℕ → ℕ)
    (transmitted : List (ℕ × ℕ))

/-- The block an event pushes. -/
def Event.block : Event → List UInt8
  | .push bytes _ => bytes
  | .kick _ => []
  | .elsewhere .. => []

/-- One event; a throw of the device leaves what it had done. -/
def step (h : Host Console) : Event → Host Console
  | .push bytes rounds => final (pushRx bytes rounds h)
  | .kick rounds => final (flushRx rounds h)
  | .elsewhere memory queues lastAvail transmitted =>
    { h with
      memory, queues, lastAvail
      pushed := h.pushed ++ transmitted.map fun used => (transmitq, used) }

/-- The used buffers of the receiveq, in the order of publication. -/
def usedOnReceiveq (h : Host Console) : List (ℕ × ℕ) :=
  (h.pushed.filter fun used => used.1 = receiveq).map Prod.snd

/-- The bytes that were delivered, in used order. -/
def Console.delivered (c : Console) : List UInt8 := c.deliveries.flatMap Delivery.bytes

section Stream

/-- What holds between the pushed blocks, the books of the device and the used ring. -/
structure Streams (given : List UInt8) (own : Console) (pushed : List (ℕ × ℕ × ℕ)) : Prop where
  stream : own.delivered ++ own.pending = given
  used : ((pushed.filter fun used => used.1 = receiveq).map Prod.snd) =
    own.deliveries.map fun d => (d.head, d.used)
  faithful : ∀ d ∈ own.deliveries, d.Faithful

variable {given : List UInt8} {own : Console} {pushed : List (ℕ × ℕ × ℕ)}

/-- A used buffer takes the first pending bytes. -/
theorem Streams.deliver (hs : Streams given own pushed) {d : Delivery} {left : List UInt8}
    (hsplit : d.bytes ++ left = own.pending) (hd : d.Faithful) :
    Streams given (own.deliver d left) (pushed ++ [(receiveq, d.head, d.used)]) := by
  refine ⟨?_, ?_, ?_⟩
  · rw [← hs.stream, ← hsplit]
    simp [Console.delivered, Console.deliver]
  · rw [List.filter_append, List.map_append, hs.used]
    simp [Console.deliver, receiveq]
  · intro d' hd'
    rcases List.mem_append.mp hd' with hold | hnew
    · exact hs.faithful d' hold
    · rw [List.mem_singleton.mp hnew]
      exact hd

/-- What the transmit side publishes is on the other queue. -/
theorem Streams.transmit (hs : Streams given own pushed) (transmitted : List (ℕ × ℕ)) :
    Streams given own (pushed ++ transmitted.map fun used => (transmitq, used)) := by
  refine ⟨hs.stream, ?_, hs.faithful⟩
  have hother : (transmitted.map fun used => (transmitq, used)).filter
      (fun used => used.1 = receiveq) = [] := by
    apply List.filter_eq_nil_iff.mpr
    intro used hmem
    obtain ⟨sent, -, rfl⟩ := List.mem_map.mp hmem
    simp [transmitq, receiveq]
  rw [List.filter_append, hother, List.append_nil, hs.used]

theorem keepsStreams_flushLoop (given : List UInt8) (ring : VringLayout) (rounds : List Guest) :
    Keeps (fun h : Host Console => Streams given h.own h.pushed) (flushLoop ring rounds) := by
  induction rounds with
  | nil => exact keeps_pure _
  | cons guest rounds ih =>
    refine keeps_bind (keeps_modify fun h hs => hs) fun _ => ?_
    intro h hs
    simp only [wp_bind, wp_get, wp_ite]
    refine ⟨fun _ => hs, fun _ => ?_⟩
    refine (keepsBooks_next (P := fun own pushed => own = h.own ∧ Streams given own pushed) _ _ h
      ⟨rfl, hs⟩).mono (fun chain h₁ hs₁ => ?_) fun _ _ hs₁ => hs₁.2
    cases chain with
    | none => exact hs₁.2
    | some chain =>
      obtain ⟨hown, hs₁⟩ := hs₁
      simp only [wp_bind, wp_get, wp_ite]
      constructor
      · intro _
        refine (pushUsed_books _ _ _ _ h₁).mono (fun _ h₂ hbooks => ?_) fun _ h₂ hbooks => ?_
        · refine ih _ ?_
          change Streams given (h₂.own.deliver _ _) h₂.pushed
          rw [hbooks.1, hbooks.2]
          exact hs₁.deliver (by rw [hown]; rfl) (faithful_empty chain _)
        · rw [hbooks.1, hbooks.2]
          exact hs₁
      · intro _
        have hle : (h.own.pending.take (min (inCapacity chain) h.own.pending.length)).length ≤
            inCapacity chain := by
          rw [List.length_take]
          omega
        refine (writeIn_faithful chain _ hle h₁).mono (fun written h₂ hw => ?_) fun _ h₂ hw => ?_
        · obtain ⟨hown₂, hpushed₂, hwritten, hd⟩ := hw
          rw [wp_bind, wp_get, wp_bind]
          refine (pushUsed_books _ _ _ _ h₂).mono (fun _ h₃ hbooks => ?_) fun _ h₃ hbooks => ?_
          · refine ih _ ?_
            change Streams given (h₃.own.deliver _ _) h₃.pushed
            rw [hbooks.1, hbooks.2, hown₂, hpushed₂]
            have hbytes : h.own.pending.take written =
                h.own.pending.take (min (inCapacity chain) h.own.pending.length) := by
              rw [hwritten, List.length_take]
              congr 1
              omega
            rw [← hbytes] at hd
            exact hs₁.deliver (by rw [hown]; exact List.take_append_drop _ _) hd
          · rw [hbooks.1, hbooks.2, hown₂, hpushed₂]
            exact hs₁
        · rw [hw.1, hw.2]
          exact hs₁

theorem keepsStreams_flushRx (given : List UInt8) (rounds : List Guest) :
    Keeps (fun h : Host Console => Streams given h.own h.pushed) (flushRx rounds) := by
  refine keeps_bind keeps_get fun h => keeps_ite (keeps_pure _) ?_
  refine keeps_bind (keeps_bind keeps_get fun _ => keeps_pure _) fun ring => ?_
  cases ring with
  | none => exact keeps_pure _
  | some ring => exact keepsStreams_flushLoop given ring rounds

/-- One event adds the block it pushes to the stream. -/
theorem streams_step {h : Host Console} (hs : Streams given h.own h.pushed) (e : Event) :
    Streams (given ++ e.block) (step h e).own (step h e).pushed := by
  cases e with
  | push bytes rounds =>
    have hpush : Wp (pushRx bytes rounds)
        (fun _ h' => Streams (given ++ bytes) h'.own h'.pushed)
        (fun _ h' => Streams (given ++ bytes) h'.own h'.pushed) h := by
      have hmore : Streams (given ++ bytes) { h.own with pending := h.own.pending ++ bytes }
          h.pushed :=
        ⟨by rw [← hs.stream]; simp [Console.delivered], hs.used, hs.faithful⟩
      simp only [pushRx, wp_bind, wp_ite]
      constructor
      · intro _
        exact keepsStreams_flushRx _ _ _ hmore
      · intro hempty
        have hnil : bytes = [] := by simpa using hempty
        rw [hnil, List.append_nil]
        exact keepsStreams_flushRx _ _ _ hs
    exact hpush.final
  | kick rounds =>
    have hkick := (keepsStreams_flushRx given rounds h hs).final
    rwa [Event.block, List.append_nil]
  | elsewhere memory queues lastAvail transmitted =>
    rw [Event.block, List.append_nil]
    exact hs.transmit transmitted

theorem streams_run (events : List Event) (h : Host Console)
    (hs : Streams given h.own h.pushed) :
    Streams (given ++ events.flatMap Event.block) (Runs.run step h events).own
      (Runs.run step h events).pushed := by
  induction events generalizing given h with
  | nil => simpa using hs
  | cons e events ih =>
    rw [Runs.run_cons, List.flatMap_cons, ← List.append_assoc]
    exact ih (step h e) (streams_step hs e)

end Stream

/-- A device before its first event: nothing pending and nothing published. -/
structure Initial (h : Host Console) : Prop where
  own : h.own = ⟨[], []⟩
  pushed : h.pushed = []

/-- Whatever the guest posts and the host pushes, the bytes delivered in used order and the
bytes still pending are the pushed blocks one after the other. The used ring of the receiveq
has one entry for each delivery, with the number of bytes that the buffer was given. -/
theorem console_input_stream (h : Host Console) (hinit : Initial h) (events : List Event) :
    let h' := Runs.run step h events
    h'.own.delivered ++ h'.own.pending = events.flatMap Event.block ∧
      usedOnReceiveq h' = (h'.own.deliveries.map fun d => (d.head, d.bytes.length)) ∧
      ∀ d ∈ h'.own.deliveries, d.Faithful := by
  intro h'
  have hstart : Streams [] h.own h.pushed := by
    rw [hinit.own, hinit.pushed]
    exact ⟨rfl, rfl, by simp⟩
  obtain ⟨hstream, hused, hfaithful⟩ := streams_run events h hstart
  refine ⟨hstream, ?_, hfaithful⟩
  refine hused.trans (List.map_congr_left fun d hd => ?_)
  rw [(hfaithful d hd).used_eq]

/-- A receiveq of four: chains of two, zero and three writable bytes are posted. -/
def postedRing : VringLayout := ⟨0, 64, 80, 4, by decide⟩

def postedMemory : List UInt8 :=
  let descriptor (addr len : UInt8) : List UInt8 :=
    [addr, 0, 0, 0, 0, 0, 0, 0, len, 0, 0, 0, 2, 0, 0, 0]
  descriptor 116 2 ++ descriptor 118 0 ++ descriptor 120 3 ++ descriptor 0 0 ++
    [0, 0, 3, 0, 0, 0, 1, 0, 2, 0, 0, 0, 0, 0, 0, 0] ++ List.replicate 48 0

def postedEvents : List Event :=
  [.push [1, 2, 3] [], .elsewhere postedMemory (fun _ => some postedRing) (fun _ => 0) [(0, 0)],
    .kick [id, id, id, id], .push [4] [id], .push [5, 6] []]

def emptyHost : Host Console := ⟨[], 0, fun _ => none, fun _ => 0, [], [], ⟨[], []⟩⟩

example : usedOnReceiveq (Runs.run step emptyHost postedEvents) = [(0, 2), (1, 0), (2, 1)] := by
  decide +kernel

theorem console_input_stream_posted :
    let h' := Runs.run step emptyHost postedEvents
    h'.own.delivered ++ h'.own.pending = [1, 2, 3, 4, 5, 6] :=
  (console_input_stream emptyHost ⟨rfl, rfl⟩ postedEvents).1

end NixWasm.ConsoleDevice
