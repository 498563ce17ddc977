import NixWasm.Runs
import NixWasm.WlStreams

/-!
The delivery of the virtio-wl device's messages over whole runs. The streams sent and those
received are kept side by side: what has been received and what still waits make up what
was sent, as long as each message with fds fits a page. One that does not is cut off.
-/
namespace NixWasm.WlDevice

open Bytes Runs

/-- A guest that closes a pipe begins its id anew. -/
def forget (streams : ℕ → Stream) : Event → ℕ → Stream
  | .guestPipe vfdId false => Function.update streams (vfdId % 2 ^ 32) .empty
  | _ => streams

/-- The device with the streams sent, the streams received and the buffers used. -/
structure World where
  device : Wl
  sent : ℕ → Stream
  got : ℕ → Stream
  used : List Delivery

namespace World

def start : World := ⟨.new, fun _ => .empty, fun _ => .empty, []⟩

def step (w : World) (e : Event) : World :=
  let (device, used) := w.device.react e
  { device
    sent := forget ((sends w.device e).foldl post w.sent) e
    got := forget ((used.filterMap fun d => received d.written).foldl post w.got) e
    used := w.used ++ used }

/-- What is received so far is right, messages fit their buffers, and buffers enough
for what waits bring the rest. -/
structure Exact (w : World) : Prop where
  order : ∀ v, (w.got v).Before (w.sent v)
  fits : ∀ d ∈ w.used, d.message.length ≤ d.capacity
  whole : ∀ n, w.device.pendingIn.length ≤ n →
    (run step w [.refill n, .flushIn]).got = w.sent ∧
      ∀ d ∈ (run step w [.refill n, .flushIn]).used, d.message.length ≤ d.capacity

end World

/-- What the loop leaves and what it puts into the buffers. -/
theorem flushLoop_eq (entries : List WlPendingIn) (avail : List ℕ) :
    flushLoop entries avail = (entries.drop avail.length, avail.drop entries.length,
      List.zipWith (fun entry capacity =>
        ⟨capacity, entry.message, writeIn capacity entry.message⟩) entries avail) := by
  induction entries generalizing avail with
  | nil => simp [flushLoop]
  | cons entry rest ih =>
    cases avail with
    | nil => rfl
    | cons capacity avail => simp [flushLoop, ih]

/-- Every in-buffer of the device is a page. -/
def Paged (w : Wl) : Prop := ∀ capacity ∈ w.vringIn.getD [], capacity = pageSize

/-- The device after an event, before what waits is delivered. -/
def Wl.queued (w : Wl) : Event → Wl
  | .injectIn clientId data fds => w.queueInjection clientId data fds
  | .pipeWrite vfdId data =>
    if vfdId % 2 ^ 32 ∈ w.guestPipes ∧ data ≠ [] then w.queueIn (vfdId % 2 ^ 32) data else w
  | .pipeClose vfdId =>
    if vfdId % 2 ^ 32 ∈ w.guestPipes then
      { w with guestPipes := w.guestPipes.erase (vfdId % 2 ^ 32) }.queueRaw
        (vfdHup (vfdId % 2 ^ 32))
    else w
  | .guestPipe vfdId opened => w.guestPipe vfdId opened
  | .refill n => w.refill n
  | .flushIn => w

/-- An event queues, and may flush. -/
theorem react_eq (w : Wl) (e : Event) :
    w.react e = (w.queued e).flushPendingIn ∨ w.react e = (w.queued e, []) := by
  cases e with
  | injectIn clientId data fds => exact Or.inl rfl
  | pipeWrite vfdId data =>
    by_cases hopen : vfdId % 2 ^ 32 ∈ w.guestPipes
    · have hreact : w.react (.pipeWrite vfdId data) =
          (if data = [] then w else w.queueIn (vfdId % 2 ^ 32) data).flushPendingIn := if_pos hopen
      rw [hreact]
      by_cases hdata : data = []
      · have hqueued : w.queued (.pipeWrite vfdId data) = w := if_neg fun h => h.2 hdata
        rw [if_pos hdata, hqueued]
        exact Or.inl rfl
      · have hqueued : w.queued (.pipeWrite vfdId data) = w.queueIn (vfdId % 2 ^ 32) data :=
          if_pos ⟨hopen, hdata⟩
        rw [if_neg hdata, hqueued]
        exact Or.inl rfl
    · have hreact : w.react (.pipeWrite vfdId data) = (w, []) := if_neg hopen
      have hqueued : w.queued (.pipeWrite vfdId data) = w := if_neg fun h => hopen h.1
      rw [hreact, hqueued]
      exact Or.inr rfl
  | pipeClose vfdId =>
    by_cases hopen : vfdId % 2 ^ 32 ∈ w.guestPipes
    · refine Or.inl ((if_pos hopen).trans ?_)
      rw [Wl.queued, if_pos hopen]
    · refine Or.inr ((if_neg hopen).trans ?_)
      rw [Wl.queued, if_neg hopen]
  | guestPipe vfdId opened => exact Or.inr rfl
  | refill n => exact Or.inr rfl
  | flushIn => exact Or.inl rfl

theorem queueInjection_vringIn (w : Wl) (clientId : ℕ) (data : List UInt8) (fds : List WlFd) :
    (w.queueInjection clientId data fds).vringIn = w.vringIn := by
  by_cases hfds : fds = []
  · subst hfds
    rfl
  · rw [queueInjection_fds w clientId data fds hfds]

theorem paged_queued {w : Wl} (h : Paged w) (e : Event) : Paged (w.queued e) := by
  cases e with
  | injectIn clientId data fds =>
    rw [Paged, Wl.queued, queueInjection_vringIn]
    exact h
  | pipeWrite vfdId data =>
    rw [Wl.queued]
    split_ifs
    · exact h
    · exact h
  | pipeClose vfdId =>
    rw [Wl.queued]
    split_ifs
    · exact h
    · exact h
  | guestPipe vfdId opened => cases opened <;> exact h
  | refill n =>
    intro capacity hc
    rcases List.mem_append.mp hc with hc | hc
    · exact h capacity hc
    · exact List.eq_of_mem_replicate hc
  | flushIn => exact h

theorem flushPendingIn_of_avail (w : Wl) (avail : List ℕ) (h : w.vringIn = some avail) :
    w.flushPendingIn =
      ({ w with
        pendingIn := w.pendingIn.drop avail.length
        vringIn := some (avail.drop w.pendingIn.length) },
      List.zipWith (fun entry capacity =>
        ⟨capacity, entry.message, writeIn capacity entry.message⟩) w.pendingIn avail) := by
  simp [Wl.flushPendingIn, h, flushLoop_eq]

theorem paged_flush {w : Wl} (h : Paged w) : Paged w.flushPendingIn.1 := by
  cases havail : w.vringIn with
  | none => simpa [Wl.flushPendingIn, havail] using h
  | some avail =>
    rw [Paged, havail] at h
    rw [flushPendingIn_of_avail w avail havail]
    exact fun capacity hc => h capacity (List.mem_of_mem_drop hc)

theorem paged_react {w : Wl} (h : Paged w) (e : Event) : Paged (w.react e).1 := by
  rcases react_eq w e with he | he <;> rw [he]
  · exact paged_flush (paged_queued h e)
  · exact paged_queued h e

/-- Into pages go the whole messages of sound entries. -/
theorem used_of_pages (entries : List WlPendingIn) (avail : List ℕ)
    (havail : ∀ capacity ∈ avail, capacity = pageSize) (hsound : ∀ e ∈ entries, e.Sound) :
    (List.zipWith (fun entry capacity => Delivery.mk capacity entry.message
        (writeIn capacity entry.message)) entries avail).filterMap (fun d => received d.written) =
      waiting (entries.take avail.length) ∧
    ∀ d ∈ List.zipWith (fun entry capacity => Delivery.mk capacity entry.message
        (writeIn capacity entry.message)) entries avail, d.message.length ≤ d.capacity := by
  induction entries generalizing avail with
  | nil => simp [waiting]
  | cons entry rest ih =>
    cases avail with
    | nil => simp [waiting]
    | cons capacity avail =>
      obtain ⟨hreceived, hfits⟩ := ih avail (fun c hc => havail c (List.mem_cons_of_mem _ hc))
        fun e he => hsound e (List.mem_cons_of_mem _ he)
      have hcapacity : entry.message.length ≤ capacity := by
        rw [havail capacity List.mem_cons_self]
        exact (hsound entry List.mem_cons_self).1
      refine ⟨?_, fun d hd => ?_⟩
      · have hwhole : writeIn capacity entry.message = entry.message :=
          List.take_of_length_le hcapacity
        rw [List.zipWith_cons_cons, List.length_cons, List.take_succ_cons, waiting_cons,
          ← hreceived, hwhole]
        cases hmsg : received entry.message with
        | none => exact List.filterMap_cons_none hmsg
        | some t => exact List.filterMap_cons_some hmsg
      · rcases List.mem_cons.mp hd with rfl | hd
        · exact hcapacity
        · exact hfits d hd

theorem used_messages (entries : List WlPendingIn) (avail : List ℕ) :
    (List.zipWith (fun entry capacity => Delivery.mk capacity entry.message
        (writeIn capacity entry.message)) entries avail).map Delivery.message =
      (entries.take avail.length).map WlPendingIn.message := by
  induction entries generalizing avail with
  | nil => simp
  | cons entry rest ih =>
    cases avail with
    | nil => rfl
    | cons capacity avail => simp [ih]

theorem used_capacity (entries : List WlPendingIn) (avail : List ℕ) :
    ∀ d ∈ List.zipWith (fun entry capacity => Delivery.mk capacity entry.message
        (writeIn capacity entry.message)) entries avail, d.capacity ∈ avail := by
  induction entries generalizing avail with
  | nil => simp
  | cons entry rest ih =>
    cases avail with
    | nil => simp
    | cons capacity avail =>
      intro d hd
      rcases List.mem_cons.mp hd with rfl | hd
      · exact List.mem_cons_self
      · exact List.mem_cons_of_mem _ (ih avail d hd)

/-- Every message that waits is delivered or waits on. -/
theorem flush_messages (w : Wl) :
    w.flushPendingIn.2.map Delivery.message ++
      w.flushPendingIn.1.pendingIn.map WlPendingIn.message =
        w.pendingIn.map WlPendingIn.message := by
  cases havail : w.vringIn with
  | none => simp [Wl.flushPendingIn, havail]
  | some avail =>
    rw [flushPendingIn_of_avail w avail havail, used_messages, ← List.map_append,
      List.take_append_drop]

theorem flush_capacity {w : Wl} (h : Paged w) :
    ∀ d ∈ w.flushPendingIn.2, d.capacity = pageSize := by
  cases havail : w.vringIn with
  | none => simp [Wl.flushPendingIn, havail]
  | some avail =>
    rw [Paged, havail] at h
    rw [flushPendingIn_of_avail w avail havail]
    exact fun d hd => h _ (used_capacity _ _ d hd)

theorem react_capacity {w : Wl} (h : Paged w) (e : Event) :
    ∀ d ∈ (w.react e).2, d.capacity = pageSize := by
  rcases react_eq w e with he | he <;> rw [he]
  · exact flush_capacity (paged_queued h e)
  · exact fun d hd => absurd hd List.not_mem_nil

/-- What a flush delivers and what it leaves make up what waited. -/
theorem flush_waiting {w : Wl} (hpaged : Paged w) (hsound : ∀ e ∈ w.pendingIn, e.Sound) :
    (∀ e ∈ w.flushPendingIn.1.pendingIn, e.Sound) ∧
    waiting w.pendingIn = w.flushPendingIn.2.filterMap (fun d => received d.written) ++
      waiting w.flushPendingIn.1.pendingIn ∧
    ∀ d ∈ w.flushPendingIn.2, d.message.length ≤ d.capacity := by
  cases havail : w.vringIn with
  | none =>
    have hflush : w.flushPendingIn = (w, []) := by simp [Wl.flushPendingIn, havail]
    rw [hflush]
    exact ⟨hsound, rfl, fun d hd => absurd hd List.not_mem_nil⟩
  | some avail =>
    rw [Paged, havail] at hpaged
    obtain ⟨hreceived, hfits⟩ := used_of_pages w.pendingIn avail hpaged hsound
    rw [flushPendingIn_of_avail w avail havail]
    refine ⟨fun e he => hsound e (List.mem_of_mem_drop he), ?_, hfits⟩
    rw [hreceived, ← waiting_append, List.take_append_drop]

/-- What waits after an event that fits is what waited before and what the host sent. -/
theorem queued_waiting {w : Wl} (e : Event) (hfits : e.Fits) (hsound : ∀ e ∈ w.pendingIn, e.Sound) :
    (∀ entry ∈ (w.queued e).pendingIn, entry.Sound) ∧
      ∀ streams, (waiting (w.queued e).pendingIn).foldl post (forget streams e) =
        forget ((sends w e).foldl post ((waiting w.pendingIn).foldl post streams)) e := by
  cases e with
  | injectIn clientId data fds => exact queueInjection_waiting w clientId data fds hfits hsound
  | pipeWrite vfdId data =>
    have hid : vfdId % 2 ^ 32 < 2 ^ 32 := Nat.mod_lt _ (by decide)
    by_cases hopen : vfdId % 2 ^ 32 ∈ w.guestPipes
    · by_cases hdata : data = []
      · subst hdata
        simp only [Wl.queued, sends, forget, hopen]
        refine ⟨by simpa using hsound, fun streams => ?_⟩
        simp [post_nothing]
      · have hqueued : w.queued (.pipeWrite vfdId data) = w.queueIn (vfdId % 2 ^ 32) data :=
          if_pos ⟨hopen, hdata⟩
        have hsends : sends w (.pipeWrite vfdId data) = [⟨vfdId % 2 ^ 32, [], data⟩] := if_pos hopen
        rw [hqueued, hsends]
        refine ⟨fun e he => ?_, fun streams => ?_⟩
        · rcases List.mem_append.mp he with he | he
          · exact hsound e he
          · exact sound_inEntries _ data hid e he
        · rw [Wl.queueIn, waiting_append, List.foldl_append, foldl_inEntries _ _ _ hid]
          rfl
    · have hqueued : w.queued (.pipeWrite vfdId data) = w := if_neg fun h => hopen h.1
      have hsends : sends w (.pipeWrite vfdId data) = [] := if_neg hopen
      rw [hqueued, hsends]
      exact ⟨hsound, fun streams => rfl⟩
  | pipeClose vfdId =>
    rw [Wl.queued]
    split_ifs
    · refine ⟨fun e he => ?_, fun streams => ?_⟩
      · rcases List.mem_append.mp he with he | he
        · exact hsound e he
        · rw [List.mem_singleton.mp he]
          exact sound_raw _ (by simp [vfdHup, pageSize])
      · rw [Wl.queueRaw, waiting_append, List.foldl_append, waiting_cons]
        simp [WlPendingIn.message, received_vfdHup, waiting, forget, sends]
    · exact ⟨hsound, fun streams => rfl⟩
  | guestPipe vfdId opened =>
    cases opened with
    | true => exact ⟨hsound, fun streams => rfl⟩
    | false =>
      refine ⟨fun e he => hsound e (List.mem_filter.mp he).1, fun streams => ?_⟩
      change (waiting (w.pendingIn.filter fun entry => ¬entry.addresses (vfdId % 2 ^ 32))).foldl
        post
        (Function.update streams (vfdId % 2 ^ 32) .empty) = _
      rw [waiting_filter _ _ hsound, foldl_post_forget]
      rfl
  | refill n => exact ⟨hsound, fun streams => rfl⟩
  | flushIn => exact ⟨hsound, fun streams => rfl⟩

namespace World

/-- What is received and what waits make up what was sent. -/
structure Balanced (w : World) : Prop where
  paged : Paged w.device
  sound : ∀ e ∈ w.device.pendingIn, e.Sound
  balance : (waiting w.device.pendingIn).foldl post w.got = w.sent
  fits : ∀ d ∈ w.used, d.message.length ≤ d.capacity

theorem balanced_start : Balanced start :=
  ⟨fun _ hc => absurd hc List.not_mem_nil, fun _ he => absurd he List.not_mem_nil, rfl,
    fun _ hd => absurd hd List.not_mem_nil⟩

/-- An event that flushes nothing of an id it forgets. -/
theorem forget_foldl_post (streams : ℕ → Stream) (ts : List Transfer) (e : Event)
    (h : ts ≠ [] → ∀ s, forget s e = s) :
    forget (ts.foldl post streams) e = ts.foldl post (forget streams e) := by
  by_cases hts : ts = []
  · rw [hts]
    rfl
  · rw [h hts, h hts]

theorem forget_of_flush (w : Wl) (e : Event) (h : (w.react e).2 ≠ []) (s : ℕ → Stream) :
    forget s e = s := by
  cases e with
  | guestPipe vfdId opened => exact absurd rfl h
  | _ => rfl

theorem balanced_step {w : World} (h : Balanced w) (e : Event) (hfits : e.Fits) :
    Balanced (w.step e) := by
  obtain ⟨hsound, hwaiting⟩ := queued_waiting e hfits h.sound
  have hsent : (waiting (w.device.queued e).pendingIn).foldl post (forget w.got e) =
      (w.step e).sent := by
    rw [hwaiting, h.balance]
    rfl
  have hgot : (w.step e).got = ((w.device.react e).2.filterMap fun d => received d.written).foldl
      post (forget w.got e) :=
    forget_foldl_post _ _ e fun hne => forget_of_flush w.device e fun hused =>
      hne (congrArg (List.filterMap fun d => received d.written) hused)
  have hpaged := paged_queued h.paged e
  rcases react_eq w.device e with he | he
  · obtain ⟨hleft, hsplit, hused⟩ := flush_waiting hpaged hsound
    rw [← he] at hleft hsplit hused
    refine ⟨paged_react h.paged e, hleft, ?_, fun d hd => ?_⟩
    · change (waiting (w.device.react e).1.pendingIn).foldl post _ = _
      rw [hgot, ← List.foldl_append, ← hsplit, hsent]
    · rcases List.mem_append.mp hd with hd | hd
      · exact h.fits d hd
      · exact hused d hd
  · refine ⟨paged_react h.paged e, ?_, ?_, fun d hd => ?_⟩
    · change ∀ entry ∈ (w.device.react e).1.pendingIn, entry.Sound
      rw [he]
      exact hsound
    · change (waiting (w.device.react e).1.pendingIn).foldl post _ = _
      rw [hgot, he, List.filterMap_nil, List.foldl_nil, hsent]
    · change d ∈ w.used ++ (w.device.react e).2 at hd
      rw [he, List.append_nil] at hd
      exact h.fits d hd

theorem balanced_run {w : World} (h : Balanced w) (events : List Event)
    (hfits : ∀ e ∈ events, e.Fits) : Balanced (run step w events) := by
  induction events generalizing w with
  | nil => exact h
  | cons e rest ih =>
    exact ih (balanced_step h e (hfits e List.mem_cons_self)) fun e' he' =>
      hfits e' (List.mem_cons_of_mem _ he')

/-- Buffers enough for all that waits are filled with it. -/
theorem drained (w : World) (n : ℕ) (hn : w.device.pendingIn.length ≤ n) :
    (run step w [.refill n, .flushIn]).device.pendingIn = [] ∧
      ∀ entry ∈ w.device.pendingIn, ∃ d ∈ (run step w [.refill n, .flushIn]).used,
        d.message = entry.message := by
  have hmessages := flush_messages (w.device.refill n)
  have hleft : (w.device.refill n).flushPendingIn.1.pendingIn = [] := by
    rw [flushPendingIn_of_avail _ _ rfl]
    refine List.drop_eq_nil_of_le (hn.trans ?_)
    simp
  rw [hleft, List.map_nil, List.append_nil] at hmessages
  refine ⟨hleft, fun entry he => ?_⟩
  obtain ⟨d, hd, hmsg⟩ := List.mem_map.mp (hmessages ▸ List.mem_map_of_mem he)
  exact ⟨d, List.mem_append_right _ hd, hmsg⟩

theorem Balanced.exact {w : World} (h : Balanced w) : Exact w := by
  refine ⟨fun v => ?_, h.fits, fun n hn => ?_⟩
  · rw [← h.balance]
    exact before_foldl_post _ _ v
  · have hdone : Balanced (run step w [.refill n, .flushIn]) :=
      balanced_run h _ (by simp [Event.Fits])
    have hbalance := hdone.balance
    rw [(drained w n hn).1] at hbalance
    exact ⟨hbalance, hdone.fits⟩

/-- The buffers waiting and the buffers used are pages. -/
def Pages (w : World) : Prop := Paged w.device ∧ ∀ d ∈ w.used, d.capacity = pageSize

theorem pages_step (w : World) (e : Event) (h : Pages w) : Pages (w.step e) := by
  refine ⟨paged_react h.1 e, fun d hd => ?_⟩
  rcases List.mem_append.mp hd with hd | hd
  · exact h.2 d hd
  · exact react_capacity h.1 e d hd

theorem pages_run (w : World) (events : List Event) (h : Pages w) : Pages (run step w events) :=
  run_invariant Pages pages_step events h

theorem pages_start : Pages start :=
  ⟨balanced_start.paged, fun _ hd => absurd hd List.not_mem_nil⟩

/-- A message with fds that does not fit its page spoils the state after it. -/
theorem not_exact_of_oversized {w : World} (hw : Pages w) (e : Event) (h : ¬e.Fits) :
    ¬Exact (w.step e) := by
  intro hexact
  cases e with
  | injectIn clientId data fds =>
    obtain ⟨hfds, hsize⟩ := not_or.mp h
    let msg := vfdRecvWithFds (clientId % 2 ^ 32) data (fdIds w.device.nextHostVfdId fds)
    have hmsg : pageSize < msg.length := by
      rw [vfdRecvWithFds_length, fdIds_length]
      omega
    have hpages : Pages (w.step (.injectIn clientId data fds)) := pages_step w _ hw
    have hmem : msg ∈ (w.device.queueInjection clientId data fds).pendingIn.map
        WlPendingIn.message := by
      rw [queueInjection_fds w.device clientId data fds hfds]
      refine List.mem_map.mpr ⟨.raw msg, List.mem_append_right _ (List.mem_map_of_mem ?_), rfl⟩
      exact List.mem_append_right _ List.mem_cons_self
    rw [← flush_messages] at hmem
    rcases List.mem_append.mp hmem with hmem | hmem
    · obtain ⟨d, hd, hdmsg⟩ := List.mem_map.mp hmem
      have hd : d ∈ (w.step (.injectIn clientId data fds)).used := List.mem_append_right _ hd
      have hfits := hexact.fits d hd
      rw [hpages.2 d hd, hdmsg] at hfits
      omega
    · obtain ⟨entry, hentry, hemsg⟩ := List.mem_map.mp hmem
      obtain ⟨d, hd, hdmsg⟩ := (drained (w.step (.injectIn clientId data fds)) _ le_rfl).2
        entry hentry
      have hfits := (hexact.whole _ le_rfl).2 d hd
      rw [(pages_run _ [.refill _, .flushIn] hpages).2 d hd, hdmsg, hemsg] at hfits
      omega
  | _ => exact h trivial

/-- The streams are exact in every state of a run if and only if each message that the host
injects with fds leaves room in its page for the ids and the bytes. -/
theorem streams_exact_iff (events : List Event) :
    (∀ k, Exact (run step start (events.take k))) ↔ ∀ e ∈ events, e.Fits := by
  constructor
  · intro h e he
    obtain ⟨before, after, rfl⟩ := List.append_of_mem he
    by_contra hfits
    have hk := h (before.length + 1)
    have htake : (before ++ e :: after).take (before.length + 1) = before ++ [e] := by
      rw [List.take_append, List.take_of_length_le (by omega)]
      simp
    rw [htake, run_append] at hk
    exact not_exact_of_oversized (pages_run start before pages_start) e hfits hk
  · intro h k
    exact (balanced_run balanced_start _ fun e he => h e (List.mem_of_mem_take he)).exact

/-- A message with one fd fills its page up to byte 4076. -/
theorem injectIn_one_pipe (data : List UInt8) :
    let w := run step start [.refill 2, .injectIn 7 data [.pipe 3]]
    w.device.pendingIn = [] ∧ (w.got 7).bytes = data.take 4076 ∧ (w.sent 7).bytes = data :=
  ⟨rfl, rfl, rfl⟩

/-- A client's message of 4077 bytes with one fd loses its last byte. -/
theorem oversized_message_truncated :
    (run step start [.refill 2, .injectIn 7 (List.replicate 4077 0) [.pipe 3]]).device.pendingIn =
    [] ∧
    ((run step start [.refill 2, .injectIn 7 (List.replicate 4077 0) [.pipe 3]]).got
      7).bytes.length = 4076 ∧
    ((run step start [.refill 2, .injectIn 7 (List.replicate 4077 0) [.pipe 3]]).sent
      7).bytes.length = 4077 ∧
    ¬Exact (run step start [.refill 2, .injectIn 7 (List.replicate 4077 0) [.pipe 3]]) := by
  obtain ⟨hpending, hgot, hsent⟩ := injectIn_one_pipe (List.replicate 4077 0)
  refine ⟨hpending, ?_, ?_, ?_⟩
  · rw [hgot, List.length_take, List.length_replicate]
    rfl
  · rw [hsent, List.length_replicate]
  · have hpages := pages_run start [.refill 2] pages_start
    refine not_exact_of_oversized hpages (.injectIn 7 (List.replicate 4077 0) [.pipe 3]) ?_
    intro hfits
    rcases hfits with hfds | hsize
    · cases hfds
    · rw [List.length_replicate] at hsize
      exact absurd hsize (by decide)

end World

end NixWasm.WlDevice
