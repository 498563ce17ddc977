import NixWasm.Runs
import NixWasm.SndDevice

/-!
What the playback device does with the buffers that the guest posts. Those taken are those
completed and those pending, and with those still in the queue they are the posted ones in
their order. A buffer completes while its stream runs, or in a release, or with an error; a
release leaves none. This needs buffers that can be read and written and that name the one
stream, and a sink that says what it has buffered.
-/
namespace NixWasm.SndDevice

open Bytes Effects Runs

/-- The stream that a buffer names, if it is long enough to name one. -/
def streamOf (chain : Chain) : Option ℕ :=
  chain.out.bind fun buf => if buf.length < pcmXferLen then none else some (leValue (buf.take 4))

/-- A release of the one stream. -/
def IsRelease (req : List UInt8) : Prop :=
  8 ≤ req.length ∧ leValue (req.take 4) = rPcmRelease ∧ leValue ((req.drop 4).take 4) = theStream

structure Disciplined (d : Snd) : Prop where
  once : d.popped = d.done.map Done.chain ++ d.txPending.map SndTxPending.chain
  order : d.posted = d.popped.map some ++ d.txRing.getD []
  running : ∀ x ∈ d.done, x.released = true ∨ x.status ≠ sOk ∨
    x.running = true ∧ streamOf x.chain = some theStream
  emptied : ∀ r ∈ d.replies, IsRelease r.request → r.outstanding = 0

/-- A buffer that can be read and written, and names no other stream. -/
def Fit (chain : Chain) : Prop :=
  chain.out.isSome ∧ chain.room.isSome ∧ ∀ stream ∈ streamOf chain, stream = theStream

/-- The sink says what it has buffered. -/
def Quiet (sink : Option SndSink) : Prop := ∀ s ∈ sink, ∃ n, s.bufferedBytes = .ok n

def Event.Fit : Event → Prop
  | .postTx chain => ∃ c ∈ chain, SndDevice.Fit c
  | .setSink sink => Quiet sink
  | _ => True

structure Sound (d : Snd) : Prop extends Disciplined d where
  fit : ∀ entry ∈ d.txRing.getD [], ∃ c ∈ entry, Fit c
  held : ∀ p ∈ d.txPending, p.chain.room.isSome ∧
    (p.ok = true → streamOf p.chain = some theStream)
  quiet : Quiet d.sink
  timer : d.txTimer.isSome → d.running = true
  unset : d.txRing = none → d.txPending = []

theorem sound_new : Sound .new where
  once := rfl
  order := rfl
  running _ h := absurd h List.not_mem_nil
  emptied _ h := absurd h List.not_mem_nil
  fit _ h := absurd h List.not_mem_nil
  held _ h := absurd h List.not_mem_nil
  quiet _ h := by cases h
  timer h := by cases h
  unset _ := rfl

section Complete

variable {d : Snd} {R : Thrown → Snd → Prop}

theorem wp_bufferedBytes (h : Quiet d.sink) {Q : ℕ → Snd → Prop} (hq : ∀ n, Q n d) :
    Wp bufferedBytes Q R d := by
  simp only [bufferedBytes, wp_bind, wp_get]
  cases hsink : d.sink with
  | none => exact hq 0
  | some sink =>
    obtain ⟨n, hn⟩ := h sink hsink
    rw [Option.map_some, hn]
    exact hq _

/-- A buffer that can be written completes. -/
theorem wp_completeTx (h : Quiet d.sink) {p : SndTxPending} (hroom : p.chain.room.isSome)
    (released : Bool) {Q : Unit → Snd → Prop}
    (hq : ∀ latency written, Q () { d with
      done := d.done ++ [⟨p.chain, if p.ok then sOk else sBadMsg, latency, written, d.running,
        released⟩] }) : Wp (completeTx released p) Q R d := by
  obtain ⟨capacity, hcapacity⟩ := Option.isSome_iff_exists.mp hroom
  simp only [completeTx, wp_bind]
  refine wp_bufferedBytes h fun latency => ?_
  rw [writeIn, hcapacity]
  exact hq latency _

/-- The first pending buffer becomes the last that is done. -/
theorem Sound.complete (h : Sound d) {p : SndTxPending} {rest : List SndTxPending}
    (hpending : d.txPending = p :: rest) {released : Bool}
    (hcause : released = true ∨ d.running = true) (latency written : ℕ) :
    Sound { d with
      txPending := rest
      done := d.done ++ [⟨p.chain, if p.ok then sOk else sBadMsg, latency, written, d.running,
        released⟩] } := by
  have hp : p ∈ d.txPending := hpending ▸ List.mem_cons_self
  refine { h with once := ?_, running := fun x hx => ?_, held := fun q hq => ?_, unset := ?_ }
  · rw [h.once, hpending]
    simp
  · rcases List.mem_append.mp hx with hx | hx
    · exact h.running x hx
    · rw [List.mem_singleton.mp hx]
      rcases hcause with hreleased | hrunning
      · exact Or.inl hreleased
      · by_cases hok : p.ok = true
        · exact Or.inr (Or.inr ⟨hrunning, (h.held p hp).2 hok⟩)
        · refine Or.inr (Or.inl ?_)
          rw [if_neg hok]
          exact (by decide : sBadMsg ≠ sOk)
  · exact h.held q (hpending ▸ List.mem_cons_of_mem p hq)
  · intro hnone
    have hempty := h.unset hnone
    rw [hpending] at hempty
    cases hempty

end Complete

/-- A running stream. -/
def Playing (d : Snd) : Prop := Sound d ∧ d.running = true

theorem playing_pumpLoop (now fuel : ℕ) : Keeps Playing (pumpLoop now fuel) := by
  induction fuel with
  | zero => exact keeps_pure ()
  | succ fuel ih =>
    intro d hd
    obtain ⟨h, hrunning⟩ := hd
    simp only [pumpLoop, wp_bind, wp_get]
    cases hpending : d.txPending with
    | nil => exact ⟨h, hrunning⟩
    | cons p rest =>
      simp only [wp_ite, wp_modify, wp_bind]
      refine ⟨fun _ => ⟨{ h with timer := fun _ => hrunning }, hrunning⟩, fun _ => ?_⟩
      have hp : p ∈ d.txPending := hpending ▸ List.mem_cons_self
      refine wp_completeTx (d := { d with txPending := rest }) h.quiet (h.held p hp).1 false
        fun latency written => ?_
      exact ih _ ⟨h.complete hpending (Or.inr hrunning) latency written, hrunning⟩

theorem playing_pumpTx (now : ℕ) : Keeps Playing (pumpTx now) := by
  unfold pumpTx
  exact keeps_bind keeps_get fun d => keeps_ite (keeps_pure ()) (playing_pumpLoop now _)

/-- A chain taken from the queue of a sound device. -/
theorem wp_nextTx {d : Snd} (h : Sound d) {Q : Option Chain → Snd → Prop}
    {R : Thrown → Snd → Prop} (hnone : d.txRing.getD [] = [] → Q none d)
    (hsome : ∀ chain rest, d.txRing = some (some chain :: rest) → Fit chain →
      Q (some chain) { d with txRing := some rest, popped := d.popped ++ [chain] }) :
    Wp nextTx Q R d := by
  simp only [nextTx, wp_bind, wp_get]
  cases hring : d.txRing with
  | none => exact hnone (by rw [hring]; rfl)
  | some ring =>
    cases ring with
    | nil => exact hnone (by rw [hring]; rfl)
    | cons entry rest =>
      obtain ⟨chain, hchain, hfit⟩ := h.fit entry (by rw [hring]; exact List.mem_cons_self)
      cases hchain
      exact hsome chain rest hring hfit

theorem wp_readOut {d : Snd} {chain : Chain} (h : Fit chain) {Q : List UInt8 → Snd → Prop}
    {R : Thrown → Snd → Prop} (hq : ∀ buf, chain.out = some buf → Q buf d) :
    Wp (readOut chain) Q R d := by
  obtain ⟨buf, hbuf⟩ := Option.isSome_iff_exists.mp h.1
  rw [readOut, hbuf]
  exact hq buf hbuf

/-- A chain that was taken waits for its completion. -/
theorem Sound.hold {d : Snd} (h : Sound d) {p : SndTxPending} {rest : List (Option Chain)}
    (hring : d.txRing = some (some p.chain :: rest)) (hfit : Fit p.chain) {buf : List UInt8}
    (hbuf : p.chain.out = some buf) (hok : p.ok = true → pcmXferLen ≤ buf.length)
    {consumedBytes playhead : ℕ} {played : List (List UInt8)} :
    Sound { d with
      consumedBytes
      played
      playhead
      txRing := some rest
      popped := d.popped ++ [p.chain]
      txPending := d.txPending ++ [p] } := by
  refine { h with once := ?_, order := ?_, fit := ?_, held := fun q hq => ?_, unset := ?_ }
  · change d.popped ++ [p.chain] = _
    rw [h.once]
    simp
  · change d.posted = (d.popped ++ [p.chain]).map some ++ rest
    rw [h.order, hring]
    simp
  · intro entry hentry
    exact h.fit entry (by rw [hring]; exact List.mem_cons_of_mem _ hentry)
  · rcases List.mem_append.mp hq with hq | hq
    · exact h.held q hq
    · rw [List.mem_singleton.mp hq]
      refine ⟨hfit.2.1, fun htrue => ?_⟩
      have hstream : streamOf p.chain = some (leValue (buf.take 4)) := by
        rw [streamOf, hbuf, Option.bind_some, if_neg (not_lt.mpr (hok htrue))]
      rw [hstream, hfit.2.2 _ hstream]
  · intro hnone
    cases hnone

theorem playing_serviceLoop (now fuel : ℕ) : Keeps Playing (serviceLoop now fuel) := by
  induction fuel with
  | zero => exact keeps_pure ()
  | succ fuel ih =>
    intro d hd
    obtain ⟨h, hrunning⟩ := hd
    simp only [serviceLoop, wp_bind]
    refine wp_nextTx h (fun _ => ⟨h, hrunning⟩) fun chain rest hring hfit => ?_
    simp only [wp_bind]
    refine wp_readOut hfit fun buf hbuf => ?_
    simp only [deliver, wp_bind, wp_ite, wp_pure, wp_get, wp_modify]
    refine ⟨fun _ => ?_, fun hlong => ⟨fun _ => ?_, fun _ => ?_⟩⟩
    · exact ih _ ⟨h.hold (p := ⟨chain, _, false, _⟩) hring hfit hbuf
        (fun hfalse => absurd hfalse Bool.false_ne_true), hrunning⟩
    · exact ih _ ⟨h.hold (p := ⟨chain, _, true, _⟩) hring hfit hbuf
        (fun _ => not_lt.mp hlong), hrunning⟩
    · exact ih _ ⟨h.hold (p := ⟨chain, _, true, _⟩) hring hfit hbuf
        (fun _ => not_lt.mp hlong), hrunning⟩

theorem sound_serviceTx (now : ℕ) : Keeps Sound (serviceTx now) := by
  intro d h
  simp only [serviceTx, wp_bind, wp_get]
  cases d.txRing with
  | none => exact h
  | some ring =>
    rw [wp_ite]
    refine ⟨fun _ => h, fun hrunning => ?_⟩
    have hplay : Playing d := ⟨h, by simpa using hrunning⟩
    exact (keeps_bind (playing_serviceLoop now _) (fun _ => playing_pumpTx now) d hplay).mono
      (fun _ _ hd => hd.1) fun _ _ hd => hd.1

/-- No buffer is left. -/
def Emptied (d : Snd) : Prop := d.txPending = [] ∧ d.txRing.getD [] = []

theorem wp_releasePending {fuel : ℕ} :
    ∀ {d : Snd}, Sound d → d.running = false → d.txPending.length ≤ fuel →
      Wp (releasePending fuel) (fun _ d' => Sound d' ∧ d'.txPending = [] ∧
        d'.txRing = d.txRing) (fun _ _ => False) d := by
  induction fuel with
  | zero =>
    intro d h _ hfuel
    exact ⟨h, List.length_eq_zero_iff.mp (Nat.le_zero.mp hfuel), rfl⟩
  | succ fuel ih =>
    intro d h hstopped hfuel
    simp only [releasePending, wp_bind, wp_get]
    cases hpending : d.txPending with
    | nil => exact ⟨h, hpending, rfl⟩
    | cons p rest =>
      simp only [wp_modify, wp_bind]
      have hp : p ∈ d.txPending := hpending ▸ List.mem_cons_self
      refine wp_completeTx (d := { d with txPending := rest }) h.quiet (h.held p hp).1 true
        fun latency written => ?_
      rw [hpending, List.length_cons] at hfuel
      exact ih (h.complete hpending (Or.inl rfl) latency written) hstopped
        (Nat.le_of_succ_le_succ hfuel)

theorem wp_releaseRing {fuel : ℕ} :
    ∀ {d : Snd}, Sound d → d.txPending = [] → (d.txRing.getD []).length < fuel →
      Wp (releaseRing fuel) (fun _ d' => Sound d' ∧ Emptied d') (fun _ _ => False) d := by
  induction fuel with
  | zero =>
    intro d _ _ hfuel
    exact absurd hfuel (Nat.not_lt_zero _)
  | succ fuel ih =>
    intro d h hpending hfuel
    simp only [releaseRing, wp_bind]
    refine wp_nextTx h (fun hempty => ⟨h, hpending, hempty⟩) fun chain rest hring hfit => ?_
    simp only [wp_bind]
    refine wp_completeTx (d := { d with txRing := some rest, popped := d.popped ++ [chain] })
      (p := ⟨chain, 0, true, 0⟩) h.quiet hfit.2.1 true fun latency written => ?_
    refine ih ?_ hpending ?_
    · refine { h with
        once := ?_, order := ?_, running := fun x hx => ?_, fit := ?_, unset := ?_ }
      · change d.popped ++ [chain] = _
        rw [h.once, hpending]
        simp
      · change d.posted = (d.popped ++ [chain]).map some ++ rest
        rw [h.order, hring]
        simp
      · rcases List.mem_append.mp hx with hx | hx
        · exact h.running x hx
        · rw [List.mem_singleton.mp hx]
          exact Or.inl rfl
      · intro entry hentry
        exact h.fit entry (by rw [hring]; exact List.mem_cons_of_mem _ hentry)
      · intro hnone
        cases hnone
    · rw [hring, Option.getD_some, List.length_cons] at hfuel
      exact Nat.lt_of_succ_lt_succ hfuel

theorem wp_completePendingTx {d : Snd} (h : Sound d) (hstopped : d.running = false) :
    Wp completePendingTx (fun _ d' => Sound d' ∧ Emptied d') (fun _ _ => False) d := by
  have hpaused : Sound { d with txTimer := none } := { h with timer := fun hset => by cases hset }
  have hstill : ({ d with txTimer := none } : Snd).running = false := hstopped
  unfold completePendingTx pauseTx
  rw [wp_bind, wp_modify, wp_bind, wp_get]
  generalize ({ d with txTimer := none } : Snd) = e at hpaused hstill ⊢
  cases hring : e.txRing with
  | none => exact ⟨hpaused, hpaused.unset hring, by rw [hring]; rfl⟩
  | some ring =>
    simp only [wp_bind]
    refine (wp_releasePending hpaused hstill (Nat.le_refl _)).mono (fun _ d' hd' => ?_)
      fun _ _ hfalse => hfalse
    obtain ⟨h', hpending, hsame⟩ := hd'
    refine wp_releaseRing h' hpending ?_
    rw [hsame, hring]
    exact Nat.lt_succ_self _

theorem keeps_callSink {I : Snd → Prop} (callback : SndSink → Option Thrown) :
    Keeps I (callSink callback) := by
  intro d hd
  simp only [callSink, wp_bind, wp_get]
  cases d.sink.bind callback with
  | none => exact hd
  | some e => exact hd

theorem sound_start (now : ℕ) : Keeps Sound (start now) :=
  keeps_bind (keeps_modify fun _ h => { h with
    running := h.running
    timer := fun _ => rfl }) fun _ => keeps_bind (keeps_callSink _) fun _ => sound_serviceTx now

theorem sound_stop : Keeps Sound stop := by
  intro d h
  have hpaused : Sound { d with running := false, txTimer := none } :=
    { h with
      running := h.running
      timer := fun hset => by cases hset }
  simp only [stop, pauseTx, wp_bind, wp_modify]
  exact keeps_callSink _ _ hpaused

/-- A release keeps nothing back, whatever the sink does. -/
theorem wp_release {d : Snd} (h : Sound d) :
    Wp release (fun _ d' => Sound d' ∧ Emptied d') (fun _ d' => Sound d' ∧ Emptied d') d := by
  simp only [release, wp_bind, wp_modify]
  -- without its timer the stopped stream is sound
  have hstopped : Sound { d with prepared := false, running := false, txTimer := none } :=
    { h with
      running := h.running
      timer := fun hset => by cases hset }
  exact (wp_completePendingTx hstopped rfl).mono
    (fun _ d' hd' => keeps_callSink (I := fun d => Sound d ∧ Emptied d) _ d' hd')
    fun _ _ hfalse => hfalse.elim

theorem sound_setParams (req : List UInt8) : Keeps Sound (handleSetParams req) := by
  unfold handleSetParams
  refine keeps_ite (keeps_pure _) (keeps_ite (keeps_pure _) ?_)
  refine keeps_ite (keeps_pure _) (keeps_bind (keeps_modify fun _ h => { h with }) fun _ => ?_)
  exact keeps_bind (keeps_callSink _) fun _ => keeps_pure _

/-- What holds after a control request. -/
def Answered (req : List UInt8) (d : Snd) : Prop := Sound d ∧ (IsRelease req → Emptied d)

/-- The four requests that move the stream; only a release has to empty it. -/
theorem wp_pcmCommand (now code : ℕ) {d : Snd} (h : Sound d) :
    Wp (pcmCommand now code) (fun _ d' => Sound d' ∧ (code = rPcmRelease → Emptied d'))
      (fun _ d' => Sound d' ∧ (code = rPcmRelease → Emptied d')) d := by
  have hother : ∀ {x : Js Snd Unit}, code ≠ rPcmRelease → Keeps Sound x →
      Wp x (fun _ d' => Sound d' ∧ (code = rPcmRelease → Emptied d'))
        (fun _ d' => Sound d' ∧ (code = rPcmRelease → Emptied d')) d := fun hne hx =>
    (hx d h).mono (fun _ _ hd => ⟨hd, fun hrel => absurd hrel hne⟩)
      fun _ _ hd => ⟨hd, fun hrel => absurd hrel hne⟩
  unfold pcmCommand
  rw [wp_ite, wp_ite, wp_ite]
  refine ⟨fun hcode => ?_, fun _ => ⟨fun hcode => ?_, fun _ => ⟨fun hcode => ?_, fun _ => ?_⟩⟩⟩
  · exact hother (by rw [hcode]; decide) (keeps_modify fun _ h => { h with })
  · exact hother (by rw [hcode]; decide) (sound_start now)
  · exact hother (by rw [hcode]; decide) sound_stop
  · exact (wp_release h).mono (fun _ _ hd => ⟨hd.1, fun _ => hd.2⟩)
      fun _ _ hd => ⟨hd.1, fun _ => hd.2⟩

theorem wp_handleControl (now : ℕ) (req : List UInt8) {d : Snd} (h : Sound d) :
    Wp (handleControl now req) (fun _ => Answered req) (fun _ => Answered req) d := by
  have hother : ∀ {x : Js Snd (List UInt8)}, ¬IsRelease req → Keeps Sound x →
      Wp x (fun _ => Answered req) (fun _ => Answered req) d := fun hnot hx =>
    (hx d h).mono (fun _ _ hd => ⟨hd, fun hrel => absurd hrel hnot⟩)
      fun _ _ hd => ⟨hd, fun hrel => absurd hrel hnot⟩
  have hcode : ∀ {code : ℕ}, leValue (req.take 4) = code → code ≠ rPcmRelease → ¬IsRelease req :=
    fun hcode hne hrel => hne (hcode.symm.trans hrel.2.1)
  unfold handleControl
  dsimp only
  rw [wp_ite]
  refine ⟨fun hshort => hother ?_ (keeps_pure _), fun _ => ?_⟩
  · rintro ⟨hlen, -⟩
    have : req.length < 4 := hshort
    omega
  rw [wp_ite]
  refine ⟨fun hinfo => hother (hcode hinfo (by decide)) (keeps_pure _), fun _ => ?_⟩
  rw [wp_ite]
  refine ⟨fun hset => hother (hcode hset (by decide)) (sound_setParams req), fun _ => ?_⟩
  rw [wp_ite]
  refine ⟨fun _ => ?_, fun hmember => ?_⟩
  · rw [wp_ite]
    refine ⟨fun hshort => hother (fun hrel => by have := hrel.1; omega) (keeps_pure _), fun _ => ?_⟩
    rw [wp_ite]
    refine ⟨fun hstream => hother (fun hrel => hstream hrel.2.2) (keeps_pure _), fun _ => ?_⟩
    rw [wp_bind]
    exact (wp_pcmCommand now _ h).mono (fun _ _ hd => ⟨hd.1, fun hrel => hd.2 hrel.2.1⟩)
      fun _ _ hd => ⟨hd.1, fun hrel => hd.2 hrel.2.1⟩
  · have hnot : ¬IsRelease req := fun hrel => hmember (by rw [hrel.2.1]; decide)
    exact hother hnot (keeps_ite (keeps_pure _) (keeps_pure _))

theorem sound_controlLoop (now fuel : ℕ) : Keeps Sound (controlLoop now fuel) := by
  induction fuel with
  | zero => exact keeps_pure ()
  | succ fuel ih =>
    have hnext : Keeps Sound nextControl := by
      intro d h
      simp only [nextControl, wp_bind, wp_get]
      split
      · exact { h with }
      · exact h
      · exact h
    have hread : ∀ chain, Keeps Sound (readOut chain) := fun chain d h => by
      cases hout : chain.out <;> simpa [readOut, hout] using h
    refine keeps_bind hnext fun taken => ?_
    cases taken with
    | none => exact keeps_pure ()
    | some chain =>
      refine keeps_bind (hread chain) fun req d h => ?_
      simp only [wp_bind, wp_tryCatch]
      have hanswered := wp_handleControl now req h
      have hrest : ∀ (resp : List UInt8) (d : Snd), Answered req d →
          Wp (do
            let written ← writeIn chain resp
            modify fun d =>
              { d with replies := d.replies ++
                [⟨req, resp.take written, d.txPending.length + (d.txRing.getD []).length⟩] }
            controlLoop now fuel) (fun _ => Sound) (fun _ => Sound) d := by
        intro resp d hd
        rw [wp_bind]
        cases hroom : chain.room with
        | none =>
          simp only [writeIn, hroom]
          exact hd.1
        | some capacity =>
          simp only [writeIn, hroom]
          refine ih _ { hd.1 with emptied := fun r hr hrel => ?_ }
          rcases List.mem_append.mp hr with hr | hr
          · exact hd.1.emptied r hr hrel
          · rw [List.mem_singleton.mp hr] at hrel ⊢
            obtain ⟨hpending, hring⟩ := hd.2 hrel
            change d.txPending.length + (d.txRing.getD []).length = 0
            rw [hpending, hring]
            rfl
      exact hanswered.mono (fun resp d' hd => hrest resp d' hd) fun _ d' hd => hrest _ d' hd

theorem sound_step {d : Snd} (h : Sound d) {e : Event} (he : e.Fit) : Sound (step d e) := by
  cases e with
  | setUp q =>
    rw [step]
    split
    · exact { h with }
    · split
      · exact { h with unset := fun hnone => by cases hnone }
      · exact h
  | postControl chain => exact { h with }
  | postTx chain =>
    rw [step]
    cases hring : d.txRing with
    | none =>
      rw [if_neg (by decide)]
      exact h
    | some ring =>
      rw [if_pos (by rfl)]
      refine { h with order := ?_, fit := fun entry hentry => ?_, unset := ?_ }
      · change d.posted ++ [chain] = d.popped.map some ++ (ring ++ [chain])
        rw [h.order, hring]
        simp
      · rcases List.mem_append.mp hentry with hentry | hentry
        · exact h.fit entry (by rw [hring]; exact hentry)
        · rw [List.mem_singleton.mp hentry]
          exact he
      · intro hnone
        cases hnone
  | notify q now =>
    have hkeeps : Keeps Sound (onNotify q now) := by
      refine keeps_ite ?_ (keeps_ite (sound_serviceTx now) (keeps_pure ()))
      refine keeps_bind keeps_get fun d => ?_
      cases d.controlRing with
      | none => exact keeps_pure ()
      | some ring => exact sound_controlLoop now _
    exact (hkeeps d h).final
  | timer now =>
    have hfire : Wp (onTimer now) (fun _ => Sound) (fun _ => Sound) d := by
      simp only [onTimer, wp_bind, wp_get, wp_ite, wp_modify]
      refine ⟨fun hset => ?_, fun _ => h⟩
      have hrunning := h.timer hset
      have hplay : Playing { d with txTimer := none } :=
        ⟨{ h with timer := fun hset => by cases hset }, hrunning⟩
      exact (playing_pumpTx now _ hplay).mono (fun _ _ hd => hd.1) fun _ _ hd => hd.1
    exact hfire.final
  | setSink sink => exact { h with quiet := he }

theorem sound_run (events : List Event) :
    ∀ {d : Snd}, Sound d → (∀ e ∈ events, e.Fit) → Sound (run step d events) := by
  induction events with
  | nil =>
    intro d h _
    exact h
  | cons e events ih =>
    intro d h hfit
    exact ih (sound_step h (hfit e List.mem_cons_self)) fun e' he =>
      hfit e' (List.mem_cons_of_mem e he)

/-- In every run with buffers that can be read and written and name the one stream, and with
sinks that say what they have buffered, the device keeps its discipline. -/
theorem disciplined_run (events : List Event) (h : ∀ e ∈ events, e.Fit) :
    Disciplined (run step .new events) :=
  (sound_run events sound_new h).toDisciplined

def pcmRequest (code stream : ℕ) : Event :=
  .postControl (some ⟨0, some (leBytes 4 code ++ leBytes 4 stream), some 4⟩)

/-- A buffer of one frame of two channels. -/
def oneFrame (head stream : ℕ) : Chain := ⟨head, some (leBytes 4 stream ++ leBytes 4 0), some 8⟩

theorem disciplined_playback :
    Disciplined (run step .new [.setUp vqControl, .setUp vqTx, .postTx (some (oneFrame 1 0)),
      pcmRequest rPcmStart 0, .notify vqControl 0, .postTx (some (oneFrame 2 0)), .notify vqTx 0,
      pcmRequest rPcmStop 0, pcmRequest rPcmRelease 0, .notify vqControl 480]) := by
  refine disciplined_run _ fun e he => ?_
  have hfit : ∀ head, Fit (oneFrame head 0) := fun head =>
    ⟨rfl, rfl, fun stream hstream => (Option.some.inj hstream).symm⟩
  simp only [List.mem_cons, List.not_mem_nil, or_false] at he
  rcases he with rfl | rfl | rfl | rfl | rfl | rfl | rfl | rfl | rfl | rfl
  · trivial
  · trivial
  · exact ⟨_, rfl, hfit 1⟩
  · trivial
  · trivial
  · exact ⟨_, rfl, hfit 2⟩
  all_goals trivial

/-- While the one stream runs, a buffer for stream 7 completes with OK; a buffer that cannot be
read, or one whose completion meets a throwing sink, is taken and never completed. -/
theorem undisciplined_playback :
    ¬Disciplined (run step .new [.setUp vqControl, .setUp vqTx, pcmRequest rPcmStart 0,
      .notify vqControl 0, .postTx (some (oneFrame 1 7)), .notify vqTx 0]) ∧
    ¬Disciplined (run step .new [.setUp vqControl, .setUp vqTx, pcmRequest rPcmStart 0,
      .notify vqControl 0, .postTx (some ⟨1, none, some 8⟩), .notify vqTx 0]) ∧
    ¬Disciplined (run step .new [.setUp vqControl, .setUp vqTx,
      .setSink (some ⟨none, none, none, none, .error outOfBounds⟩), pcmRequest rPcmStart 0,
      .notify vqControl 0, .postTx (some (oneFrame 1 0)), .notify vqTx 0]) := by
  refine ⟨fun h => absurd h.running ?_, fun h => absurd h.once ?_, fun h => absurd h.once ?_⟩
  · decide +kernel
  · decide +kernel
  · decide +kernel

end NixWasm.SndDevice
