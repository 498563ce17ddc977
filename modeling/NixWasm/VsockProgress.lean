import NixWasm.VringPosted
import NixWasm.VsockControl
import NixWasm.VsockStream

/-!
Progress of _flushConnection. A round takes the oldest waiting buffer for a packet whose size
comes from the write and the credit, and a buffer that is too small goes back unused and ends the
loop. So bytes go out exactly when the buffers in front are large enough: one for each empty
write before the first bytes, and one for the packet with these.
-/
namespace NixWasm.VsockDevice

open Effects Virtio

/-- One round of the loop of _flushConnection; false where it ends. -/
def flushRound (r : Ref) : Js (Host Vsock) Bool := do
  let c ← conn r
  match c.pendingTx with
  | [] => return false
  | head :: rest =>
    if c.creditAvailable = 0 then return false
    else
      let n := min head.length c.creditAvailable
      let ok ← pushRx c.hostPort c.guestPort opRw (head.take n) 0 (some r)
      if ok then
        modifyConn r fun c =>
          { c with
            txCnt := (c.txCnt + n) % 2 ^ 32
            pendingTx := if head.length ≤ n then rest else head.drop n :: rest }
        return true
      else return false

/-- So many rounds, none of which ends the loop. -/
inductive Rounds (r : Ref) : ℕ → Host Vsock → Host Vsock → Prop
  | none {h : Host Vsock} : Rounds r 0 h h
  | more {n : ℕ} {h h' h'' : Host Vsock} (hround : flushRound r h = .ok true h')
    (hrest : Rounds r n h' h'') : Rounds r (n + 1) h h''

/-- A data packet with these ports and a payload is in the buffer. -/
structure RxDelivery.Data (d : RxDelivery) (pair : ℕ × ℕ) : Prop where
  faithful : d.toDelivery.Faithful
  op : d.hdr.op = opRw
  srcPort : d.hdr.srcPort = pair.1 % 2 ^ 32
  dstPort : d.hdr.dstPort = pair.2 % 2 ^ 32
  payload : d.payload ≠ []

/-- These buffers of the rx queue came back used between the two hosts. -/
def Returned (h h' : Host Vsock) (ds : List RxDelivery) : Prop :=
  h'.own.deliveries = h.own.deliveries ++ ds ∧
    usedOnRx h' = usedOnRx h ++ ds.map fun d => (d.head, d.used)

/-- One of them holds payload bytes. -/
def Gained (pair : ℕ × ℕ) (h h' : Host Vsock) : Prop :=
  ∃ ds, Returned h h' ds ∧ ∃ d ∈ ds, d.Data pair

/-- The flush puts a payload byte of the connection into a buffer of the rx queue. -/
def Delivers (r : Ref) (h : Host Vsock) : Prop :=
  Gained (h.own.heap r).key h (final (flushConnection r h))

/-- The buffers hold `k` empty packets, and then a packet with `size` bytes. -/
def Carries : ℕ → ℕ → List VringChain → Prop
  | _, _, [] => False
  | 0, size, chain :: _ => vsockHdrLen + size ≤ inCapacity chain
  | k + 1, size, chain :: chains => vsockHdrLen ≤ inCapacity chain ∧ Carries k size chains

section Returns
variable {h h₁ h₂ : Host Vsock} {d : RxDelivery} {ds : List RxDelivery} {pair : ℕ × ℕ}

theorem gained_iff (hreturned : Returned h h₁ ds) : Gained pair h h₁ ↔ ∃ d ∈ ds, d.Data pair := by
  refine ⟨fun hgained => ?_, fun hdata => ⟨ds, hreturned, hdata⟩⟩
  obtain ⟨ds', hreturned', hdata⟩ := hgained
  obtain rfl : ds = ds' := List.append_cancel_left (hreturned.1.symm.trans hreturned'.1)
  exact hdata

theorem Returned.trans {more : List RxDelivery} (hfirst : Returned h h₁ ds)
    (hmore : Returned h₁ h₂ more) : Returned h h₂ (ds ++ more) := by
  refine ⟨?_, ?_⟩
  · rw [hmore.1, hfirst.1, List.append_assoc]
  · rw [hmore.2, hfirst.2, List.append_assoc, List.map_append]

/-- One buffer, and those after it. -/
theorem gained_cons (hfirst : Returned h h₁ [d]) (hmore : Returned h₁ h₂ ds) :
    Gained pair h h₂ ↔ d.Data pair ∨ Gained pair h₁ h₂ := by
  rw [gained_iff (hfirst.trans hmore), gained_iff hmore, List.singleton_append]
  simp only [List.mem_cons, or_and_right, exists_or, exists_eq_left]

theorem not_gained_of_empty (hreturned : Returned h h₁ ds) (hempty : ∀ d ∈ ds, d.Empty) :
    ¬ Gained pair h h₁ := by
  rw [gained_iff hreturned]
  rintro ⟨d, hd, hdata⟩
  exact (hempty d hd).op hdata.op

theorem returned_of_grew (hgrew : Grew h h₁) : ∃ ds, Returned h h₁ ds := by
  obtain ⟨_, ⟨-, used, ds, hused, hdeliveries, hbooked⟩, -⟩ := hgrew
  exact ⟨ds, hdeliveries, hbooked.used ▸ hused⟩

end Returns

section Round
variable {r : Ref} {h : Host Vsock}

theorem flushLoop_succ (fuel : ℕ) (r : Ref) :
    flushLoop (fuel + 1) r =
      (flushRound r >>= fun go => if go then flushLoop fuel r else pure ()) := by
  rw [flushLoop, flushRound, bind_assoc]
  refine congrArg _ (funext fun c => ?_)
  cases c.pendingTx with
  | nil => rfl
  | cons head rest =>
    dsimp only
    by_cases hcredit : c.creditAvailable = 0
    · rw [if_pos hcredit, if_pos hcredit, pure_bind]
      rfl
    · rw [if_neg hcredit, if_neg hcredit, bind_assoc]
      refine congrArg _ (funext fun ok => ?_)
      cases ok with
      | false => rfl
      | true =>
        rw [if_pos rfl, if_pos rfl, bind_assoc]
        rfl

/-- A round sends from the front of the pending bytes, within the credit, or gives back a buffer
at most. -/
theorem flushRound_own (r : Ref) (h : Host Vsock) :
    Wp (flushRound r)
      (fun go h' =>
        if go then ∃ head rest d, (h.own.heap r).pendingTx = head :: rest ∧
          (h.own.heap r).creditAvailable ≠ 0 ∧
          h'.own.heap r =
            (h.own.heap r).flushed (min head.length (h.own.heap r).creditAvailable) head rest ∧
          d.Holds (h.own.heap r).key opRw
            (head.take (min head.length (h.own.heap r).creditAvailable)) (some (r, h.own.heap r)) ∧
          Returned h h' [d]
        else ∃ ds, Returned h h' ds ∧ ∀ d ∈ ds, d.Empty)
      (fun _ _ => True) h := by
  have hnothing : ∃ ds, Returned h h ds ∧ ∀ d ∈ ds, d.Empty :=
    ⟨[], ⟨(List.append_nil _).symm, (List.append_nil _).symm⟩, fun _ hd => absurd hd
      List.not_mem_nil⟩
  rw [flushRound]
  simp only [conn, wp_bind, wp_get, wp_pure]
  cases hpending : (h.own.heap r).pendingTx with
  | nil => exact hnothing
  | cons head rest =>
    dsimp only
    rw [wp_ite]
    refine ⟨fun _ => hnothing, fun hcredit => ?_⟩
    rw [wp_bind]
    refine (pushRx_pushes _ _ _ _ _ _ h).mono (fun ok h' hpushes => ?_) fun _ _ _ => trivial
    have hheap := hpushes.heap
    rw [wp_ite]
    refine ⟨fun hok => ?_, fun hok => ?_⟩
    · subst hok
      obtain ⟨d, hd, hown, hused⟩ := hpushes
      simp only [modifyConn, modifyOwn, wp_bind, wp_modify, wp_pure, if_true]
      refine ⟨head, rest, d, rfl, hcredit, ?_, hd, congrArg Vsock.deliveries hown, hused⟩
      rw [hheap]
      exact Function.update_self ..
    · obtain rfl := Bool.eq_false_of_not_eq_true hok
      rw [wp_pure, if_neg Bool.false_ne_true]
      cases hpushes with
      | recycled d hd hown hused =>
        exact ⟨[d], ⟨congrArg Vsock.deliveries hown, hused⟩,
          fun d' hd' => List.mem_singleton.mp hd' ▸ hd⟩
      | refused hown hused =>
        refine ⟨[], ⟨?_, ?_⟩, fun _ hd => absurd hd List.not_mem_nil⟩
        · rw [hown, List.append_nil]
        · rw [hused, List.map_nil, List.append_nil]

theorem flushRound_true {h' : Host Vsock} (hround : flushRound r h = .ok true h') :
    ∃ head rest, (h.own.heap r).pendingTx = head :: rest ∧
      (h.own.heap r).creditAvailable ≠ 0 ∧ h'.own.heap r =
        (h.own.heap r).flushed (min head.length (h.own.heap r).creditAvailable) head rest := by
  have hown := flushRound_own r h
  rw [Wp, hround] at hown
  obtain ⟨head, rest, -, hpending, hcredit, hnext, -⟩ := hown
  exact ⟨head, rest, hpending, hcredit, hnext⟩

/-- The loop ends: a round either sends a whole write, or uses up the credit. -/
theorem rounds_le {n : ℕ} {h' : Host Vsock} (hrounds : Rounds r n h h')
    (hwindow : (h.own.heap r).peerBufAlloc < 2 ^ 32) :
    n ≤ (h.own.heap r).pendingTx.length + 1 := by
  induction hrounds with
  | none => exact Nat.zero_le _
  | @more n h h' h'' hround hrest ih =>
    obtain ⟨head, rest, hpending, hcredit, hnext⟩ := flushRound_true hround
    set c := h.own.heap r with hc
    set size := min head.length c.creditAvailable with hsize
    by_cases hall : head.length ≤ size
    · have hshorter : (h'.own.heap r).pendingTx = rest := by
        rw [hnext]
        exact if_pos hall
      have hle := ih (by rw [hnext]; exact hwindow)
      rw [hshorter] at hle
      rw [hpending, List.length_cons]
      omega
    · -- the credit is used up, and the next round sees that
      have hspent : size = c.creditAvailable := by omega
      have hzero : (h'.own.heap r).creditAvailable = 0 := by
        rw [hnext, hspent]
        exact creditAvailable_flushed hwindow head rest
      cases hrest with
      | none => omega
      | more hround' =>
        obtain ⟨-, -, -, hmore, -⟩ := flushRound_true hround'
        exact absurd hzero hmore

theorem returned_flushLoop (fuel : ℕ) (r : Ref) (h : Host Vsock) :
    ∃ ds, Returned h (final (flushLoop fuel r h)) ds :=
  returned_of_grew (answers_flushLoop fuel r h).final

end Round

section Push
variable {ring : VringLayout} {h : Host Vsock} {chain : VringChain} {chains : List VringChain}

theorem pushRx_none (hring : h.queues vqRx = some ring) (hposted : Posted vqRx ring h [])
    (srcPort dstPort op : ℕ) (payload : List UInt8) (flags : ℕ) (r : Option Ref) :
    pushRx srcPort dstPort op payload flags r h = .ok false h := by
  simp only [pushRx, vring, run_bind, run_get, run_pure, hring, hposted.next_nil]

/-- The oldest buffer is used up, by the packet or for nothing. -/
theorem pushRx_posted (hring : h.queues vqRx = some ring)
    (hposted : Posted vqRx ring h (chain :: chains)) (srcPort dstPort op : ℕ)
    (payload : List UInt8) (flags : ℕ) (r : Option Ref) :
    Wp (pushRx srcPort dstPort op payload flags r)
      (fun ok h' => (ok = true ↔ vsockHdrLen + payload.length ≤ inCapacity chain) ∧
        h'.queues vqRx = some ring ∧ Posted vqRx ring h' chains)
      (fun _ _ => False) h := by
  obtain ⟨h₁, hnext, hmemory, hqueues, -, hposted₁⟩ := hposted.next_cons
  have hring₁ : h₁.queues vqRx = some ring := hqueues ▸ hring
  have hbuffer : ∀ a ∈ addresses chain.in_, a < h₁.memory.length ∧ Clear ring a := by
    rw [hmemory]
    exact hposted.buffers chain List.mem_cons_self
  simp only [pushRx, vring, wp_bind, wp_get, wp_pure, hring]
  rw [wp_of_ok hnext]
  simp only [wp_bind, wp_get, wp_ite, packet_length]
  refine ⟨fun hsmall => ?_, fun hfits => ?_⟩
  · obtain ⟨memory, hpush, hposted₂⟩ := hposted₁.pushUsed chain.head 0
    rw [wp_of_ok hpush]
    simp only [modifyOwn, wp_bind, wp_modify, wp_pure]
    refine ⟨?_, hring₁, hposted₂.congr rfl rfl rfl rfl⟩
    simpa using hsmall
  · generalize packet _ _ _ _ _ _ payload = pkt
    obtain ⟨memory, hwrite, hposted₂⟩ := hposted₁.writeIn pkt hbuffer
    obtain ⟨memory', hpush, hposted₃⟩ :=
      hposted₂.pushUsed chain.head (min (inCapacity chain) pkt.length)
    rw [wp_of_ok hwrite, wp_bind, wp_get, wp_bind, wp_of_ok hpush]
    simp only [modifyOwn, wp_bind, wp_modify, wp_pure]
    exact ⟨⟨fun _ => Nat.le_of_not_lt hfits, fun _ => trivial⟩, hring₁,
      hposted₃.congr rfl rfl rfl rfl⟩

end Push

section Progress
variable {ring : VringLayout} {r : Ref}

/-- An empty packet costs no credit. -/
theorem creditAvailable_flushed_nil (c : VsockConnection) (rest : List (List UInt8)) :
    (c.flushed 0 [] rest).creditAvailable = c.creditAvailable := by
  simp only [VsockConnection.flushed, VsockConnection.creditAvailable]
  push_cast
  omega

/-- A round on waiting buffers: it goes on exactly when the oldest one is large enough. -/
theorem flushRound_posted {h : Host Vsock} {chain : VringChain} {chains : List VringChain}
    {head : List UInt8} {rest : List (List UInt8)} (hring : h.queues vqRx = some ring)
    (hposted : Posted vqRx ring h (chain :: chains))
    (hpending : (h.own.heap r).pendingTx = head :: rest)
    (hcredit : (h.own.heap r).creditAvailable ≠ 0) :
    Wp (flushRound r)
      (fun go h' => (go = true ↔
          vsockHdrLen + min head.length (h.own.heap r).creditAvailable ≤ inCapacity chain) ∧
        h'.queues vqRx = some ring ∧ Posted vqRx ring h' chains)
      (fun _ _ => False) h := by
  rw [flushRound]
  simp only [conn, wp_bind, wp_get, wp_pure, hpending]
  rw [wp_ite]
  refine ⟨fun hzero => absurd hzero hcredit, fun _ => ?_⟩
  rw [wp_bind]
  refine (pushRx_posted hring hposted _ _ _ _ _ _).mono (fun ok h' hok => ?_)
    fun _ _ hfalse => hfalse
  rw [List.length_take, Nat.min_eq_left (Nat.min_le_left ..)] at hok
  obtain ⟨hsize, hring', hposted'⟩ := hok
  rw [wp_ite]
  refine ⟨fun htrue => ?_, fun hfalse => ?_⟩
  · simp only [modifyConn, modifyOwn, wp_bind, wp_modify, wp_pure]
    exact ⟨⟨fun _ => hsize.mp htrue, fun _ => trivial⟩, hring', hposted'.congr rfl rfl rfl rfl⟩
  · refine ⟨⟨fun h => absurd h Bool.false_ne_true, fun hle => ?_⟩, hring', hposted'⟩
    exact absurd (hsize.mpr hle) hfalse

theorem flushRound_none {h : Host Vsock} {head : List UInt8} {rest : List (List UInt8)}
    (hring : h.queues vqRx = some ring) (hposted : Posted vqRx ring h [])
    (hpending : (h.own.heap r).pendingTx = head :: rest)
    (hcredit : (h.own.heap r).creditAvailable ≠ 0) : flushRound r h = .ok false h := by
  have hrun : flushRound r h = (match (h.own.heap r).pendingTx with
      | [] => pure false
      | head :: rest => _ : Js (Host Vsock) Bool) h := rfl
  rw [hrun, hpending]
  dsimp only
  rw [if_neg hcredit]
  change EStateM.bind (pushRx _ _ _ _ _ _) _ h = _
  rw [EStateM.bind, pushRx_none hring hposted]
  rfl

theorem final_flushLoop {h h' : Host Vsock} {go : Bool} (fuel : ℕ)
    (hround : flushRound r h = .ok go h') :
    final (flushLoop (fuel + 1) r h) = if go then final (flushLoop fuel r h') else h' := by
  rw [flushLoop_succ]
  change final (EStateM.bind (flushRound r) _ h) = _
  rw [EStateM.bind, hround]
  cases go <;> rfl

/-- The first round, by the oldest buffer: its packet goes out and the loop goes on, or the loop
is over and nothing was sent. -/
theorem flushLoop_first (fuel : ℕ) {h : Host Vsock} {chains : List VringChain} {head : List UInt8}
    {rest : List (List UInt8)} (hring : h.queues vqRx = some ring)
    (hposted : Posted vqRx ring h chains) (hpending : (h.own.heap r).pendingTx = head :: rest)
    (hcredit : (h.own.heap r).creditAvailable ≠ 0) :
    let n := min head.length (h.own.heap r).creditAvailable
    (Carries 0 n chains → ∃ chain more h' d, chains = chain :: more ∧
      final (flushLoop (fuel + 1) r h) = final (flushLoop fuel r h') ∧
      h'.queues vqRx = some ring ∧ Posted vqRx ring h' more ∧
      h'.own.heap r = (h.own.heap r).flushed n head rest ∧
      d.Holds (h.own.heap r).key opRw (head.take n) (some (r, h.own.heap r)) ∧
      Returned h h' [d]) ∧
    (¬ Carries 0 n chains → ∀ pair, ¬ Gained pair h (final (flushLoop (fuel + 1) r h))) := by
  intro n
  cases chains with
  | nil =>
    refine ⟨fun hcarries => hcarries.elim, fun _ pair => ?_⟩
    rw [final_flushLoop fuel (flushRound_none hring hposted hpending hcredit)]
    exact not_gained_of_empty ⟨(List.append_nil _).symm, (List.append_nil _).symm⟩
      fun _ hd => absurd hd List.not_mem_nil
  | cons chain chains =>
    obtain ⟨go, h', hround, hgo, hring', hposted'⟩ :=
      (flushRound_posted hring hposted hpending hcredit).returned
    have hown := flushRound_own r h
    rw [Wp, hround] at hown
    rw [final_flushLoop fuel hround]
    refine ⟨fun hcarries => ?_, fun hsmall pair => ?_⟩
    · obtain rfl : go = true := hgo.mpr hcarries
      obtain ⟨_, _, d, hhead, -, hnext, hd, hreturned⟩ := hown
      rw [hpending] at hhead
      cases hhead
      exact ⟨chain, chains, h', d, rfl, rfl, hring', hposted', hnext, hd, hreturned⟩
    · obtain rfl : go = false := Bool.eq_false_iff.mpr fun h => hsmall (hgo.mp h)
      obtain ⟨ds, hreturned, hempty⟩ := hown
      exact not_gained_of_empty hreturned hempty

/-- The loop sends bytes exactly when the buffers in front carry the first of them. -/
theorem flushLoop_delivers (k fuel : ℕ) (h : Host Vsock) {chains : List VringChain}
    {w : List UInt8} {rest : List (List UInt8)} (hring : h.queues vqRx = some ring)
    (hposted : Posted vqRx ring h chains)
    (hpending : (h.own.heap r).pendingTx = List.replicate k [] ++ w :: rest) (hw : w ≠ [])
    (hcredit : (h.own.heap r).creditAvailable ≠ 0) (hfuel : k < fuel) :
    Gained (h.own.heap r).key h (final (flushLoop fuel r h)) ↔
      Carries k (min w.length (h.own.heap r).creditAvailable) chains := by
  induction k generalizing fuel h chains with
  | zero =>
    obtain ⟨fuel, rfl⟩ : ∃ n, fuel = n + 1 := ⟨fuel - 1, by omega⟩
    obtain ⟨hgoes, hstops⟩ := flushLoop_first fuel hring hposted hpending hcredit
    by_cases hcarries : Carries 0 (min w.length (h.own.heap r).creditAvailable) chains
    · obtain ⟨chain, more, h', d, -, hfinal, -, -, -, hd, hreturned⟩ := hgoes hcarries
      refine iff_of_true ?_ hcarries
      obtain ⟨ds, hmore⟩ := returned_flushLoop fuel r h'
      have hpos : 0 < w.length := List.length_pos_iff.mpr hw
      have hpayload : d.payload ≠ [] := by
        rw [hd.payload, ← List.length_pos_iff, List.length_take]
        omega
      rw [hfinal, gained_cons hreturned hmore]
      exact Or.inl ⟨hd.faithful, hd.op, hd.srcPort, hd.dstPort, hpayload⟩
    · exact iff_of_false (hstops hcarries _) hcarries
  | succ k ih =>
    obtain ⟨fuel, rfl⟩ : ∃ n, fuel = n + 1 := ⟨fuel - 1, by omega⟩
    rw [List.replicate_succ, List.cons_append] at hpending
    obtain ⟨hgoes, hstops⟩ := flushLoop_first fuel hring hposted hpending hcredit
    rw [List.length_nil, Nat.zero_min] at hgoes hstops
    by_cases hcarries : Carries 0 0 chains
    · obtain ⟨chain, more, h', d, rfl, hfinal, hring', hposted', hnext, hd, hreturned⟩ :=
        hgoes hcarries
      have hpending' : (h'.own.heap r).pendingTx = List.replicate k [] ++ w :: rest := by
        rw [hnext]
        rfl
      have hcredit' : (h'.own.heap r).creditAvailable = (h.own.heap r).creditAvailable := by
        rw [hnext, creditAvailable_flushed_nil]
      have hkey : (h'.own.heap r).key = (h.own.heap r).key := by
        rw [hnext]
        rfl
      -- the packet of an empty write holds no payload byte
      have hempty : ¬ d.Data (h.own.heap r).key := fun hdata => hdata.payload hd.payload
      obtain ⟨ds, hmore⟩ := returned_flushLoop fuel r h'
      have hrest := ih fuel h' hring' hposted' hpending' (hcredit' ▸ hcredit) (by omega)
      rw [hkey, hcredit'] at hrest
      rw [hfinal, gained_cons hreturned hmore, or_iff_right hempty, hrest]
      exact (and_iff_right hcarries).symm
    · have hno : ¬ Carries (k + 1) (min w.length (h.own.heap r).creditAvailable) chains := by
        cases chains with
        | nil => exact fun hcarries' => hcarries'
        | cons chain chains => exact fun hcarries' => hcarries hcarries'.1
      exact iff_of_false (hstops hcarries _) hno

end Progress

/-- The flush ends, after at most two rounds more than there are writes; and with credit, the first
`k` writes empty and `w` behind them, a payload byte gets into a buffer exactly when the oldest
buffers hold the empty packets and the packet with what fits of `w`. -/
theorem flush_progress_iff (r : Ref) :
    (∀ (h h' : Host Vsock) (n : ℕ), (h.own.heap r).peerBufAlloc < 2 ^ 32 → Rounds r n h h' →
      n ≤ (h.own.heap r).pendingTx.length + 1) ∧
    ∀ (h : Host Vsock) (ring : VringLayout) (chains : List VringChain) (k : ℕ) (w : List UInt8)
      (rest : List (List UInt8)), h.queues vqRx = some ring → Posted vqRx ring h chains →
      (h.own.heap r).isOpen = true →
      (h.own.heap r).pendingTx = List.replicate k [] ++ w :: rest → w ≠ [] →
      (h.own.heap r).creditAvailable ≠ 0 →
      (Delivers r h ↔ Carries k (min w.length (h.own.heap r).creditAvailable) chains) := by
  refine ⟨fun h h' n hwindow hrounds => rounds_le hrounds hwindow, ?_⟩
  intro h ring chains k w rest hring hposted hopen hpending hw hcredit
  have hrun : flushConnection r h =
      (if (h.own.heap r).isOpen = true then flushLoop ((h.own.heap r).pendingTx.length + 2) r
        else pure () : Js (Host Vsock) Unit) h := rfl
  have hfuel : k < (h.own.heap r).pendingTx.length + 2 := by
    rw [hpending, List.length_append, List.length_replicate]
    omega
  rw [Delivers, hrun, if_pos hopen]
  exact flushLoop_delivers k _ h hring hposted hpending hw hcredit hfuel

def oneBufferRing : VringLayout := ⟨0, 32, 40, 2, Nat.two_pos⟩

/-- Memory with an rx ring on which one buffer of `size` bytes waits. -/
def oneBufferMemory (size : ℕ) : List UInt8 :=
  Bytes.leBytes 8 64 ++ Bytes.leBytes 4 size ++ Bytes.leBytes 2 descFWrite ++
    (List.replicate 18 0 ++ (Bytes.leBytes 2 0 ++ Bytes.leBytes 2 1 ++ List.replicate 92 0))

/-- A connection with room at the guest for three bytes that are pending. -/
def pendingHost (size : ℕ) : Host Vsock where
  memory := oneBufferMemory size
  arrayLimit := 4096
  queues q := if q = vqRx then some oneBufferRing else none
  lastAvail _ := 0
  popped := []
  pushed := []
  own :=
    { Vsock.initial 3 with
      heap := fun _ =>
        { VsockConnection.new 1024 5 with
          peerBufAlloc := 4096, pendingTx := [[1, 2, 3]], written := [1, 2, 3] } }

theorem pendingHost_posted (size : ℕ) (hsize : size = 46 ∨ size = 64) :
    Posted vqRx oneBufferRing (pendingHost size) [⟨0, [], [⟨64, size⟩]⟩] := by
  have hmemory : (pendingHost size).memory.length = 128 := by
    rcases hsize with rfl | rfl <;> decide +kernel
  have hdescriptor : Virtio.descriptor oneBufferRing (pendingHost size).memory 0 =
      some ⟨64, size, descFWrite, 0⟩ := by
    rcases hsize with rfl | rfl <;> decide +kernel
  have hidx : availIdx oneBufferRing (pendingHost size).memory = some 1 := by
    rcases hsize with rfl | rfl <;> decide +kernel
  have hslot : availSlot oneBufferRing (pendingHost size).memory 0 = some 0 := by
    rcases hsize with rfl | rfl <;> decide +kernel
  refine ⟨?_, ?_, by decide, Nat.one_lt_two_pow (by decide), Nat.two_pow_pos 16, hidx,
    fun k c hk => ?_, fun c hc => ?_, fun c hc a ha => ?_⟩
  · rw [hmemory]
    decide
  · rw [hmemory]
    decide
  · cases k with
    | zero =>
      cases hk
      exact hslot
    | succ k => cases hk
  · obtain rfl := List.mem_singleton.mp hc
    have hlinks : ∀ d ∈ [Descriptor.mk 64 size descFWrite 0], d.chained → d.next < 2 := by
      simp [Descriptor.chained, descFNext, descFWrite]
    have hlast : ¬ (Descriptor.mk 64 size descFWrite 0).chained := by
      simp [Descriptor.chained, descFNext, descFWrite]
    refine ⟨_, .last hdescriptor hlast, Nat.le_add_left 1 2, Nat.two_pos, hlinks, ?_, ?_⟩
    · simp [readable, Descriptor.writable, descFWrite]
    · simp [writables, Descriptor.writable, Descriptor.segment, descFWrite]
  · obtain rfl := List.mem_singleton.mp hc
    rw [addresses_cons, List.mem_append, List.mem_range'_1] at ha
    have hin := ha.resolve_right List.not_mem_nil
    dsimp only at hin
    rw [hmemory]
    simp only [Clear, oneBufferRing]
    omega

/-- Three bytes do not go out where the buffer has room for two. -/
theorem flush_stalls :
    let h := pendingHost 46
    Posted vqRx oneBufferRing h [⟨0, [], [⟨64, 46⟩]⟩] ∧
      vsockHdrLen < inCapacity ⟨0, [], [⟨64, 46⟩]⟩ ∧ (h.own.heap 0).isOpen = true ∧
      (h.own.heap 0).pendingTx.flatten ≠ [] ∧ (h.own.heap 0).creditAvailable ≠ 0 ∧
      ¬ Delivers 0 h := by
  have hpayloads : (final (flushConnection 0 (pendingHost 46))).own.deliveries.map
      RxDelivery.payload = [[]] := by
    decide +kernel
  refine ⟨pendingHost_posted 46 (Or.inl rfl), by decide, rfl, by decide, by decide, ?_⟩
  rintro ⟨ds, hreturned, d, hd, hdata⟩
  rw [hreturned.1] at hpayloads
  have hmem : d.payload ∈ ds.map RxDelivery.payload := List.mem_map_of_mem hd
  exact hdata.payload (List.mem_singleton.mp (hpayloads ▸ hmem))

/-- They go out where it has room. -/
theorem flush_progress_three : Delivers 0 (pendingHost 64) := by
  have hposted := pendingHost_posted 64 (Or.inr rfl)
  refine ((flush_progress_iff 0).2 _ _ _ 0 [1, 2, 3] [] rfl hposted rfl rfl (by decide)
    (by decide)).mpr ?_
  unfold Carries
  decide

end NixWasm.VsockDevice
