import NixWasm.VsockControl

/-!
What the host writes to a vsock connection and what reaches the guest of it. In every
interleaving of guest packets, ring refills, host calls and callbacks, the payloads of a
connection's data packets in the rx buffers are a prefix of the bytes written to it, and no data
packet leaves the window the guest had advertised at that moment.
-/
namespace NixWasm.VsockDevice

open Effects Virtio Runs

/-- The bytes in flight after a packet with this payload fit the guest's buffer. -/
def VsockConnection.Accepts (c : VsockConnection) (payload : List UInt8) : Prop :=
  ((c.txCnt : ℤ) + payload.length - c.peerFwdCnt) % 2 ^ 32 ≤ c.peerBufAlloc

/-- What the packet in the buffer carries of the stream of a connection. -/
def RxDelivery.dataOf (d : RxDelivery) (r : Ref) : List UInt8 :=
  if d.hdr.op = opRw ∧ d.sender.map Prod.fst = some r then d.payload else []

/-- The payloads of a connection's data packets in the rx buffers, in order. -/
def Vsock.received (v : Vsock) (r : Ref) : List UInt8 :=
  v.deliveries.flatMap fun d => d.dataOf r

/-- A data packet is one of the device's connections, with the ports of it and within the credit
it had then. -/
def RxDelivery.Accounted (d : RxDelivery) (v : Vsock) : Prop :=
  ∃ r c, d.sender = some (r, c) ∧ r < v.fresh ∧ d.hdr.srcPort = (v.heap r).hostPort % 2 ^ 32 ∧
    d.hdr.dstPort = (v.heap r).guestPort % 2 ^ 32 ∧ d.hdr.len = d.payload.length % 2 ^ 32 ∧
    c.Accepts d.payload

namespace VsockConnection

/-- What fits the available credit stays within it, also when the counters wrap. -/
theorem accepts_creditAvailable (c : VsockConnection) (payload : List UInt8)
    (hpos : c.creditAvailable ≠ 0) (hfits : payload.length ≤ c.creditAvailable) :
    c.Accepts payload := by
  unfold creditAvailable at hpos hfits
  unfold Accepts
  have hnonneg : 0 ≤ ((c.txCnt : ℤ) - c.peerFwdCnt) % 2 ^ 32 := Int.emod_nonneg _ (by decide)
  have hsplit : ((c.txCnt : ℤ) + payload.length - c.peerFwdCnt) % 2 ^ 32 ≤
      ((c.txCnt : ℤ) - c.peerFwdCnt) % 2 ^ 32 + payload.length := by omega
  omega

/-- The bytes that were received and, while the connection is open, the pending ones make up
what was written. -/
structure Carries (c : VsockConnection) (received : List UInt8) : Prop where
  pending : c.isOpen = true → received ++ c.pendingTx.flatten = c.written
  prefix_ : received <+: c.written

variable {c c' : VsockConnection} {received : List UInt8}

theorem Carries.congr (h : c.Carries received) (hsame : c.SameStream c') :
    c'.Carries received := by
  refine ⟨fun hopen => ?_, ?_⟩
  · rw [hsame.pendingTx, hsame.written]
    exact h.pending (hsame.isOpen.symm.trans hopen)
  · rw [hsame.written]
    exact h.prefix_

/-- What the host writes is pending until it is sent. -/
theorem Carries.write (h : c.Carries received) (hopen : c.isOpen = true) (bytes : List UInt8) :
    Carries { c with pendingTx := c.pendingTx ++ [bytes], written := c.written ++ bytes }
      received := by
  refine ⟨fun _ => ?_, h.prefix_.trans (List.prefix_append _ _)⟩
  change received ++ (c.pendingTx ++ [bytes]).flatten = c.written ++ bytes
  rw [List.flatten_append, ← List.append_assoc, h.pending hopen, List.flatten_singleton]

/-- A packet takes its payload from the front of the pending bytes. -/
theorem Carries.flushed (h : c.Carries received) (hopen : c.isOpen = true) {head : List UInt8}
    {rest : List (List UInt8)} (hpending : c.pendingTx = head :: rest) (n : ℕ) :
    (c.flushed n head rest).Carries (received ++ head.take n) := by
  have hleft : (c.flushed n head rest).pendingTx.flatten = head.drop n ++ rest.flatten := by
    unfold VsockConnection.flushed
    split
    · next hall => rw [List.drop_eq_nil_of_le hall, List.nil_append]
    · rw [List.flatten_cons]
  have hwhole : received ++ head.take n ++ (c.flushed n head rest).pendingTx.flatten =
      (c.flushed n head rest).written := by
    rw [hleft, List.append_assoc, ← List.append_assoc (head.take n), List.take_append_drop,
      ← List.flatten_cons, ← hpending]
    exact h.pending hopen
  exact ⟨fun _ => hwhole, ⟨_, hwhole⟩⟩

theorem Carries.shut (h : c.Carries received) :
    Carries { c with isOpen := false, pendingTx := [] } received :=
  ⟨fun hopen => absurd hopen Bool.false_ne_true, h.prefix_⟩

theorem Idle.carries (h : c.Idle) : c.Carries [] := by
  refine ⟨fun _ => ?_, List.nil_prefix⟩
  rw [h.pendingTx, h.written]
  rfl

end VsockConnection

section Received
variable {v : Vsock} {d : RxDelivery} {r : Ref}

theorem received_deliver (v : Vsock) (d : RxDelivery) (r : Ref) :
    (v.deliver d).received r = v.received r ++ d.dataOf r := by
  simp [Vsock.received, Vsock.deliver]

theorem dataOf_other (hop : d.hdr.op ≠ opRw) (r : Ref) : d.dataOf r = [] :=
  if_neg fun hdata => hop hdata.1

theorem received_other (hop : d.hdr.op ≠ opRw) (r : Ref) :
    (v.deliver d).received r = v.received r := by
  rw [received_deliver, dataOf_other hop, List.append_nil]

/-- The data packet of one connection is nothing to the others. -/
theorem dataOf_holds {pair : ℕ × ℕ} {payload : List UInt8} {c : VsockConnection}
    (hd : d.Holds pair opRw payload (some (r, c))) (s : Ref) :
    d.dataOf s = if s = r then payload else [] := by
  have hop : d.hdr.op = opRw := hd.op
  rw [RxDelivery.dataOf, hop, hd.sender, hd.payload]
  by_cases hs : s = r
  · subst hs
    simp
  · rw [if_neg hs]
    refine if_neg fun hdata => hs ?_
    exact (Option.some.inj hdata.2).symm

/-- Nothing was received on a connection that has not been made. -/
theorem received_fresh (haccounted : ∀ d ∈ v.deliveries, d.hdr.op = opRw → d.Accounted v) :
    v.received v.fresh = [] := by
  refine List.flatMap_eq_nil_iff.mpr fun d hd => if_neg fun hdata => ?_
  obtain ⟨r, c, hsender, hmade, -⟩ := haccounted d hd hdata.1
  rw [hsender] at hdata
  obtain rfl : r = v.fresh := Option.some.inj hdata.2
  exact Nat.lt_irrefl _ hmade

/-- An update of one connection that keeps its key. -/
theorem update_key {heap : Ref → VsockConnection} {c : VsockConnection}
    (hkey : c.key = (heap r).key) (s : Ref) :
    (Function.update heap r c s).key = (heap s).key := by
  by_cases hs : s = r
  · subst hs
    rw [Function.update_self, hkey]
  · rw [Function.update_of_ne hs]

theorem carries_update {heap : Ref → VsockConnection} {received received' : Ref → List UInt8}
    (h : ∀ s, (heap s).Carries (received s)) (r : Ref) {c : VsockConnection}
    (hc : c.Carries (received' r)) (hother : ∀ s, s ≠ r → received' s = received s) (s : Ref) :
    (Function.update heap r c s).Carries (received' s) := by
  by_cases hs : s = r
  · subst hs
    rw [Function.update_self]
    exact hc
  · rw [Function.update_of_ne hs, hother s hs]
    exact h s

theorem RxDelivery.Accounted.mono {v' : Vsock} (h : d.Accounted v) (hfresh : v.fresh ≤ v'.fresh)
    (hkeys : ∀ s, s < v.fresh → (v'.heap s).key = (v.heap s).key) : d.Accounted v' := by
  obtain ⟨r, c, hsender, hmade, hsrc, hdst, hrest⟩ := h
  have hkey := Prod.ext_iff.mp (hkeys r hmade)
  refine ⟨r, c, hsender, Nat.lt_of_lt_of_le hmade hfresh, ?_, ?_, hrest⟩
  · exact hsrc.trans (congrArg (· % 2 ^ 32) hkey.1.symm)
  · exact hdst.trans (congrArg (· % 2 ^ 32) hkey.2.symm)

end Received

/-- The connections of a device: every stream carries what was written to it, every data packet
is accounted for, and the table holds open connections under their own key. -/
structure Faithful (v : Vsock) : Prop where
  table : TableOpen v
  made : ∀ r, (v.heap r).isOpen = true → r < v.fresh
  streams : ∀ r, (v.heap r).Carries (v.received r)
  accounted : ∀ d ∈ v.deliveries, d.hdr.op = opRw → d.Accounted v

namespace Faithful
variable {v : Vsock}

/-- The connections are as they were but for one, which keeps its key and is open only if it
was. -/
theorem setConn (h : Faithful v) (r : Ref) {c : VsockConnection} (hc : c.Carries (v.received r))
    (hkey : c.key = (v.heap r).key) (hopen : c.isOpen = (v.heap r).isOpen) :
    Faithful (v.setConn r c) := by
  refine ⟨h.table.setConn hkey hopen.trans, fun s ho => ?_, carries_update h.streams r hc
    fun _ _ => rfl, fun d hd hop => (h.accounted d hd hop).mono (Nat.le_refl _)
      fun s _ => update_key hkey s⟩
  by_cases hs : s = r
  · subst hs
    refine h.made s (hopen.symm.trans ?_)
    simpa [Vsock.setConn] using ho
  · exact h.made s (by simpa [Vsock.setConn, hs] using ho)

theorem congr {v' : Vsock} (h : Faithful v) (hheap : v'.heap = v.heap)
    (hconns : v'.conns = v.conns) (hfresh : v'.fresh = v.fresh)
    (hdeliveries : v'.deliveries = v.deliveries) : Faithful v' := by
  obtain ⟨cid, listeners, heap, fresh, conns, port, log, deliveries⟩ := v'
  cases hheap
  cases hconns
  cases hfresh
  cases hdeliveries
  exact ⟨h.table, h.made, h.streams, h.accounted⟩

/-- The log is not part of what a fact about the connections reads. -/
theorem note (h : Faithful v) (m : Mark) : Faithful (v.note m) := h.congr rfl rfl rfl rfl

/-- A buffer without data. -/
theorem deliver (h : Faithful v) {d : RxDelivery} (hop : d.hdr.op ≠ opRw) :
    Faithful (v.deliver d) := by
  refine ⟨h.table, h.made, fun r => ?_, fun d' hd' hop' => ?_⟩
  · rw [received_other hop]
    exact h.streams r
  · rcases List.mem_append.mp hd' with hold | hnew
    · exact h.accounted d' hold hop'
    · rw [List.mem_singleton.mp hnew] at hop'
      exact absurd hop' hop

theorem enter (h : Faithful v) {pair : ℕ × ℕ} {c : VsockConnection} (hkey : c.key = pair)
    (hidle : c.Idle) : Faithful (v.enter pair c) := by
  have hheap : ∀ s, s ≠ v.fresh → (v.enter pair c).heap s = v.heap s := by
    intro s hs
    simp [Vsock.enter, Vsock.setConn, hs]
  refine ⟨h.table.enter hkey hidle.isOpen, fun s ho => ?_, fun s => ?_, fun d hd hop => ?_⟩
  · by_cases hs : s = v.fresh
    · exact hs ▸ Nat.lt_succ_self v.fresh
    · rw [hheap s hs] at ho
      exact Nat.lt_succ_of_lt (h.made s ho)
  · by_cases hs : s = v.fresh
    · subst hs
      have hnothing : (v.enter pair c).received v.fresh = [] := received_fresh h.accounted
      rw [hnothing]
      simpa [Vsock.enter, Vsock.setConn] using hidle.carries
    · rw [hheap s hs]
      exact h.streams s
  · refine (h.accounted d hd hop).mono (Nat.le_succ _) fun s hs => ?_
    rw [hheap s (Nat.ne_of_lt hs)]

/-- What was received on a closed connection stays a prefix of what was written to it. -/
theorem shut (h : Faithful v) (r : Ref) : Faithful (v.shut r) := by
  have hkey : VsockConnection.key { v.heap r with isOpen := false, pendingTx := [] } =
      (v.heap r).key := rfl
  refine ⟨h.table.shut r, fun s ho => ?_, carries_update h.streams r (h.streams r).shut
    fun _ _ => rfl, fun d hd hop => (h.accounted d hd hop).mono (Nat.le_refl _)
      fun s _ => update_key hkey s⟩
  by_cases hs : s = r
  · subst hs
    simp [Vsock.shut, Vsock.setConn] at ho
  · exact h.made s (by simpa [Vsock.shut, Vsock.setConn, hs] using ho)

/-- A data packet takes the front of the pending bytes, within the credit. -/
theorem flush (h : Faithful v) (r : Ref) {head : List UInt8} {rest : List (List UInt8)}
    {d : RxDelivery} (hopen : (v.heap r).isOpen = true)
    (hpending : (v.heap r).pendingTx = head :: rest) (hpos : (v.heap r).creditAvailable ≠ 0)
    (hd : d.Holds (v.heap r).key opRw (head.take (min head.length (v.heap r).creditAvailable))
      (some (r, v.heap r))) :
    Faithful ((v.deliver d).setConn r
      ((v.heap r).flushed (min head.length (v.heap r).creditAvailable) head rest)) := by
  set n := min head.length (v.heap r).creditAvailable with hn
  have haccepts : (v.heap r).Accepts d.payload := by
    refine VsockConnection.accepts_creditAvailable _ _ hpos ?_
    rw [hd.payload, List.length_take]
    omega
  have hlen : d.hdr.len = d.payload.length % 2 ^ 32 := by rw [hd.len, hd.payload]
  have hsent : d.Accounted v :=
    ⟨r, v.heap r, hd.sender, h.made r hopen, hd.srcPort, hd.dstPort, hlen, haccepts⟩
  refine ⟨TableOpen.setConn h.table rfl id, fun s ho => ?_, carries_update h.streams r ?_ ?_,
    fun d' hd' hop' => ?_⟩
  · by_cases hs : s = r
    · exact hs ▸ h.made r hopen
    · exact h.made s (by simpa [Vsock.setConn, Vsock.deliver, hs] using ho)
  · change VsockConnection.Carries _ ((v.deliver d).received r)
    rw [received_deliver, dataOf_holds hd, if_pos rfl]
    exact (h.streams r).flushed hopen hpending n
  · intro s hs
    change (v.deliver d).received s = v.received s
    rw [received_deliver, dataOf_holds hd, if_neg hs, List.append_nil]
  · have haccounted : d'.Accounted v := by
      rcases List.mem_append.mp hd' with hold | hnew
      · exact h.accounted d' hold hop'
      · exact List.mem_singleton.mp hnew ▸ hsent
    have hkey : ((v.heap r).flushed n head rest).key = (v.heap r).key := rfl
    exact haccounted.mono (Nat.le_refl _) fun s _ => update_key hkey s

end Faithful

theorem admits_faithful : Admits Faithful where
  table _ hv := hv.table
  listeners _ hv _ := hv.congr rfl rfl rfl rfl
  hostPort _ hv _ := hv.congr rfl rfl rfl rfl
  silent _ hv m _ := hv.note m
  delivery _ hv _ hop := hv.deliver hop
  opening _ hv _ := hv.note _
  refused _ hv _ _ := hv.note _
  opened _ hv _ _ _ hkey hidle _ := ((hv.note _).enter hkey hidle).note _
  credit _ hv r _ hsame := hv.setConn r ((hv.streams r).congr hsame) hsame.key hsame.isOpen
  write _ hv r bytes hopen := hv.setConn r ((hv.streams r).write hopen bytes) rfl rfl
  flush _ hv r _ _ _ hopen hpending hpos hd := (hv.flush r hopen hpending hpos hd).note _
  control _ hv _ _ _ _ _ := hv.note _
  shut _ hv r _ := hv.shut r
  reset _ hv r _ := (hv.note _).shut r
  shutReset _ hv r _ := (hv.note _).shut r

theorem faithful_initial (guestCid : ℕ) : Faithful (Vsock.initial guestCid) := by
  have hclosed : ∀ r, ¬ ((Vsock.initial guestCid).heap r).isOpen = true := by
    intro r
    simp [Vsock.initial]
  exact ⟨(tabled_initial guestCid).table, fun r ho => absurd ho (hclosed r),
    fun r => ⟨fun ho => absurd ho (hclosed r), List.prefix_rfl⟩,
    fun _ hd => absurd hd List.not_mem_nil⟩

/-- Without credit a round does nothing. -/
theorem flushLoop_of_no_credit (fuel : ℕ) (r : Ref) (h : Host Vsock)
    (hcredit : (h.own.heap r).creditAvailable = 0) : flushLoop fuel r h = .ok () h := by
  cases fuel with
  | zero => rfl
  | succ fuel =>
    simp only [flushLoop, conn, run_bind, run_get, run_pure]
    cases (h.own.heap r).pendingTx with
    | nil => rfl
    | cons head rest =>
      simp only [hcredit, if_true]
      rfl

/-- Sending all of the credit leaves none, also when the counter wraps. -/
theorem creditAvailable_flushed {c : VsockConnection} (hwindow : c.peerBufAlloc < 2 ^ 32)
    (head : List UInt8) (rest : List (List UInt8)) :
    (c.flushed c.creditAvailable head rest).creditAvailable = 0 := by
  simp only [VsockConnection.flushed, VsockConnection.creditAvailable]
  push_cast
  omega

/-- The rounds of flushConnection are enough: allowing more changes nothing. The guest's
window comes from a 32-bit field. -/
theorem flushLoop_fuel (r : Ref) (m : ℕ) (h : Host Vsock) (fuel more : ℕ)
    (hwindow : (h.own.heap r).peerBufAlloc < 2 ^ 32)
    (hlen : (h.own.heap r).pendingTx.length = m) (hfuel : m + 2 ≤ fuel) (hmore : m + 2 ≤ more) :
    flushLoop fuel r h = flushLoop more r h := by
  induction m generalizing h fuel more with
  | zero =>
    obtain ⟨fuel, rfl⟩ := Nat.exists_eq_add_of_le' (Nat.le_of_succ_le hfuel)
    obtain ⟨more, rfl⟩ := Nat.exists_eq_add_of_le' (Nat.le_of_succ_le hmore)
    have hnil : (h.own.heap r).pendingTx = [] := List.length_eq_zero_iff.mp hlen
    have hdone : ∀ fuel, flushLoop (fuel + 1) r h = .ok () h := by
      intro fuel
      simp only [flushLoop, conn, run_bind, run_get, run_pure, hnil]
    rw [hdone, hdone]
  | succ m ih =>
    obtain ⟨fuel, rfl⟩ := Nat.exists_eq_add_of_le' (show 1 ≤ fuel by omega)
    obtain ⟨more, rfl⟩ := Nat.exists_eq_add_of_le' (show 1 ≤ more by omega)
    by_cases hcredit : (h.own.heap r).creditAvailable = 0
    · rw [flushLoop_of_no_credit _ r h hcredit, flushLoop_of_no_credit _ r h hcredit]
    · cases hpending : (h.own.heap r).pendingTx with
      | nil => simp [hpending] at hlen
      | cons head rest =>
        set c := h.own.heap r with hc
        set n := min head.length c.creditAvailable with hn
        have hround : ∀ fuel, flushLoop (fuel + 1) r h =
            EStateM.bind (pushRx c.hostPort c.guestPort opRw (head.take n) 0 (some r))
              (fun ok => if ok then do
                  modifyConn r fun c =>
                    { c with
                      txCnt := (c.txCnt + n) % 2 ^ 32
                      pendingTx := if head.length ≤ n then rest else head.drop n :: rest }
                  flushLoop fuel r
                else pure ()) h := by
          intro fuel
          simp only [flushLoop, conn, run_bind, run_get, run_pure, hpending, ← hc, if_neg hcredit]
          rfl
        have hpush := pushRx_pushes c.hostPort c.guestPort opRw (head.take n) 0 (some r) h
        rw [hround, hround]
        unfold Wp at hpush
        unfold EStateM.bind
        cases hresult : pushRx c.hostPort c.guestPort opRw (head.take n) 0 (some r) h with
        | error e h' => rfl
        | ok sent h' =>
          rw [hresult] at hpush
          cases sent with
          | false => rfl
          | true =>
            have hheap : h'.own.heap = h.own.heap := Pushes.heap hpush
            have hnext : (h'.own.setConn r { (h'.own.heap r) with
                txCnt := ((h'.own.heap r).txCnt + n) % 2 ^ 32
                pendingTx := if head.length ≤ n then rest else head.drop n :: rest }).heap r =
                c.flushed n head rest := by
              rw [hheap, ← hc]
              exact Function.update_self ..
            change flushLoop fuel r { h' with own := h'.own.setConn r _ } =
              flushLoop more r { h' with own := h'.own.setConn r _ }
            by_cases hall : head.length ≤ n
            · refine ih _ fuel more ?_ ?_ (by omega) (by omega)
              · rw [hnext]
                exact hwindow
              · rw [hnext]
                simp only [VsockConnection.flushed, if_pos hall]
                simpa [hpending] using hlen
            · have hspent : n = c.creditAvailable := by omega
              have hzero := creditAvailable_flushed hwindow head rest
              rw [← hspent, ← hnext] at hzero
              rw [flushLoop_of_no_credit fuel r _ hzero, flushLoop_of_no_credit more r _ hzero]

/-- In every interleaving the data packets of a connection in the rx buffers carry a prefix of
what the host wrote to it, and while it is open only the pending bytes are missing. Each is under
the connection's ports, and within the credit of its moment; and each used buffer of the rx queue
has in memory the bytes delivered in it. -/
theorem stream_prefix_within_credit (h : Host Vsock) (guestCid : ℕ) (events : List Event) :
    let h₀ := { h with own := Vsock.initial guestCid }
    let h' := run step h₀ events
    (∀ r, h'.own.received r <+: (h'.own.heap r).written ∧
      ((h'.own.heap r).isOpen = true →
        h'.own.received r ++ (h'.own.heap r).pendingTx.flatten = (h'.own.heap r).written)) ∧
      (∀ d ∈ h'.own.deliveries, d.hdr.op = opRw → ∃ r c, d.sender = some (r, c) ∧
        d.hdr.srcPort = (h'.own.heap r).hostPort % 2 ^ 32 ∧
        d.hdr.dstPort = (h'.own.heap r).guestPort % 2 ^ 32 ∧
        d.hdr.len = d.payload.length % 2 ^ 32 ∧
        ((c.txCnt : ℤ) + d.payload.length - c.peerFwdCnt) % 2 ^ 32 ≤ c.peerBufAlloc) ∧
      ∃ used, usedOnRx h' = usedOnRx h₀ ++ used ∧
        Booked used h'.own.log h'.own.deliveries := by
  intro h₀ h'
  have hrun : Faithful h'.own := admits_faithful.run h₀ events (faithful_initial guestCid)
  refine ⟨fun r => ⟨(hrun.streams r).prefix_, (hrun.streams r).pending⟩, fun d hd hop => ?_,
    (booked_run h₀ guestCid rfl events).1⟩
  obtain ⟨r, c, hsender, -, hrest⟩ := hrun.accounted d hd hop
  exact ⟨r, c, hsender, hrest⟩

/-- Memory with an rx ring of two 64-byte buffers. -/
def rxMemory : List UInt8 :=
  Bytes.leBytes 8 64 ++ Bytes.leBytes 4 64 ++ Bytes.leBytes 2 descFWrite ++ Bytes.leBytes 2 0 ++
    Bytes.leBytes 8 128 ++ Bytes.leBytes 4 64 ++ Bytes.leBytes 2 descFWrite ++ Bytes.leBytes 2 0 ++
    Bytes.leBytes 2 0 ++ Bytes.leBytes 2 2 ++ Bytes.leBytes 2 0 ++ Bytes.leBytes 2 1 ++
    List.replicate 152 0

example :
    let h : Host Vsock := ⟨rxMemory, 4096, fun _ => none, fun _ => 0, [], [], .initial 3⟩
    let v := (run step h [.setupQueue vqRx ⟨0, 32, 40, 2, by decide⟩, .host (.connect 5),
      .host (.write 0 [1, 2, 3]), .host (.write 0 [4])]).own
    v.received 0 = [1, 2, 3] ∧ (v.heap 0).pendingTx = [[4]] := by
  decide +kernel

end NixWasm.VsockDevice
