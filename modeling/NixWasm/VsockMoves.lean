import NixWasm.Runs
import NixWasm.VsockDevice

/-!
What a step does to the connections of a vsock device, said once. Every call of the host and
every packet of the guest is made of a few moves, and at each of them something is known of
the connection it is about. An invariant that admits the moves is kept by every step, with
all the calls its callbacks make.
-/
namespace NixWasm.VsockDevice

open Bytes Effects Virtio Runs

namespace VsockConnection

/-- What one round of the flush leaves: the bytes of the packet consumed. -/
def flushed (c : VsockConnection) (n : ℕ) (head : List UInt8) (rest : List (List UInt8)) :
    VsockConnection :=
  { c with
    txCnt := (c.txCnt + n) % 2 ^ 32
    pendingTx := if head.length ≤ n then rest else head.drop n :: rest }

/-- An open connection to which nothing was written. -/
structure Idle (c : VsockConnection) : Prop where
  isOpen : c.isOpen = true
  pendingTx : c.pendingTx = []
  written : c.written = []

/-- The same connection but for its credit. -/
structure SameStream (c c' : VsockConnection) : Prop where
  key : c'.key = c.key
  isOpen : c'.isOpen = c.isOpen
  pendingTx : c'.pendingTx = c.pendingTx
  written : c'.written = c.written

end VsockConnection

namespace Vsock

/-- A new connection object takes the pair in the table. -/
def enter (v : Vsock) (pair : ℕ × ℕ) (c : VsockConnection) : Vsock :=
  { v.setConn v.fresh c with fresh := v.fresh + 1, conns := v.conns.set pair v.fresh }

/-- The table as the guest's REQUEST or the host's connect leaves it, with the first packet
due. -/
def opened (v : Vsock) (pair : ℕ × ℕ) (c : VsockConnection) (op : ℕ) : Vsock :=
  ((v.note (.opening pair (v.conns.get pair).isSome)).enter pair c).note
    (.due pair (some v.fresh) op)

/-- A connection is closed and its pair leaves the table. -/
def shut (v : Vsock) (r : Ref) : Vsock :=
  { v.setConn r { v.heap r with isOpen := false, pendingTx := [] } with
    conns := v.conns.delete (v.heap r).key }

end Vsock

/-- Marks that stand for no packet and no change of the table. -/
inductive Mark.Silent : Mark → Prop
  | consumed (r : Ref) (closed : Bool) : Silent (.consumed r closed)
  | threw (r : Ref) : Silent (.threw r)
  | due (pair : ℕ × ℕ) (r : Option Ref) (op : ℕ) : Silent (.due pair r op)
  | blocked (pair : ℕ × ℕ) (r : Option Ref) (op : ℕ) : Silent (.blocked pair r op)

/-- The table holds open connections under their own key. -/
def TableOpen (v : Vsock) : Prop :=
  ∀ key r, v.conns.get key = some r →
    (v.heap r).key = key ∧ (v.heap r).isOpen = true ∧ r < v.fresh

section Table
variable {v : Vsock} {r : Ref} {c : VsockConnection}

theorem TableOpen.setConn (h : TableOpen v) (hkey : c.key = (v.heap r).key)
    (hopen : (v.heap r).isOpen = true → c.isOpen = true) : TableOpen (v.setConn r c) := by
  intro key s hget
  obtain ⟨hk, ho, hlt⟩ := h key s hget
  by_cases hs : s = r
  · subst hs
    exact ⟨by simpa [Vsock.setConn] using hkey.trans hk,
      by simpa [Vsock.setConn] using hopen ho, hlt⟩
  · exact ⟨by simpa [Vsock.setConn, hs] using hk, by simpa [Vsock.setConn, hs] using ho, hlt⟩

theorem TableOpen.enter (h : TableOpen v) {pair : ℕ × ℕ} (hkey : c.key = pair)
    (hopen : c.isOpen = true) : TableOpen (v.enter pair c) := by
  intro key s hget
  change (v.conns.set pair v.fresh).get key = some s at hget
  by_cases hk : key = pair
  · subst hk
    rw [JsMap.get_set_self] at hget
    cases hget
    simpa [Vsock.enter, Vsock.setConn] using And.intro hkey hopen
  · rw [JsMap.get_set_of_ne _ _ hk] at hget
    obtain ⟨hkey', ho, hlt⟩ := h key s hget
    have hs : s ≠ v.fresh := Nat.ne_of_lt hlt
    exact ⟨by simpa [Vsock.enter, Vsock.setConn, hs] using hkey',
      by simpa [Vsock.enter, Vsock.setConn, hs] using ho, Nat.lt_succ_of_lt hlt⟩

theorem TableOpen.shut (h : TableOpen v) (r : Ref) : TableOpen (v.shut r) := by
  intro key s hget
  change (v.conns.delete (v.heap r).key).get key = some s at hget
  have hkey : key ≠ (v.heap r).key := by
    rintro rfl
    rw [JsMap.get_delete_self] at hget
    cases hget
  rw [JsMap.get_delete_of_ne _ hkey] at hget
  obtain ⟨hk, ho, hlt⟩ := h key s hget
  have hs : s ≠ r := by
    rintro rfl
    exact hkey hk.symm
  exact ⟨by simpa [Vsock.shut, Vsock.setConn, hs] using hk,
    by simpa [Vsock.shut, Vsock.setConn, hs] using ho, hlt⟩

end Table

/-- Where an element of a list lies after one more was added at its end. -/
theorem split_concat {α : Type} {log before after : List α} {m x : α}
    (h : log ++ [m] = before ++ x :: after) :
    (before = log ∧ x = m ∧ after = []) ∨
      ∃ after', after = after' ++ [m] ∧ log = before ++ x :: after' := by
  rcases List.eq_nil_or_concat after with rfl | ⟨after', y, rfl⟩
  · obtain ⟨hlog, hx⟩ := List.append_inj' h rfl
    cases hx
    exact Or.inl ⟨hlog.symm, rfl, rfl⟩
  · rw [List.concat_eq_append, ← List.cons_append, ← List.append_assoc] at h
    obtain ⟨hlog, hy⟩ := List.append_inj' h rfl
    cases hy
    exact Or.inr ⟨after', List.concat_eq_append .., hlog⟩

/-- The used buffers of the rx queue, in the order of publication. -/
def usedOnRx (h : Host Vsock) : List (ℕ × ℕ) :=
  (h.pushed.filter fun used => used.1 = vqRx).map Prod.snd

namespace RxDelivery

def hdr (d : RxDelivery) : Hdr := decodeHdr d.bytes

def payload (d : RxDelivery) : List UInt8 := d.bytes.drop vsockHdrLen

/-- A packet with these ports, this op and this payload is in the buffer. -/
structure Holds (d : RxDelivery) (pair : ℕ × ℕ) (op : ℕ) (payload : List UInt8)
    (sender : Option (Ref × VsockConnection)) : Prop where
  faithful : d.toDelivery.Faithful
  srcPort : d.hdr.srcPort = pair.1 % 2 ^ 32
  dstPort : d.hdr.dstPort = pair.2 % 2 ^ 32
  len : d.hdr.len = payload.length % 2 ^ 32
  op : d.hdr.op = op % 2 ^ 16
  payload : d.payload = payload
  bytes : d.bytes ≠ []
  sender : d.sender = sender

/-- The buffer was given back empty. -/
structure Empty (d : RxDelivery) : Prop where
  faithful : d.toDelivery.Faithful
  bytes : d.bytes = []

theorem Empty.op {d : RxDelivery} (h : d.Empty) : d.hdr.op ≠ opRw := by
  rw [hdr, h.bytes]
  decide

end RxDelivery

/-- The invariant holds after each move, from what is known when the device makes it. -/
structure Admits (I : Vsock → Prop) : Prop where
  table : ∀ v, I v → TableOpen v
  listeners : ∀ v, I v → ∀ ports, I { v with listeners := ports }
  hostPort : ∀ v, I v → ∀ port, I { v with nextHostPort := port }
  silent : ∀ v, I v → ∀ m : Mark, m.Silent → I (v.note m)
  delivery : ∀ v, I v → ∀ d : RxDelivery, d.hdr.op ≠ opRw → I (v.deliver d)
  opening : ∀ v, I v → ∀ pair, I (v.note (.opening pair (v.conns.get pair).isSome))
  refused : ∀ v, I v → ∀ pair, v.conns.get pair = none ∨ .opening pair true ∈ v.log →
    I (v.note (.sent pair none opRst))
  opened : ∀ v, I v → ∀ pair c op, c.key = pair → c.Idle → op = opRequest ∨ op = opResponse →
    I (v.opened pair c op)
  credit : ∀ v, I v → ∀ r c, (v.heap r).SameStream c → I (v.setConn r c)
  write : ∀ v, I v → ∀ r bytes, (v.heap r).isOpen = true →
    I (v.setConn r { v.heap r with
      pendingTx := (v.heap r).pendingTx ++ [bytes], written := (v.heap r).written ++ bytes })
  flush : ∀ v, I v → ∀ r head rest d, (v.heap r).isOpen = true →
    (v.heap r).pendingTx = head :: rest → (v.heap r).creditAvailable ≠ 0 →
    d.Holds (v.heap r).key opRw (head.take (min head.length (v.heap r).creditAvailable))
      (some (r, v.heap r)) →
    I (((v.deliver d).setConn r
      ((v.heap r).flushed (min head.length (v.heap r).creditAvailable) head rest)).note
      (.sent (v.heap r).key (some r) opRw))
  control : ∀ v, I v → ∀ r op, op ≠ opRw → op ≠ opRst →
    (v.heap r).isOpen = true ∨ op = opCreditUpdate ∧ .consumed r true ∈ v.log →
    I (v.note (.sent (v.heap r).key (some r) op))
  shut : ∀ v, I v → ∀ r, (v.heap r).isOpen = true → I (v.shut r)
  reset : ∀ v, I v → ∀ r, (v.heap r).isOpen = true →
    I ((v.note (.sent (v.heap r).key (some r) opRst)).shut r)
  shutReset : ∀ v, I v → ∀ r, (v.heap r).isOpen = true →
    I ((v.note (.reset (v.heap r).key)).shut r)

/-- What a push on the rx queue does: the packet is in a buffer, a buffer goes back empty, or
nothing happens. -/
inductive Pushes (pair : ℕ × ℕ) (op : ℕ) (payload : List UInt8) (r : Option Ref)
    (h h' : Host Vsock) : Bool → Prop
  | sent (d : RxDelivery) (hd : d.Holds pair op payload (r.map fun r => (r, h.own.heap r)))
    (hown : h'.own = (h.own.deliver d).note (.sent pair r op))
    (hused : usedOnRx h' = usedOnRx h ++ [(d.head, d.used)]) : Pushes pair op payload r h h' true
  | recycled (d : RxDelivery) (hd : d.Empty) (hown : h'.own = h.own.deliver d)
    (hused : usedOnRx h' = usedOnRx h ++ [(d.head, d.used)]) : Pushes pair op payload r h h' false
  | refused (hown : h'.own = h.own) (hused : usedOnRx h' = usedOnRx h) :
    Pushes pair op payload r h h' false

section Packets

theorem packet_length (guestCid srcPort dstPort op flags fwdCnt : ℕ) (payload : List UInt8) :
    (packet guestCid srcPort dstPort op flags fwdCnt payload).length =
      vsockHdrLen + payload.length := by
  simp [packet, vsockHdrLen]
  omega

theorem packet_ne_nil (guestCid srcPort dstPort op flags fwdCnt : ℕ) (payload : List UInt8) :
    packet guestCid srcPort dstPort op flags fwdCnt payload ≠ [] := by
  intro hnil
  have hlength := packet_length guestCid srcPort dstPort op flags fwdCnt payload
  rw [hnil, vsockHdrLen, List.length_nil] at hlength
  omega

/-- A field behind so many bytes. -/
theorem leValue_field (before rest : List UInt8) {off : ℕ} (n v : ℕ)
    (hoff : before.length = off) :
    leValue (((before ++ (leBytes n v ++ rest)).drop off).take n) = v % 256 ^ n := by
  rw [List.drop_left' hoff, List.take_left' (leBytes_length n v), leValue_leBytes]

theorem decodeHdr_packet (guestCid srcPort dstPort op flags fwdCnt : ℕ) (payload : List UInt8) :
    let hdr := decodeHdr (packet guestCid srcPort dstPort op flags fwdCnt payload)
    hdr.srcPort = srcPort % 2 ^ 32 ∧ hdr.dstPort = dstPort % 2 ^ 32 ∧
      hdr.len = payload.length % 2 ^ 32 ∧ hdr.op = op % 2 ^ 16 := by
  refine ⟨?_, ?_, ?_, ?_⟩
  · have hsrc := leValue_field (leBytes 8 vmaddrCidHost ++ leBytes 8 guestCid)
      (leBytes 4 dstPort ++ (leBytes 4 payload.length ++ (leBytes 2 typeStream ++
        (leBytes 2 op ++ (leBytes 4 flags ++ (leBytes 4 hostBufAlloc ++ (leBytes 4 fwdCnt ++
          payload)))))))
      4 srcPort (show _ = 16 by simp)
    simpa [decodeHdr, packet] using hsrc
  · have hdst := leValue_field
      (leBytes 8 vmaddrCidHost ++ leBytes 8 guestCid ++ leBytes 4 srcPort)
      (leBytes 4 payload.length ++ (leBytes 2 typeStream ++ (leBytes 2 op ++
        (leBytes 4 flags ++ (leBytes 4 hostBufAlloc ++ (leBytes 4 fwdCnt ++ payload))))))
      4 dstPort (show _ = 20 by simp)
    simpa [decodeHdr, packet] using hdst
  · have hlen := leValue_field
      (leBytes 8 vmaddrCidHost ++ leBytes 8 guestCid ++ leBytes 4 srcPort ++ leBytes 4 dstPort)
      (leBytes 2 typeStream ++ (leBytes 2 op ++ (leBytes 4 flags ++
        (leBytes 4 hostBufAlloc ++ (leBytes 4 fwdCnt ++ payload)))))
      4 payload.length (show _ = 24 by simp)
    simpa [decodeHdr, packet] using hlen
  · have hop := leValue_field
      (leBytes 8 vmaddrCidHost ++ leBytes 8 guestCid ++ leBytes 4 srcPort ++
        leBytes 4 dstPort ++ leBytes 4 payload.length ++ leBytes 2 typeStream)
      (leBytes 4 flags ++ (leBytes 4 hostBufAlloc ++ (leBytes 4 fwdCnt ++ payload)))
      2 op (show _ = 30 by simp)
    simpa [decodeHdr, packet] using hop

theorem packet_payload (guestCid srcPort dstPort op flags fwdCnt : ℕ) (payload : List UInt8) :
    (packet guestCid srcPort dstPort op flags fwdCnt payload).drop vsockHdrLen = payload := by
  unfold packet
  exact List.drop_left' (by simp [vsockHdrLen])

/-- A used buffer of the rx queue is the last one there. -/
theorem usedOnRx_pushed {h h' : Host Vsock} {head len : ℕ}
    (hpushed : h'.pushed = h.pushed ++ [(vqRx, head, len)]) :
    usedOnRx h' = usedOnRx h ++ [(head, len)] := by
  rw [usedOnRx, hpushed, List.filter_append, List.map_append]
  simp [usedOnRx]

theorem usedOnRx_congr {h h' : Host Vsock} (hpushed : h'.pushed = h.pushed) :
    usedOnRx h' = usedOnRx h := by
  rw [usedOnRx, hpushed, usedOnRx]

/-- A push that throws has logged nothing. -/
def Unlogged (h h' : Host Vsock) : Prop := h'.own = h.own ∧ usedOnRx h' = usedOnRx h

theorem unlogged_of_books {h h' : Host Vsock} (hbooks : h'.own = h.own ∧ h'.pushed = h.pushed) :
    Unlogged h h' := ⟨hbooks.1, usedOnRx_congr hbooks.2⟩

theorem pushRx_pushes (srcPort dstPort op : ℕ) (payload : List UInt8) (flags : ℕ)
    (r : Option Ref) (h : Host Vsock) :
    Wp (pushRx srcPort dstPort op payload flags r)
      (fun ok h' => Pushes (srcPort, dstPort) op payload r h h' ok)
      (fun _ h' => Unlogged h h') h := by
  simp only [pushRx, vring, wp_bind, wp_get, wp_pure]
  cases h.queues vqRx with
  | none => exact .refused rfl rfl
  | some ring =>
    have hnext := keepsBooks_next
      (P := fun own pushed => own = h.own ∧ pushed = h.pushed) vqRx ring h ⟨rfl, rfl⟩
    rw [wp_bind]
    refine hnext.mono (fun found h₁ hbooks₁ => ?_) fun _ _ hbooks => unlogged_of_books hbooks
    cases found with
    | none => exact .refused hbooks₁.1 (usedOnRx_congr hbooks₁.2)
    | some chain =>
      simp only [wp_bind, wp_get, wp_ite, hbooks₁.1]
      refine ⟨fun _ => ?_, fun hfits => ?_⟩
      · refine (pushUsed_books vqRx ring chain.head 0 h₁).mono (fun _ h₂ hbooks₂ => ?_)
          fun _ _ hbooks => unlogged_of_books ⟨hbooks.1.trans hbooks₁.1, hbooks.2.trans hbooks₁.2⟩
        simp only [modifyOwn, wp_bind, wp_modify, wp_pure, hbooks₂.1, hbooks₁.1]
        refine .recycled _ ⟨faithful_empty chain _, rfl⟩ rfl (usedOnRx_pushed ?_)
        exact hbooks₂.2.trans (by rw [hbooks₁.2])
      · refine (writeIn_faithful chain _ (Nat.le_of_not_lt hfits) h₁).mono
          (fun written h₂ hwrite => ?_)
          fun _ _ hbooks => unlogged_of_books ⟨hbooks.1.trans hbooks₁.1, hbooks.2.trans hbooks₁.2⟩
        obtain ⟨hown₂, hpushed₂, hwritten, hfaithful⟩ := hwrite
        rw [wp_bind, wp_get, wp_bind]
        refine (pushUsed_books vqRx ring chain.head written h₂).mono (fun _ h₃ hbooks₃ => ?_)
          fun _ _ hbooks => unlogged_of_books
            ⟨hbooks.1.trans (hown₂.trans hbooks₁.1), hbooks.2.trans (hpushed₂.trans hbooks₁.2)⟩
        simp only [modifyOwn, wp_bind, wp_modify, wp_pure, hbooks₃.1, hown₂, hbooks₁.1]
        have hpushed₃ : h₃.pushed = h.pushed ++ [(vqRx, chain.head, written)] := by
          rw [hbooks₃.2, hpushed₂, hbooks₁.2]
        refine .sent ⟨⟨chain.head, chain.in_, _, written, h₂.memory⟩,
          r.map fun r => (r, h.own.heap r)⟩ ?_ rfl (usedOnRx_pushed hpushed₃)
        exact ⟨hfaithful, (decodeHdr_packet ..).1, (decodeHdr_packet ..).2.1,
          (decodeHdr_packet ..).2.2.1, (decodeHdr_packet ..).2.2.2, packet_payload ..,
          packet_ne_nil _ _ _ _ _ _ _, rfl⟩

end Packets

/-- The log where a control packet found no buffer, or the log as it was. -/
def Warned (pair : ℕ × ℕ) (r : Option Ref) (op : ℕ) (v v' : Vsock) : Prop :=
  v' = v ∨ v' = v.note (.blocked pair r op)

/-- A control packet only logs. -/
theorem pushControl_pushes (hostPort guestPort op : ℕ) (flags : ℕ) (r : Option Ref)
    (h : Host Vsock) :
    Wp (do
        noteBlocked (hostPort, guestPort) r op
        pushRx hostPort guestPort op [] flags r)
      (fun ok h' => ∃ v, Warned (hostPort, guestPort) r op h.own v ∧
        Pushes (hostPort, guestPort) op [] r { h with own := v } h' ok)
      (fun _ h' => Warned (hostPort, guestPort) r op h.own h'.own) h := by
  have hpush : ∀ v : Vsock, Warned (hostPort, guestPort) r op h.own v →
      Wp (pushRx hostPort guestPort op [] flags r)
        (fun ok h' => ∃ v, Warned (hostPort, guestPort) r op h.own v ∧
          Pushes (hostPort, guestPort) op [] r { h with own := v } h' ok)
        (fun _ h' => Warned (hostPort, guestPort) r op h.own h'.own) { h with own := v } := by
    intro v hwarned
    refine (pushRx_pushes hostPort guestPort op [] flags r { h with own := v }).mono
      (fun ok h' hpushes => ⟨v, hwarned, hpushes⟩) fun _ h' hunlogged => ?_
    rw [hunlogged.1]
    exact hwarned
  simp only [noteBlocked, wp_bind, wp_get]
  split
  · exact hpush h.own (Or.inl rfl)
  · exact hpush (h.own.note _) (Or.inr rfl)

section Moves
variable {I : Vsock → Prop} {h : Host Vsock}

abbrev Stays {α : Type} (I : Vsock → Prop) (x : Js (Host Vsock) α) : Prop :=
  Keeps (fun h : Host Vsock => I h.own) x

theorem stays_conn (r : Ref) : Stays I (conn r) := keeps_bind keeps_get fun _ => keeps_pure _

theorem Admits.warned (A : Admits I) {pair : ℕ × ℕ} {r : Option Ref} {op : ℕ} {v v' : Vsock}
    (hv : I v) (hwarned : Warned pair r op v v') : I v' := by
  rcases hwarned with rfl | rfl
  · exact hv
  · exact A.silent v hv _ (.blocked pair r op)

theorem Warned.heap {pair : ℕ × ℕ} {r : Option Ref} {op : ℕ} {v v' : Vsock}
    (h : Warned pair r op v v') : v'.heap = v.heap := by
  rcases h with rfl | rfl <;> rfl

theorem Warned.conns {pair : ℕ × ℕ} {r : Option Ref} {op : ℕ} {v v' : Vsock}
    (h : Warned pair r op v v') : v'.conns = v.conns := by
  rcases h with rfl | rfl <;> rfl

theorem Warned.mem_log {pair : ℕ × ℕ} {r : Option Ref} {op : ℕ} {v v' : Vsock}
    (h : Warned pair r op v v') {m : Mark} (hm : m ∈ v.log) : m ∈ v'.log := by
  rcases h with rfl | rfl
  · exact hm
  · exact List.mem_append_left _ hm

theorem Pushes.heap {pair : ℕ × ℕ} {op : ℕ} {payload : List UInt8} {r : Option Ref}
    {h h' : Host Vsock} {ok : Bool} (hpushes : Pushes pair op payload r h h' ok) :
    h'.own.heap = h.own.heap := by
  cases hpushes with
  | sent d hd hown hused => rw [hown]; rfl
  | recycled d hd hown hused => rw [hown]; rfl
  | refused hown hused => rw [hown]

/-- A push that fails gives back a buffer at most. -/
theorem Admits.unsent (A : Admits I) {pair : ℕ × ℕ} {op : ℕ} {payload : List UInt8}
    {r : Option Ref} {h' : Host Vsock} (hv : I h.own)
    (hpushes : Pushes pair op payload r h h' false) : I h'.own := by
  cases hpushes with
  | recycled d hd hown hused =>
    rw [hown]
    exact A.delivery _ hv d hd.op
  | refused hown hused =>
    rw [hown]
    exact hv

/-- The buffer of a packet that is no data. -/
theorem Admits.delivered (A : Admits I) {v : Vsock} (hv : I v) {d : RxDelivery} {pair : ℕ × ℕ}
    {op : ℕ} {payload : List UInt8} {sender : Option (Ref × VsockConnection)}
    (hd : d.Holds pair op payload sender) (hsmall : op < 2 ^ 16) (hrw : op ≠ opRw) :
    I (v.deliver d) := by
  refine A.delivery v hv d ?_
  rw [hd.op, Nat.mod_eq_of_lt hsmall]
  exact hrw

theorem Admits.noteDue (A : Admits I) (r : Ref) (op : ℕ) : Stays I (noteDue r op) :=
  keeps_bind (stays_conn r) fun _ => keeps_modify fun _ hv => A.silent _ hv _ (.due _ _ _)

theorem Admits.sendCtl (A : Admits I) (hv : I h.own) (r : Ref) (op flags : ℕ)
    (hsmall : op < 2 ^ 16) (hrw : op ≠ opRw) (hrst : op ≠ opRst)
    (hknown : (h.own.heap r).isOpen = true ∨ op = opCreditUpdate ∧ .consumed r true ∈ h.own.log) :
    Wp (sendCtl r op flags) (fun _ h' => I h'.own ∧ h'.own.heap = h.own.heap)
      (fun _ h' => I h'.own) h := by
  change Wp (do
    noteBlocked (h.own.heap r).key (some r) op
    pushRx (h.own.heap r).hostPort (h.own.heap r).guestPort op [] flags (some r)) _ _ h
  refine (pushControl_pushes _ _ op flags (some r) h).mono (fun ok h' hsent => ?_)
    fun _ h' hwarned => A.warned hv hwarned
  obtain ⟨v, hwarned, hpushes⟩ := hsent
  have hI : I v := A.warned hv hwarned
  refine ⟨?_, hpushes.heap.trans hwarned.heap⟩
  cases ok with
  | false => exact A.unsent (h := { h with own := v }) hI hpushes
  | true =>
    obtain ⟨d, hd, hown, -⟩ := hpushes
    have hkey : (h.own.heap r).key = (v.heap r).key := by rw [hwarned.heap]
    rw [hown]
    change I ((v.deliver d).note (.sent (h.own.heap r).key (some r) op))
    rw [hkey]
    refine A.control (v.deliver d) (A.delivered hI hd hsmall hrw) r op hrw hrst ?_
    change (v.heap r).isOpen = true ∨ op = opCreditUpdate ∧ .consumed r true ∈ v.log
    rw [hwarned.heap]
    exact hknown.imp id fun hc => ⟨hc.1, hwarned.mem_log hc.2⟩

/-- A bare RST, for a pair that is not in the table. -/
theorem Admits.sendRst (A : Admits I) (hv : I h.own) (hostPort guestPort : ℕ)
    (hknown : h.own.conns.get (hostPort, guestPort) = none ∨
      .opening (hostPort, guestPort) true ∈ h.own.log) :
    Wp (sendRst hostPort guestPort) (fun _ h' => I h'.own) (fun _ h' => I h'.own) h := by
  refine (pushControl_pushes _ _ opRst 0 none h).mono (fun ok h' hsent => ?_)
    fun _ h' hwarned => A.warned hv hwarned
  obtain ⟨v, hwarned, hpushes⟩ := hsent
  have hI : I v := A.warned hv hwarned
  cases ok with
  | false => exact A.unsent (h := { h with own := v }) hI hpushes
  | true =>
    obtain ⟨d, hd, hown, -⟩ := hpushes
    rw [hown]
    refine A.refused (v.deliver d) (A.delivered hI hd (by decide) (by decide))
      (hostPort, guestPort) ?_
    change v.conns.get (hostPort, guestPort) = none ∨ .opening (hostPort, guestPort) true ∈ v.log
    rw [hwarned.conns]
    exact hknown.imp id hwarned.mem_log

/-- The connections after a round whose packet went out. -/
theorem setConn_deliver (v : Vsock) (d : RxDelivery) (r : Ref) (n : ℕ) (head : List UInt8)
    (rest : List (List UInt8)) (m : Mark) :
    let v' := (v.deliver d).note m
    v'.setConn r { v'.heap r with
      txCnt := ((v'.heap r).txCnt + n) % 2 ^ 32
      pendingTx := if head.length ≤ n then rest else head.drop n :: rest } =
      ((v.deliver d).setConn r ((v.heap r).flushed n head rest)).note m := rfl

theorem Admits.flushLoop (A : Admits I) (fuel : ℕ) (r : Ref) (h : Host Vsock) (hv : I h.own)
    (hopen : (h.own.heap r).isOpen = true) :
    Wp (flushLoop fuel r) (fun _ h' => I h'.own) (fun _ h' => I h'.own) h := by
  induction fuel generalizing h with
  | zero => exact hv
  | succ fuel ih =>
    simp only [VsockDevice.flushLoop, conn, wp_bind, wp_get, wp_pure]
    cases hpending : (h.own.heap r).pendingTx with
    | nil => exact hv
    | cons head rest =>
      simp only [wp_ite, wp_bind]
      refine ⟨fun _ => hv, fun hpos => ?_⟩
      refine (pushRx_pushes _ _ opRw _ 0 (some r) h).mono (fun ok h' hpushes => ?_)
        fun _ h' hunlogged => by rw [hunlogged.1]; exact hv
      cases ok with
      | false =>
        rw [if_neg (by decide), wp_pure]
        exact A.unsent hv hpushes
      | true =>
        obtain ⟨d, hd, hown, -⟩ := hpushes
        rw [if_pos rfl]
        simp only [modifyConn, modifyOwn, wp_bind, wp_modify]
        rw [hown, setConn_deliver]
        refine ih _ (A.flush h.own hv r head rest d hopen hpending hpos hd) ?_
        simpa [Vsock.note, Vsock.setConn, VsockConnection.flushed] using hopen

theorem Admits.flushConnection (A : Admits I) (r : Ref) : Stays I (flushConnection r) := by
  intro h hv
  simp only [VsockDevice.flushConnection, conn, wp_bind, wp_get, wp_pure, wp_ite]
  exact ⟨fun hopen => A.flushLoop _ r h hv hopen, fun _ => hv⟩

theorem Admits.flushEach (A : Admits I) (rs : List Ref) : Stays I (flushEach rs) := by
  induction rs with
  | nil => exact keeps_pure _
  | cons r rest ih => exact keeps_bind (A.flushConnection r) fun _ => ih

theorem Admits.flushAll (A : Admits I) : Stays I flushAll :=
  keeps_bind keeps_get fun _ => A.flushEach _

theorem Admits.writeCall (A : Admits I) (r : Ref) (bytes : List UInt8) :
    Stays I (VsockDevice.write r bytes) := by
  intro h hv
  simp only [VsockDevice.write, conn, modifyConn, modifyOwn, wp_bind, wp_get, wp_pure, wp_ite,
    wp_modify]
  refine ⟨fun hopen => ?_, fun _ => hv⟩
  exact (A.flushConnection r _ (A.write h.own hv r bytes hopen)).mono (fun _ _ hv => hv)
    fun _ _ hv => hv

/-- The connection of a close is still open when its last packet has gone. -/
theorem Admits.closeConnection (A : Admits I) (hv : I h.own) (r : Ref)
    (hopen : (h.own.heap r).isOpen = true) {onClose : Js (Host Vsock) Unit}
    (honClose : Stays I onClose) :
    Wp (closeConnection r true onClose) (fun _ h' => I h'.own) (fun _ h' => I h'.own) h := by
  have hrest : ∀ h' : Host Vsock, (h'.own.heap r).key = (h.own.heap r).key → I (h'.own.shut r) →
      Wp (do
        modifyConn r fun c => { c with isOpen := false, pendingTx := [] }
        modifyOwn fun v => { v with conns := v.conns.delete (h.own.heap r).key }
        tryCatch onClose fun _ => pure ()) (fun _ h' => I h'.own) (fun _ h' => I h'.own) h' := by
    intro h' hkey hshut
    simp only [modifyConn, modifyOwn, wp_bind, wp_modify, wp_tryCatch]
    refine (honClose _ ?_).mono (fun _ _ hv => hv) fun _ _ hv => hv
    rw [← hkey]
    exact hshut
  simp only [VsockDevice.closeConnection, conn, wp_bind, wp_get, wp_pure, wp_ite]
  refine ⟨fun hgone => absurd hgone (by simp [hopen]), fun _ => ⟨fun _ => ?_, fun hno =>
    (hno trivial).elim⟩⟩
  refine (A.sendCtl hv r opShutdown _ (by decide) (by decide) (by decide) (Or.inl hopen)).mono
    (fun _ h₁ hsent => ?_) fun _ _ hv => hv
  obtain ⟨hv₁, hheap₁⟩ := hsent
  change Wp (do
    let _ ← (do
      noteBlocked (h₁.own.heap r).key (some r) opRst
      pushRx (h₁.own.heap r).hostPort (h₁.own.heap r).guestPort opRst [] 0 (some r))
    modifyConn r fun c => { c with isOpen := false, pendingTx := [] }
    modifyOwn fun v => { v with conns := v.conns.delete (h.own.heap r).key }
    tryCatch onClose fun _ => pure ()) _ _
    { h₁ with own := h₁.own.note (.due (h₁.own.heap r).key (some r) opRst) }
  have hdue := A.silent _ hv₁ _ (.due (h₁.own.heap r).key (some r) opRst)
  rw [wp_bind]
  refine (pushControl_pushes _ _ opRst 0 (some r) _).mono (fun ok h₂ hsent => ?_)
    fun _ h₂ hwarned => A.warned hdue hwarned
  obtain ⟨v, hwarned, hpushes⟩ := hsent
  have hI : I v := A.warned hdue hwarned
  have hheap : v.heap = h.own.heap := hwarned.heap.trans hheap₁
  have hheap₂ : h₂.own.heap = h.own.heap := hpushes.heap.trans hheap
  have hopen₂ : (h₂.own.heap r).isOpen = true := by rw [hheap₂]; exact hopen
  refine hrest h₂ (congrArg (fun heap => (heap r).key) hheap₂) ?_
  cases ok with
  | false => exact A.shut h₂.own (A.unsent (h := { h₁ with own := v }) hI hpushes) r hopen₂
  | true =>
    obtain ⟨d, hd, hown, -⟩ := hpushes
    have hkey : (h₁.own.heap r).key = (v.heap r).key := by rw [hheap, hheap₁]
    rw [hown]
    change I (((v.deliver d).note (.sent (h₁.own.heap r).key (some r) opRst)).shut r)
    rw [hkey]
    refine A.reset (v.deliver d) (A.delivered hI hd (by decide) (by decide)) r ?_
    change (v.heap r).isOpen = true
    rw [hheap]
    exact hopen

/-- The guest's RST closes the connection without an answer. -/
theorem Admits.closeReset (A : Admits I) (hv : I h.own) (r : Ref)
    (hopen : (h.own.heap r).isOpen = true) {onClose : Js (Host Vsock) Unit}
    (honClose : Stays I onClose) :
    Wp (do
      note (.reset (h.own.heap r).key)
      VsockDevice.closeConnection r false onClose) (fun _ h' => I h'.own) (fun _ h' => I h'.own)
      h := by
  simp only [VsockDevice.closeConnection, note, conn, modifyConn, modifyOwn, wp_bind, wp_get,
    wp_pure, wp_ite, wp_modify, wp_tryCatch]
  refine ⟨fun hgone => ?_, fun _ => ⟨fun hno => absurd hno (by decide), fun _ => ?_⟩⟩
  · exact absurd hgone (by simp [Vsock.note, hopen])
  · exact (honClose _ (A.shutReset h.own hv r hopen)).mono (fun _ _ hv => hv) fun _ _ hv => hv

/-- The first packet of a connection that has just been entered. -/
theorem Admits.sendFirst (A : Admits I) {v : Vsock} (hv : I v) (pair : ℕ × ℕ)
    (c : VsockConnection) (op : ℕ) (hkey : c.key = pair) (hidle : c.Idle)
    (hop : op = opRequest ∨ op = opResponse) (hown : h.own = v.opened pair c op) :
    Wp (VsockDevice.sendCtl v.fresh op 0) (fun _ h' => I h'.own) (fun _ h' => I h'.own) h := by
  have hopened : I h.own := by
    rw [hown]
    exact A.opened v hv pair c op hkey hidle hop
  have hopen : (h.own.heap v.fresh).isOpen = true := by
    rw [hown]
    simpa [Vsock.opened, Vsock.enter, Vsock.note, Vsock.setConn] using hidle.isOpen
  have hsmall : op < 2 ^ 16 := by
    rcases hop with rfl | rfl <;> decide
  have hrw : op ≠ opRw := by
    rcases hop with rfl | rfl <;> decide
  have hrst : op ≠ opRst := by
    rcases hop with rfl | rfl <;> decide
  exact (A.sendCtl hopened v.fresh op 0 hsmall hrw hrst (Or.inl hopen)).mono
    (fun _ _ hsent => hsent.1)
    fun _ _ hv => hv

theorem Admits.connect (A : Admits I) (guestPort : ℕ) : Stays I (connect guestPort) := by
  intro h hv
  set v : Vsock := { h.own with nextHostPort := h.own.nextHostPort + 1 } with hvdef
  set c : VsockConnection :=
    { VsockConnection.new h.own.nextHostPort guestPort with peerBufAlloc := hostBufAlloc } with hc
  have hport : I v := A.hostPort h.own hv _
  simp only [VsockDevice.connect, newConn, VsockDevice.noteDue, conn, note, modifyConn, modifyOwn,
    wp_bind, wp_get, wp_modify, wp_pure]
  refine (A.sendFirst hport c.key c opRequest rfl ⟨rfl, rfl, rfl⟩ (Or.inl rfl) ?_).mono
    (fun _ _ hv => hv) fun _ _ hv => hv
  simp [Vsock.opened, Vsock.enter, Vsock.note, Vsock.setConn, VsockConnection.key, hvdef, hc,
    VsockConnection.new]

mutual

theorem Admits.perform (A : Admits I) : ∀ act : Act, Stays I (perform act)
  | .write r bytes => keeps_bind (A.writeCall r bytes) fun _ => keeps_pure _
  | .close r onClose => by
    intro h hv
    simp only [VsockDevice.perform, conn, wp_bind, wp_get, wp_pure, wp_ite]
    exact ⟨fun hopen => A.closeConnection hv r hopen (A.performAll onClose), fun _ => hv⟩
  | .connect guestPort => keeps_bind (A.connect guestPort) fun _ => keeps_pure _
  | .listen _ => keeps_modify fun _ hv => A.listeners _ hv _
  | .unlisten _ => keeps_modify fun _ hv => A.listeners _ hv _

theorem Admits.performAll (A : Admits I) : ∀ acts : List Act, Stays I (performAll acts)
  | [] => keeps_pure _
  | act :: rest => keeps_bind (A.perform act) fun _ => A.performAll rest

end

theorem Admits.reaction (A : Admits I) (reaction : Reaction) : Stays I reaction.run :=
  keeps_bind (A.performAll _) fun _ => keeps_ite (keeps_throw _) (keeps_pure _)

theorem Admits.setCredit (A : Admits I) (r : Ref) (hdr : Hdr) : Stays I (setCredit r hdr) :=
  keeps_modify fun _ hv => A.credit _ hv r _ ⟨rfl, rfl, rfl, rfl⟩

theorem field_lt (pkt : List UInt8) (off n : ℕ) :
    Bytes.leValue ((pkt.drop off).take n) < 256 ^ n := by
  have hlt := Bytes.leValue_lt ((pkt.drop off).take n)
  have hle : ((pkt.drop off).take n).length ≤ n := by simp
  exact hlt.trans_le (Nat.pow_le_pow_right (by decide) hle)

theorem Admits.handleRequest (A : Admits I) (pkt : List UInt8) (reaction : Reaction) :
    Stays I (handleRequest (decodeHdr pkt) reaction) := by
  intro h hv
  have hdst : (decodeHdr pkt).dstPort < 4294967296 := field_lt pkt 20 4
  have hsrc : (decodeHdr pkt).srcPort < 4294967296 := field_lt pkt 16 4
  set pair := ((decodeHdr pkt).dstPort, (decodeHdr pkt).srcPort) with hpair
  set c : VsockConnection := { VsockConnection.new (decodeHdr pkt).dstPort (decodeHdr pkt).srcPort
    with peerBufAlloc := (decodeHdr pkt).bufAlloc, peerFwdCnt := (decodeHdr pkt).fwdCnt } with hc
  simp only [VsockDevice.handleRequest, newConn, VsockDevice.setCredit, VsockDevice.noteDue, conn,
    note, modifyConn, modifyOwn, wp_bind, wp_get, wp_ite, wp_modify, wp_pure]
  refine ⟨fun _ => ?_, fun _ => ?_⟩
  · refine (A.sendFirst hv pair c opResponse ?_ ⟨rfl, rfl, rfl⟩ (Or.inr rfl) ?_).mono
      (fun _ h' hv' => ?_) fun _ _ hv' => hv'
    · simp [hc, VsockConnection.new, VsockConnection.key, hdst, hsrc, hpair]
    · simp [Vsock.opened, Vsock.enter, Vsock.note, Vsock.setConn, VsockConnection.key, hc, hpair,
        VsockConnection.new, hdst, hsrc]
    · rw [wp_tryCatch]
      exact (A.reaction reaction h' hv').mono (fun _ _ hv => hv) fun _ _ hv => hv
  · refine A.sendRst (A.silent _ (A.opening _ hv pair) _ (.due pair none opRst)) _ _ ?_
    cases hget : h.own.conns.get pair with
    | none => exact Or.inl hget
    | some r =>
      exact Or.inr (List.mem_append_left _ (List.mem_append_right _ (List.mem_singleton_self _)))

/-- After the callback the connection is open, or its closing is on record. -/
theorem Admits.deliver (A : Admits I) (hv : I h.own) (r : Ref) (reaction : Reaction) :
    Wp (deliver r reaction) (fun _ h' => I h'.own ∧
      ((h'.own.heap r).isOpen = true ∨ .consumed r true ∈ h'.own.log))
        (fun _ h' => I h'.own) h := by
  simp only [VsockDevice.deliver, note, conn, modifyOwn, wp_bind, wp_tryCatch]
  refine (A.reaction reaction h hv).mono (fun _ h' hv' => ⟨A.silent _ hv' _ (.consumed _ _), ?_⟩)
    fun _ h' hv' => A.silent _ hv' _ (.threw r)
  cases hopen : (h'.own.heap r).isOpen with
  | true => exact Or.inl hopen
  | false => exact Or.inr (List.mem_append_right _ (List.mem_singleton_self _))

theorem Admits.handleRw (A : Admits I) (hdr : Hdr) (payload : List UInt8) (reaction : Reaction)
    (r : Ref) : Stays I (handleRw hdr payload reaction r) := by
  refine keeps_bind (A.setCredit r hdr) fun _ => ?_
  refine keeps_bind (keeps_modify fun _ hv => A.credit _ hv r _ ⟨rfl, rfl, rfl, rfl⟩) fun _ => ?_
  refine keeps_bind (A.noteDue r opCreditUpdate) fun _ => ?_
  intro h hv
  rw [wp_bind]
  refine (A.deliver hv r reaction).mono (fun _ h' hdelivered => ?_) fun _ _ hv => hv
  obtain ⟨hv', hknown⟩ := hdelivered
  rw [wp_bind]
  refine (A.sendCtl hv' r opCreditUpdate 0 (by decide) (by decide) (by decide)
    (hknown.imp id fun hclosed => ⟨rfl, hclosed⟩)).mono (fun _ h₁ hsent => ?_) fun _ _ hv => hv
  exact A.flushConnection r h₁ hsent.1

/-- The guest's answer finds its connection open already: closed ones left the table. -/
theorem Admits.handleResponse (A : Admits I) (hdr : Hdr) (r : Ref) (hv : I h.own)
    (hopen : (h.own.heap r).isOpen = true) :
    Wp (do
      VsockDevice.setCredit r hdr
      modifyConn r fun c => { c with isOpen := true }
      VsockDevice.flushConnection r) (fun _ h' => I h'.own) (fun _ h' => I h'.own) h := by
  have hcredited := A.credit h.own hv r { h.own.heap r with
    peerBufAlloc := hdr.bufAlloc, peerFwdCnt := hdr.fwdCnt } ⟨rfl, rfl, rfl, rfl⟩
  simp only [VsockDevice.setCredit, modifyConn, modifyOwn, wp_bind, wp_modify]
  refine A.flushConnection r _ (A.credit _ hcredited r _ ⟨rfl, ?_, rfl, rfl⟩)
  simpa [Vsock.setConn] using hopen.symm

theorem Admits.handleTxPacket (A : Admits I) (pkt : List UInt8) (reaction : Reaction) :
    Stays I (handleTxPacket pkt reaction) := by
  intro h hv
  simp only [VsockDevice.handleTxPacket, wp_ite, wp_bind, wp_get]
  refine ⟨fun _ => hv, fun _ => ⟨fun _ => A.handleRequest pkt reaction h hv, fun _ => ?_⟩⟩
  cases hfound : h.own.conns.get ((decodeHdr pkt).dstPort, (decodeHdr pkt).srcPort) with
  | none =>
    simp only [note, modifyOwn, wp_ite, wp_bind, wp_modify, wp_pure]
    exact ⟨fun _ => A.sendRst (A.silent _ hv _ (.due _ _ _)) _ _ (Or.inl hfound), fun _ => hv⟩
  | some r =>
    obtain ⟨hkey, hopen, -⟩ := A.table _ hv _ r hfound
    simp only [wp_ite]
    refine ⟨fun _ => A.handleResponse _ r hv hopen, fun _ => ?_⟩
    refine ⟨fun _ => A.handleRw _ _ _ r h hv, fun _ => ⟨fun _ => ?_, fun _ => ⟨fun _ => ?_,
      fun _ => ⟨fun _ => ⟨fun _ => ?_, fun _ => hv⟩, fun _ => ⟨fun _ => ?_, fun _ => hv⟩⟩⟩⟩⟩
    · exact keeps_bind (A.setCredit r _) (fun _ => A.flushConnection r) h hv
    · have hdue :
        I { h with own := h.own.note (.due (h.own.heap r).key (some r) opCreditUpdate) }.own :=
        A.silent _ hv _ (.due _ _ _)
      simp only [VsockDevice.noteDue, conn, note, modifyOwn, wp_bind, wp_get, wp_modify, wp_pure]
      exact (A.sendCtl hdue r opCreditUpdate 0 (by decide) (by decide) (by decide)
        (Or.inl hopen)).mono
        (fun _ _ hsent => hsent.1) fun _ _ hv => hv
    · exact A.closeConnection hv r hopen (A.reaction reaction)
    · rw [← hkey]
      exact A.closeReset hv r hopen (A.reaction reaction)

theorem Admits.serviceTx (A : Admits I) (reaction : Reaction) : Stays I (serviceTx reaction) := by
  refine keeps_bind (keeps_bind keeps_get fun _ => keeps_pure _) fun found => ?_
  cases found with
  | none => exact keeps_pure _
  | some ring =>
    refine keeps_bind (keepsOwn_next vqTx ring) fun taken => ?_
    cases taken with
    | none => exact keeps_pure _
    | some chain =>
      refine keeps_bind (keepsOwn_readOut chain) fun pkt => keeps_bind ?_ fun _ =>
        keeps_bind (keepsOwn_pushUsed vqTx ring _ _) fun _ => keeps_pure _
      intro h hv
      rw [wp_tryCatch]
      exact (A.handleTxPacket pkt reaction h hv).mono (fun _ _ hv => hv) fun _ _ hv => hv

end Moves

/-- The steps of a device with its guest and its host. -/
inductive Event
  /-- The guest stores into the shared memory: packets, credit, fresh rx buffers. -/
  | guest (memory : List UInt8)
  | setupQueue (q : ℕ) (layout : VringLayout)
  /-- One packet of a tx drain, with what the host's callback does meanwhile. -/
  | tx (reaction : Reaction)
  /-- The rx kick after a refill. -/
  | rx
  | host (act : Act)

def step (h : Host Vsock) : Event → Host Vsock
  | .guest memory => { h with memory }
  | .setupQueue q layout =>
    { h with
      queues := Function.update h.queues q (some layout)
      lastAvail := Function.update h.lastAvail q 0 }
  | .tx reaction => final (serviceTx reaction h)
  | .rx => final (flushAll h)
  | .host act => final (perform act h)

/-- A device with no connection yet. -/
def Vsock.initial (guestCid : ℕ) : Vsock :=
  ⟨guestCid, [], fun _ => { VsockConnection.new 0 0 with isOpen := false }, 0, .empty, 1024, [], []⟩

theorem Admits.step {I : Vsock → Prop} (A : Admits I) (h : Host Vsock) (e : Event) (hv : I h.own) :
    I (step h e).own := by
  cases e with
  | guest memory => exact hv
  | setupQueue q layout => exact hv
  | tx reaction => exact Wp.final (A.serviceTx reaction h hv)
  | rx => exact Wp.final (A.flushAll h hv)
  | host act => exact Wp.final (A.perform act h hv)

theorem Admits.run {I : Vsock → Prop} (A : Admits I) (h : Host Vsock) (events : List Event)
    (hv : I h.own) : I (run VsockDevice.step h events).own :=
  run_invariant (fun h : Host Vsock => I h.own) A.step events hv

end NixWasm.VsockDevice
