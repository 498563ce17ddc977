import NixWasm.VsockMoves

/-!
The table of a vsock device against its connection objects. As long as no pair is opened
while the table holds it, and no callback closes the connection whose data it is given, an
object is open exactly when the table maps its pair to it, and a pair that was reset stays
silent until it is opened again.
-/
namespace NixWasm.VsockDevice

open Effects Virtio Runs

/-- A pair is opened a second time, or a connection closed under the packet being handled. -/
def Mark.Collides : Mark → Prop
  | .opening _ taken => taken = true
  | .consumed _ closed => closed = true
  | _ => False

instance : DecidablePred Mark.Collides
  | .opening _ taken => inferInstanceAs (Decidable (taken = true))
  | .consumed _ closed => inferInstanceAs (Decidable (closed = true))
  | .sent .. | .reset _ | .threw _ | .due .. | .blocked .. => inferInstanceAs (Decidable False)

def Orderly (log : List Mark) : Prop := ∀ m ∈ log, ¬ m.Collides

instance (log : List Mark) : Decidable (Orderly log) := List.decidableBAll (¬ Mark.Collides ·) log

/-- A RST on the pair, from either side. -/
def Mark.Closes (pair : ℕ × ℕ) (m : Mark) : Prop :=
  m = .reset pair ∨ ∃ r, m = .sent pair r opRst

/-- After the last RST on the pair, if there was one, it was opened. -/
def Reopened (pair : ℕ × ℕ) (log : List Mark) : Prop :=
  ∀ before m between, log = before ++ m :: between → m.Closes pair →
    ∃ taken, .opening pair taken ∈ between

/-- Packets that belong to a connection. -/
def OfConnection (op : ℕ) : Prop := op = opRw ∨ op = opCreditUpdate ∨ op = opShutdown

/-- No packet of a connection goes out on a pair after a RST on it, until it is opened. -/
def Quiet (log : List Mark) : Prop :=
  ∀ before pair r op after, log = before ++ .sent pair r op :: after → OfConnection op →
    Reopened pair before

theorem Orderly.init {log : List Mark} {m : Mark} (h : Orderly (log ++ [m])) : Orderly log :=
  fun m' hm' => h m' (List.mem_append_left _ hm')

theorem Reopened.note {pair : ℕ × ℕ} {log : List Mark} (h : Reopened pair log) {m : Mark}
    (hm : ¬ m.Closes pair) : Reopened pair (log ++ [m]) := by
  intro before m' between heq hcloses
  rcases split_concat heq with ⟨-, rfl, -⟩ | ⟨between', rfl, hlog⟩
  · exact absurd hcloses hm
  · obtain ⟨taken, hmem⟩ := h before m' between' hlog hcloses
    exact ⟨taken, List.mem_append_left _ hmem⟩

theorem reopened_opening (pair : ℕ × ℕ) (log : List Mark) (taken : Bool) :
    Reopened pair (log ++ [.opening pair taken]) := by
  intro before m between heq hcloses
  rcases split_concat heq with ⟨-, rfl, -⟩ | ⟨between', rfl, -⟩
  · rcases hcloses with heq | ⟨r, heq⟩ <;> cases heq
  · exact ⟨taken, List.mem_append_right _ (List.mem_singleton_self _)⟩

theorem Quiet.note {log : List Mark} (h : Quiet log) {m : Mark}
    (hm : ∀ pair r op, m = .sent pair r op → OfConnection op → Reopened pair log) :
    Quiet (log ++ [m]) := by
  intro before pair r op after heq hop
  rcases split_concat heq with ⟨rfl, rfl, -⟩ | ⟨after', rfl, hlog⟩
  · exact hm pair r op rfl hop
  · exact h before pair r op after' hlog hop

/-- The objects that are open are those of the table, and only their pairs are in use. -/
structure Consistent (v : Vsock) : Prop where
  opens : ∀ r, (v.heap r).isOpen = true → v.conns.get (v.heap r).key = some r
  live : ∀ pair r, v.conns.get pair = some r → Reopened pair v.log
  quiet : Quiet v.log

/-- An orderly past leaves the device consistent. -/
structure Tabled (v : Vsock) : Prop where
  table : TableOpen v
  orderly : Orderly v.log → Consistent v

section Updates
variable {v : Vsock} {r : Ref} {c : VsockConnection}

theorem Consistent.setConn (h : Consistent v) (hkey : c.key = (v.heap r).key)
    (hopen : c.isOpen = (v.heap r).isOpen) : Consistent (v.setConn r c) := by
  refine ⟨fun s ho => ?_, h.live, h.quiet⟩
  by_cases hs : s = r
  · subst hs
    have hget := h.opens s (by simpa [Vsock.setConn, hopen] using ho)
    simpa [Vsock.setConn, hkey] using hget
  · have hget := h.opens s (by simpa [Vsock.setConn, hs] using ho)
    simpa [Vsock.setConn, hs] using hget

/-- A mark that closes no pair of the table, and is no packet of a silent one. -/
theorem Consistent.note (h : Consistent v) {m : Mark}
    (hcloses : ∀ pair s, v.conns.get pair = some s → ¬ m.Closes pair)
    (hsent : ∀ pair s op, m = .sent pair s op → OfConnection op → Reopened pair v.log) :
    Consistent (v.note m) :=
  ⟨h.opens, fun pair s hget => (h.live pair s hget).note (hcloses pair s hget), h.quiet.note hsent⟩

/-- A connection takes a pair that was free. -/
theorem Consistent.enter (h : Consistent v) {pair : ℕ × ℕ} (hfree : v.conns.get pair = none)
    (hkey : c.key = pair) (hreopened : Reopened pair v.log) : Consistent (v.enter pair c) := by
  refine ⟨fun s ho => ?_, fun p s hget => ?_, h.quiet⟩
  · change (v.conns.set pair v.fresh).get _ = some s
    by_cases hs : s = v.fresh
    · subst hs
      have hself : ((v.enter pair c).heap v.fresh).key = pair := by
        simpa [Vsock.enter, Vsock.setConn] using hkey
      rw [hself, JsMap.get_set_self]
    · have hheap : (v.enter pair c).heap s = v.heap s := by simp [Vsock.enter, Vsock.setConn, hs]
      rw [hheap] at ho ⊢
      have hget := h.opens s ho
      have hne : (v.heap s).key ≠ pair := by
        intro heq
        rw [heq, hfree] at hget
        cases hget
      rwa [JsMap.get_set_of_ne _ _ hne]
  · change (v.conns.set pair v.fresh).get p = some s at hget
    by_cases hp : p = pair
    · rw [hp]
      exact hreopened
    · rw [JsMap.get_set_of_ne _ _ hp] at hget
      exact h.live p s hget

/-- A connection leaves the table with a mark that closes no other pair. -/
theorem Consistent.shut (h : Consistent v) (hopen : (v.heap r).isOpen = true) {log : List Mark}
    (hlive : ∀ pair s, v.conns.get pair = some s → pair ≠ (v.heap r).key → Reopened pair log)
    (hquiet : Quiet log) : Consistent ({ v with log := log }.shut r) := by
  refine ⟨fun s ho => ?_, fun pair s hget => ?_, hquiet⟩
  · by_cases hs : s = r
    · subst hs
      simp [Vsock.shut, Vsock.setConn] at ho
    · have hheap : ({ v with log := log }.shut r).heap s = v.heap s := by
        simp [Vsock.shut, Vsock.setConn, hs]
      rw [hheap] at ho ⊢
      have hget := h.opens s ho
      have hne : (v.heap s).key ≠ (v.heap r).key := by
        intro heq
        rw [heq, h.opens r hopen] at hget
        cases hget
        exact hs rfl
      change (v.conns.delete (v.heap r).key).get (v.heap s).key = some s
      rwa [JsMap.get_delete_of_ne _ hne]
  · change (v.conns.delete (v.heap r).key).get pair = some s at hget
    have hne : pair ≠ (v.heap r).key := by
      rintro rfl
      rw [JsMap.get_delete_self] at hget
      cases hget
    rw [JsMap.get_delete_of_ne _ hne] at hget
    exact hlive pair s hget hne

end Updates

/-- A mark on an orderly log. -/
theorem Tabled.note {v : Vsock} (h : Tabled v) {m : Mark}
    (hcloses : Orderly v.log → ∀ pair s, v.conns.get pair = some s → ¬ m.Closes pair)
    (hsent : Orderly v.log → ∀ pair s op, m = .sent pair s op → OfConnection op →
      Reopened pair v.log) : Tabled (v.note m) := by
  refine ⟨h.table, fun horderly => ?_⟩
  have hinit : Orderly v.log := horderly.init
  exact (h.orderly hinit).note (hcloses hinit) (hsent hinit)

/-- The rest of the device is not part of what is tabled. -/
theorem Tabled.congr {v v' : Vsock} (h : Tabled v) (hheap : v'.heap = v.heap)
    (hconns : v'.conns = v.conns) (hfresh : v'.fresh = v.fresh) (hlog : v'.log = v.log) :
    Tabled v' := by
  obtain ⟨cid, listeners, heap, fresh, conns, port, log, deliveries⟩ := v'
  cases hheap
  cases hconns
  cases hfresh
  cases hlog
  exact ⟨h.table, fun horderly =>
    ⟨(h.orderly horderly).opens, (h.orderly horderly).live, (h.orderly horderly).quiet⟩⟩

theorem Tabled.deliver {v : Vsock} (h : Tabled v) (d : RxDelivery) : Tabled (v.deliver d) :=
  h.congr rfl rfl rfl rfl

theorem not_closes_of_silent {m : Mark} (h : m.Silent) (pair : ℕ × ℕ) : ¬ m.Closes pair := by
  rintro (rfl | ⟨r, rfl⟩) <;> cases h

theorem not_sent_of_silent {m : Mark} (h : m.Silent) (pair : ℕ × ℕ) (r : Option Ref) (op : ℕ) :
    m ≠ .sent pair r op := by
  rintro rfl
  cases h

theorem closes_sent_iff (pair p : ℕ × ℕ) (r : Option Ref) (op : ℕ) :
    (Mark.sent p r op).Closes pair ↔ p = pair ∧ op = opRst := by
  constructor
  · rintro (heq | ⟨s, heq⟩) <;> cases heq
    exact ⟨rfl, rfl⟩
  · rintro ⟨rfl, rfl⟩
    exact Or.inr ⟨r, rfl⟩

theorem Tabled.silent {v : Vsock} (h : Tabled v) {m : Mark} (hm : m.Silent) : Tabled (v.note m) :=
  h.note (fun _ pair _ _ => not_closes_of_silent hm pair)
    fun _ pair s op heq _ => absurd heq (not_sent_of_silent hm pair s op)

theorem Tabled.opening {v : Vsock} (h : Tabled v) (pair : ℕ × ℕ) (taken : Bool) :
    Tabled (v.note (.opening pair taken)) := by
  refine h.note (fun _ p s _ hcloses => ?_) fun _ p s op heq _ => by cases heq
  rcases hcloses with heq | ⟨r, heq⟩ <;> cases heq

/-- A packet of a connection that is open. -/
theorem Tabled.sent {v : Vsock} (h : Tabled v) {r : Ref} {op : ℕ} (hrst : op ≠ opRst)
    (hopen : Orderly v.log → (v.heap r).isOpen = true) :
    Tabled (v.note (.sent (v.heap r).key (some r) op)) := by
  refine h.note (fun _ pair s _ hcloses => hrst ((closes_sent_iff _ _ _ _).mp hcloses).2) ?_
  intro horderly pair s op' heq _
  cases heq
  exact (h.orderly horderly).live _ r ((h.orderly horderly).opens r (hopen horderly))

theorem Tabled.setConn {v : Vsock} (h : Tabled v) {r : Ref} {c : VsockConnection}
    (hkey : c.key = (v.heap r).key) (hopen : c.isOpen = (v.heap r).isOpen) :
    Tabled (v.setConn r c) :=
  ⟨h.table.setConn hkey hopen.trans, fun horderly => (h.orderly horderly).setConn hkey hopen⟩

/-- A connection leaves the table with a RST on its pair. -/
theorem Tabled.shut {v : Vsock} (h : Tabled v) {r : Ref} (hopen : (v.heap r).isOpen = true)
    {m : Mark} (hcloses : ∀ pair, m.Closes pair → pair = (v.heap r).key)
    (hsent : ∀ pair s op, m = .sent pair s op → ¬ OfConnection op) :
    Tabled ((v.note m).shut r) := by
  refine ⟨TableOpen.shut (v := v.note m) h.table r, fun horderly => ?_⟩
  have hc : Consistent v := h.orderly horderly.init
  refine hc.shut hopen (fun pair s hget hne => ?_) ?_
  · exact (hc.live pair s hget).note fun hclose => hne (hcloses pair hclose)
  · exact hc.quiet.note fun pair s op heq hop => absurd hop (hsent pair s op heq)

theorem admits_tabled : Admits Tabled where
  table _ h := h.table
  listeners _ h _ := h.congr rfl rfl rfl rfl
  hostPort _ h _ := h.congr rfl rfl rfl rfl
  silent _ h _ hm := h.silent hm
  delivery _ h d _ := h.deliver d
  opening _ h pair := h.opening pair _
  refused v h pair hknown := by
    refine h.note (fun horderly p s hget hcloses => ?_) fun _ p s op heq hop => ?_
    · obtain ⟨rfl, -⟩ := (closes_sent_iff _ _ _ _).mp hcloses
      rcases hknown with hnone | htaken
      · rw [hnone] at hget
        cases hget
      · exact horderly _ htaken rfl
    · cases heq
      rcases hop with heq | heq | heq <;> cases heq
  opened v h pair c op hkey hidle _ := by
    refine Tabled.silent ?_ (.due _ _ _)
    have hopening := h.opening pair (v.conns.get pair).isSome
    refine ⟨TableOpen.enter hopening.table hkey hidle.isOpen, fun horderly => ?_⟩
    refine (hopening.orderly horderly).enter ?_ hkey (reopened_opening _ _ _)
    by_contra hsome
    exact horderly _ (List.mem_append_right _ (List.mem_singleton_self _))
      (Option.isSome_iff_ne_none.mpr hsome)
  credit _ h _ _ hsame := h.setConn hsame.key hsame.isOpen
  write _ h _ _ _ := h.setConn rfl rfl
  flush v h r head rest d hopen _ _ _ := by
    have hset : Tabled ((v.deliver d).setConn r
        ((v.heap r).flushed (min head.length (v.heap r).creditAvailable) head rest)) :=
      (h.deliver d).setConn rfl rfl
    have hkey : (v.heap r).key = (((v.deliver d).setConn r ((v.heap r).flushed
        (min head.length (v.heap r).creditAvailable) head rest)).heap r).key := by
      simp [Vsock.setConn, VsockConnection.flushed, VsockConnection.key]
    rw [hkey]
    refine hset.sent (by decide) fun _ => ?_
    simpa [Vsock.setConn, VsockConnection.flushed] using hopen
  control v h r op _ hrst hknown := by
    refine h.sent hrst fun horderly => ?_
    rcases hknown with hopen | ⟨-, hclosed⟩
    · exact hopen
    · exact absurd rfl (horderly _ hclosed)
  shut v h r hopen :=
    ⟨h.table.shut r, fun horderly => (h.orderly horderly).shut hopen
      (fun pair s hget _ => (h.orderly horderly).live pair s hget) (h.orderly horderly).quiet⟩
  reset v h r hopen := by
    refine h.shut hopen (fun pair hcloses => ?_) fun pair s op heq hop => ?_
    · exact ((closes_sent_iff _ _ _ _).mp hcloses).1.symm
    · cases heq
      rcases hop with heq | heq | heq <;> cases heq
  shutReset v h r hopen := by
    refine h.shut hopen (fun pair hcloses => ?_) fun pair s op heq _ => by cases heq
    rcases hcloses with heq | ⟨s, heq⟩ <;> cases heq
    rfl

theorem tabled_initial (guestCid : ℕ) : Tabled (Vsock.initial guestCid) := by
  refine ⟨fun _ _ hget => (by cases hget), fun _ => ⟨fun r hopen => ?_, fun _ _ hget => ?_, ?_⟩⟩
  · simp [Vsock.initial] at hopen
  · cases hget
  · intro before pair r op after heq
    simp [Vsock.initial] at heq

/-- In a run in which no pair is opened while it is in the table, and no onData callback
that returns has closed its own connection, an object is open exactly when the table maps
its pair to it, and after a RST on a pair no packet of a connection goes out on it until
the pair is opened again. -/
theorem orderly_run (h : Host Vsock) (guestCid : ℕ) (hinitial : h.own = Vsock.initial guestCid)
    (events : List Event) (horderly : Orderly (run step h events).own.log) :
    let v := (run step h events).own
    (∀ r, (v.heap r).isOpen = true ↔ v.conns.get (v.heap r).key = some r) ∧
      ∀ before close between pair r op after,
        v.log = before ++ close :: between ++ .sent pair r op :: after → close.Closes pair →
        op = opRw ∨ op = opCreditUpdate ∨ op = opShutdown →
        ∃ taken, .opening pair taken ∈ between := by
  have hrun := admits_tabled.run h events (hinitial ▸ tabled_initial guestCid)
  have hc := hrun.orderly horderly
  refine ⟨fun r => ⟨hc.opens r, fun hget => (hrun.table _ r hget).2.1⟩, ?_⟩
  intro before close between pair r op after hlog hcloses hop
  exact hc.quiet _ pair r op after hlog hop before close between rfl hcloses

section Runs

/-- A packet of the guest. -/
def guestPacket (srcPort dstPort op flags : ℕ) (payload : List UInt8) : List UInt8 :=
  Bytes.leBytes 8 vsockGuestCid ++ Bytes.leBytes 8 vmaddrCidHost ++ Bytes.leBytes 4 srcPort ++
    Bytes.leBytes 4 dstPort ++ Bytes.leBytes 4 payload.length ++ Bytes.leBytes 2 typeStream ++
    Bytes.leBytes 2 op ++ Bytes.leBytes 4 flags ++ Bytes.leBytes 4 4096 ++ Bytes.leBytes 4 0 ++
    payload

def descriptor (addr len flags : ℕ) : List UInt8 :=
  Bytes.leBytes 8 addr ++ Bytes.leBytes 4 len ++ Bytes.leBytes 2 flags ++ Bytes.leBytes 2 0

/-- The heads of a queue of `num` entries, the first `exposed` of them available. -/
def availRing (num exposed : ℕ) : List UInt8 :=
  Bytes.leBytes 2 0 ++ Bytes.leBytes 2 exposed ++
    (List.range num).flatMap fun head => Bytes.leBytes 2 head

/-- Four rx entries, `buffers` of them available with 48 bytes each, and two packets of the
guest. -/
def guestMemory (buffers : ℕ) (first second : List UInt8) : List UInt8 :=
  (List.range 4).flatMap (fun i => descriptor (172 + 48 * i) 48 descFWrite) ++
    descriptor 364 first.length 0 ++ descriptor (364 + first.length) second.length 0 ++
    availRing 4 buffers ++ availRing 2 2 ++ List.replicate 248 0 ++ first ++ second

theorem rxEntries_pos : 0 < 4 := by decide

def rxLayout : VringLayout := ⟨0, 96, 116, 4, rxEntries_pos⟩
def txLayout : VringLayout := ⟨64, 108, 152, 2, Nat.two_pos⟩

/-- A device without queues. -/
def idle : Host Vsock :=
  ⟨[], 4096, fun _ => none, fun _ => 0, [], [], .initial 3⟩

/-- The queues are set up and the host listens on port 7. -/
def setup (buffers : ℕ) (first second : List UInt8) : List Event :=
  [.guest (guestMemory buffers first second), .setupQueue vqRx rxLayout, .setupQueue vqTx txLayout,
    .host (.listen 7)]

/-- The guest connects and sends a byte; `acts` is what the host does with it. -/
def greeting (acts : List Act) : List Event :=
  setup 4 (guestPacket 5 7 opRequest 0 []) (guestPacket 5 7 opRw 0 [0x61]) ++
    [.tx ⟨[], false⟩, .tx ⟨acts, false⟩]

/-- The guest asks twice for the same pair. -/
def askedTwice : List Event :=
  setup 4 (guestPacket 5 7 opRequest 0 []) (guestPacket 5 7 opRequest 0 []) ++
    [.tx ⟨[], false⟩, .tx ⟨[], false⟩]

/-- The host closes when the packet is done. -/
def hungUp : List Event := greeting [] ++ [.host (.close 0 [])]

theorem hungUp_log : (run step idle hungUp).own.log =
    [.opening (7, 5) false, .due (7, 5) (some 0) opResponse, .sent (7, 5) (some 0) opResponse,
      .due (7, 5) (some 0) opCreditUpdate, .consumed 0 false,
      .sent (7, 5) (some 0) opCreditUpdate, .sent (7, 5) (some 0) opShutdown,
      .due (7, 5) (some 0) opRst, .sent (7, 5) (some 0) opRst] := by
  decide +kernel

theorem orderly_run_hungUp :
    let v := (run step idle hungUp).own
    (∀ r, (v.heap r).isOpen = true ↔ v.conns.get (v.heap r).key = some r) ∧
      ∀ before close between pair r op after,
        v.log = before ++ close :: between ++ .sent pair r op :: after → close.Closes pair →
        op = opRw ∨ op = opCreditUpdate ∨ op = opShutdown →
        ∃ taken, .opening pair taken ∈ between := by
  have horderly : Orderly (run step idle hungUp).own.log := by
    rw [hungUp_log]
    decide
  exact orderly_run idle 3 rfl hungUp horderly

/-- A second REQUEST for the pair leaves the first object open and out of the table; an
onData callback that closes its connection is followed by a CREDIT_UPDATE after the RST. -/
theorem table_inconsistent :
    (¬ ∀ r, ((run step idle askedTwice).own.heap r).isOpen = true ↔
      (run step idle askedTwice).own.conns.get ((run step idle askedTwice).own.heap r).key =
        some r) ∧
      ¬ Quiet (run step idle (greeting [.close 0 []])).own.log := by
  have hopen : ((run step idle askedTwice).own.heap 0).isOpen = true ∧
      (run step idle askedTwice).own.conns.get ((run step idle askedTwice).own.heap 0).key =
        some 1 := by
    decide +kernel
  have hlog : (run step idle (greeting [.close 0 []])).own.log =
      [.opening (7, 5) false, .due (7, 5) (some 0) opResponse, .sent (7, 5) (some 0) opResponse,
        .due (7, 5) (some 0) opCreditUpdate, .sent (7, 5) (some 0) opShutdown,
        .due (7, 5) (some 0) opRst] ++ .sent (7, 5) (some 0) opRst :: [.consumed 0 true] ++
        .sent (7, 5) (some 0) opCreditUpdate :: [] := by
    decide +kernel
  refine ⟨fun hiff => ?_, fun hquiet => ?_⟩
  · have hself := (hiff 0).mp hopen.1
    rw [hopen.2] at hself
    cases hself
  · obtain ⟨taken, hmem⟩ := hquiet _ _ _ _ _ hlog (Or.inr (Or.inl rfl)) _ _ _ rfl
      (Or.inr ⟨some 0, rfl⟩)
    cases List.mem_singleton.mp hmem

end Runs

end NixWasm.VsockDevice
