import NixWasm.VsockTable

/-!
The control packets a vsock device owes. They are tried once, when they fall due, and are
never tried again. If the rx queue has a buffer each time, and no onData callback throws,
every control packet that falls due goes out, and a connection's first packet goes out
before its data. What the log calls a packet is one in a used buffer of the rx queue.
-/
namespace NixWasm.VsockDevice

open Bytes Effects Virtio Runs

/-- A control packet without a buffer, or a callback whose throw skips the packet after it. -/
def Mark.Hinders : Mark → Prop
  | .blocked .. => True
  | .threw _ => True
  | _ => False

instance : DecidablePred Mark.Hinders
  | .blocked .. | .threw _ => inferInstanceAs (Decidable True)
  | .opening .. | .sent .. | .reset _ | .consumed .. | .due .. => inferInstanceAs (Decidable False)

def Unhindered (log : List Mark) : Prop := ∀ m ∈ log, ¬ m.Hinders

instance (log : List Mark) : Decidable (Unhindered log) :=
  List.decidableBAll (¬ Mark.Hinders ·) log

/-- Each packet that is due goes out: at once, or, when it acknowledges data, after the
callback that got the data. -/
inductive Answered : List Mark → Prop
  | nil : Answered []
  | other {m : Mark} {log : List Mark} (hm : ∀ pair r op, m ≠ .due pair r op)
      (h : Answered log) : Answered (m :: log)
  | now {pair : ℕ × ℕ} {r : Option Ref} {op : ℕ} {log : List Mark} (h : Answered log) :
      Answered (.due pair r op :: .sent pair r op :: log)
  | later {pair : ℕ × ℕ} {r : Option Ref} {during log : List Mark} (hduring : Answered during)
      (h : Answered log) :
      Answered (.due pair r opCreditUpdate :: during ++ .sent pair r opCreditUpdate :: log)

theorem Answered.append {a b : List Mark} (ha : Answered a) (hb : Answered b) :
    Answered (a ++ b) := by
  induction ha with
  | nil => exact hb
  | other hm _ ih => exact .other hm ih
  | now _ ih => exact .now ih
  | later hduring _ _ ih =>
    rw [List.append_assoc, List.cons_append]
    exact .later hduring ih

theorem Unhindered.left {a b : List Mark} (h : Unhindered (a ++ b)) : Unhindered a :=
  fun m hm => h m (List.mem_append_left _ hm)

theorem Unhindered.right {a b : List Mark} (h : Unhindered (a ++ b)) : Unhindered b :=
  fun m hm => h m (List.mem_append_right _ hm)

section Books

/-- The ports and the op that a packet of the log has in its header, and its connection. -/
def Mark.header : Mark → Option (ℕ × ℕ × ℕ × Option Ref)
  | .sent pair r op => some (pair.1 % 2 ^ 32, pair.2 % 2 ^ 32, op % 2 ^ 16, r)
  | _ => none

def RxDelivery.header (d : RxDelivery) : ℕ × ℕ × ℕ × Option Ref :=
  (d.hdr.srcPort, d.hdr.dstPort, d.hdr.op, d.sender.map Prod.fst)

/-- The used ring, the log and the buffers tell the same: each used buffer has the bytes that
were delivered in it, and the packets of the log are those in the buffers, in order. -/
structure Booked (used : List (ℕ × ℕ)) (marks : List Mark) (deliveries : List RxDelivery) :
    Prop where
  used : used = deliveries.map fun d => (d.head, d.used)
  faithful : ∀ d ∈ deliveries, d.toDelivery.Faithful
  packets : marks.filterMap Mark.header =
    (deliveries.filter fun d => d.bytes ≠ []).map RxDelivery.header

theorem booked_nil : Booked [] [] [] := ⟨rfl, fun _ hd => absurd hd List.not_mem_nil, rfl⟩

theorem Booked.append {used used' : List (ℕ × ℕ)} {marks marks' : List Mark}
    {deliveries deliveries' : List RxDelivery} (h : Booked used marks deliveries)
    (h' : Booked used' marks' deliveries') :
    Booked (used ++ used') (marks ++ marks') (deliveries ++ deliveries') := by
  refine ⟨?_, fun d hd => (List.mem_append.mp hd).elim (h.faithful d) (h'.faithful d), ?_⟩
  · rw [h.used, h'.used, List.map_append]
  · rw [List.filterMap_append, h.packets, h'.packets, List.filter_append, List.map_append]

/-- The device has come from `h` to `h'` with these marks, and its books are in order. -/
def Adds (h h' : Host Vsock) (block : List Mark) : Prop :=
  h'.own.log = h.own.log ++ block ∧ ∃ used deliveries,
    usedOnRx h' = usedOnRx h ++ used ∧ h'.own.deliveries = h.own.deliveries ++ deliveries ∧
      Booked used block deliveries

theorem Adds.trans {h h₁ h₂ : Host Vsock} {block more : List Mark} (hfirst : Adds h h₁ block)
    (hsecond : Adds h₁ h₂ more) : Adds h h₂ (block ++ more) := by
  obtain ⟨hlog, used, deliveries, hused, hdeliveries, hbooked⟩ := hfirst
  obtain ⟨hlog', used', deliveries', hused', hdeliveries', hbooked'⟩ := hsecond
  refine ⟨?_, used ++ used', deliveries ++ deliveries', ?_, ?_, hbooked.append hbooked'⟩
  · rw [hlog', hlog, List.append_assoc]
  · rw [hused', hused, List.append_assoc]
  · rw [hdeliveries', hdeliveries, List.append_assoc]

theorem adds_nothing {h h' : Host Vsock} (hlog : h'.own.log = h.own.log)
    (hdeliveries : h'.own.deliveries = h.own.deliveries) (hused : usedOnRx h' = usedOnRx h) :
    Adds h h' [] := by
  refine ⟨?_, [], [], ?_, ?_, booked_nil⟩
  · rw [hlog, List.append_nil]
  · rw [hused, List.append_nil]
  · rw [hdeliveries, List.append_nil]

theorem adds_note (h : Host Vsock) {m : Mark} (hm : m.header = none) :
    Adds h { h with own := h.own.note m } [m] := by
  refine ⟨rfl, [], [], (List.append_nil _).symm, (List.append_nil _).symm, rfl,
    fun _ hd => absurd hd List.not_mem_nil, ?_⟩
  rw [List.filterMap_cons, hm]
  rfl

theorem adds_unlogged {h h' : Host Vsock} (hunlogged : Unlogged h h') : Adds h h' [] :=
  adds_nothing (congrArg Vsock.log hunlogged.1) (congrArg Vsock.deliveries hunlogged.1)
    hunlogged.2

/-- The mark of a packet that went out, if one did. -/
theorem Pushes.adds {pair : ℕ × ℕ} {op : ℕ} {payload : List UInt8} {r : Option Ref}
    {h h' : Host Vsock} {ok : Bool} (hpushes : Pushes pair op payload r h h' ok) :
    Adds h h' (if ok then [.sent pair r op] else []) := by
  cases hpushes with
  | sent d hd hown hused =>
    refine ⟨congrArg Vsock.log hown, _, _, hused, congrArg Vsock.deliveries hown, rfl,
      fun d' hd' => List.mem_singleton.mp hd' ▸ hd.faithful, ?_⟩
    have hfilter : [d].filter (fun d => d.bytes ≠ []) = [d] :=
      List.filter_cons_of_pos (decide_eq_true hd.bytes)
    have hsender : d.sender.map Prod.fst = r := by
      rw [hd.sender]
      cases r <;> rfl
    rw [hfilter, List.map_singleton, RxDelivery.header, hd.srcPort, hd.dstPort, hd.op, hsender]
    rfl
  | recycled d hd hown hused =>
    refine ⟨?_, _, _, hused, congrArg Vsock.deliveries hown, rfl,
      fun d' hd' => List.mem_singleton.mp hd' ▸ hd.faithful, ?_⟩
    · rw [hown]
      exact (List.append_nil _).symm
    · have hfilter : [d].filter (fun d => d.bytes ≠ []) = [] :=
        List.filter_cons_of_neg (by simpa using hd.bytes)
      rw [hfilter]
      rfl
  | refused hown hused => exact adds_unlogged ⟨hown, hused⟩

end Books

section Ready
variable {h : Host Vsock}

/-- With a buffer on the rx queue a control packet goes out. -/
theorem pushRx_ready (hready : rxReady h = true) (hostPort guestPort op flags : ℕ)
    (r : Option Ref) :
    Wp (pushRx hostPort guestPort op [] flags r) (fun ok _ => ok = true) (fun _ _ => False) h := by
  unfold rxReady at hready
  cases hring : h.queues vqRx with
  | none => simp [hring] at hready
  | some ring =>
    cases hnext : next vqRx ring h with
    | error e h₁ => simp [hring, hnext] at hready
    | ok found h₁ =>
      cases found with
      | none => simp [hring, hnext] at hready
      | some chain =>
        simp only [hring, hnext, decide_eq_true_eq] at hready
        obtain ⟨hroom, hinside, hused⟩ := hready
        have hmemory : h₁.memory = h.memory := by
          have hkeeps := keepsMemory_next h.memory vqRx ring h rfl
          rwa [wp_of_ok hnext] at hkeeps
        have hfits : ¬ inCapacity chain < vsockHdrLen := Nat.not_lt.mpr hroom
        simp only [pushRx, vring, wp_bind, wp_get, wp_pure, hring]
        rw [wp_of_ok hnext]
        simp only [wp_bind, wp_get, wp_ite, packet_length, List.length_nil, Nat.add_zero, hfits,
          IsEmpty.forall_iff, true_and]
        refine fun _ => ?_
        simp only [writeIn, wp_bind]
        refine (succeeds_writeSegments chain.in_ _ h₁ (congrArg List.length hmemory) hinside).mono
          (fun _ h₂ hlength => ?_) fun _ _ hfalse => hfalse
        rw [wp_pure, wp_bind, wp_get, wp_bind]
        exact (succeeds_pushUsed hlength vqRx ring _ _ hused).mono (fun _ h₃ _ => rfl)
          fun _ _ hfalse => hfalse

/-- A control packet goes out, or its failure is on record. -/
theorem pushControl_adds (hostPort guestPort op flags : ℕ) (r : Option Ref) :
    Wp (do
        noteBlocked (hostPort, guestPort) r op
        pushRx hostPort guestPort op [] flags r)
      (fun _ h' => ∃ block, Adds h h' block ∧
        (Unhindered block → block = [.sent (hostPort, guestPort) r op]))
      (fun _ h' => ∃ block, Adds h h' block ∧ ¬ Unhindered block) h := by
  by_cases hready : rxReady h = true
  · simp only [noteBlocked, wp_bind, wp_get, if_pos hready, wp_pure]
    refine ((pushRx_pushes hostPort guestPort op [] flags r h).and
      (pushRx_ready hready hostPort guestPort op flags r)).mono (fun ok h' hsent => ?_)
      fun _ _ hfalse => hfalse.2.elim
    obtain ⟨hpushes, rfl⟩ := hsent
    exact ⟨_, hpushes.adds, fun _ => rfl⟩
  · have hblocked : ∀ rest, ¬ Unhindered (.blocked (hostPort, guestPort) r op :: rest) :=
      fun rest hfree => hfree _ List.mem_cons_self trivial
    have hnote := adds_note h (m := .blocked (hostPort, guestPort) r op) rfl
    simp only [noteBlocked, wp_bind, wp_get, if_neg hready, note, modifyOwn, wp_modify]
    refine (pushRx_pushes hostPort guestPort op [] flags r _).mono (fun ok h' hpushes => ?_)
      fun _ h' hunlogged => ?_
    · exact ⟨_, hnote.trans hpushes.adds, fun hfree => absurd hfree (hblocked _)⟩
    · exact ⟨_, hnote.trans (adds_unlogged hunlogged), hblocked _⟩

end Ready

section Blocks

/-- The log grew, and unless something hinders what fell due was answered. -/
def Grew (h h' : Host Vsock) : Prop :=
  ∃ block, Adds h h' block ∧ (Unhindered block → Answered block)

theorem Grew.trans {h h₁ h₂ : Host Vsock} (hfirst : Grew h h₁) (hsecond : Grew h₁ h₂) :
    Grew h h₂ := by
  obtain ⟨block, hadds, hanswered⟩ := hfirst
  obtain ⟨more, hmore, hanswered'⟩ := hsecond
  exact ⟨block ++ more, hadds.trans hmore,
    fun hfree => (hanswered hfree.left).append (hanswered' hfree.right)⟩

theorem grew_of_nothing {h h' : Host Vsock} (hadds : Adds h h' []) : Grew h h' :=
  ⟨[], hadds, fun _ => .nil⟩

theorem grew_refl (h : Host Vsock) : Grew h h := grew_of_nothing (adds_nothing rfl rfl rfl)

/-- A program that answers what falls due in it, whether it returns or throws. -/
def Answers {α : Type} (x : Js (Host Vsock) α) : Prop :=
  ∀ h, Wp x (fun _ h' => Grew h h') (fun _ h' => Grew h h') h

variable {α β : Type}

/-- The rest of a program. -/
theorem Answers.after {x : Js (Host Vsock) α} (hx : Answers x) {h h' : Host Vsock}
    (hgrew : Grew h h') : Wp x (fun _ h₁ => Grew h h₁) (fun _ h₁ => Grew h h₁) h' :=
  (hx h').mono (fun _ _ hmore => hgrew.trans hmore) fun _ _ hmore => hgrew.trans hmore

theorem answers_bind {x : Js (Host Vsock) α} {f : α → Js (Host Vsock) β} (hx : Answers x)
    (hf : ∀ a, Answers (f a)) : Answers (x >>= f) := by
  intro h
  rw [wp_bind]
  exact (hx h).mono (fun a h' hgrew => (hf a).after hgrew) fun _ _ hgrew => hgrew

theorem answers_pure (a : α) : Answers (pure a) := fun h => grew_refl h

theorem answers_throw (e : Thrown) : Answers (throw e : Js (Host Vsock) α) := fun h => grew_refl h

theorem answers_get : Answers (get : Js (Host Vsock) _) := fun h => grew_refl h

theorem answers_conn (r : Ref) : Answers (conn r) :=
  answers_bind answers_get fun _ => answers_pure _

theorem answers_modifyOwn {f : Vsock → Vsock}
    (hf : ∀ v, (f v).log = v.log ∧ (f v).deliveries = v.deliveries) : Answers (modifyOwn f) :=
  fun h => grew_of_nothing (adds_nothing (hf h.own).1 (hf h.own).2 rfl)

theorem answers_modifyConn (r : Ref) (f : VsockConnection → VsockConnection) :
    Answers (modifyConn r f) := answers_modifyOwn fun _ => ⟨rfl, rfl⟩

theorem answers_ite {p : Prop} [Decidable p] {x y : Js (Host Vsock) α} (hx : Answers x)
    (hy : Answers y) : Answers (if p then x else y) := by
  by_cases hp : p
  · rwa [if_pos hp]
  · rwa [if_neg hp]

theorem answers_tryCatch {x : Js (Host Vsock) α} {f : Thrown → Js (Host Vsock) α} (hx : Answers x)
    (hf : ∀ e, Answers (f e)) : Answers (tryCatch x f) := by
  intro h
  rw [wp_tryCatch]
  exact (hx h).mono (fun _ _ hgrew => hgrew) fun e h' hgrew => (hf e).after hgrew

theorem answered_singleton {m : Mark} (hm : ∀ pair r op, m ≠ .due pair r op) : Answered [m] :=
  .other hm .nil

theorem answers_note {m : Mark} (hdue : ∀ pair r op, m ≠ .due pair r op)
    (hheader : m.header = none) : Answers (note m) :=
  fun h => ⟨[m], adds_note h hheader, fun _ => answered_singleton hdue⟩

theorem answers_pushRx (srcPort dstPort op : ℕ) (payload : List UInt8) (flags : ℕ)
    (r : Option Ref) : Answers (pushRx srcPort dstPort op payload flags r) := by
  intro h
  refine (pushRx_pushes srcPort dstPort op payload flags r h).mono (fun ok h' hpushes => ?_)
    fun _ h' hunlogged => grew_of_nothing (adds_unlogged hunlogged)
  refine ⟨_, hpushes.adds, fun _ => ?_⟩
  cases ok with
  | false => exact .nil
  | true => exact answered_singleton fun _ _ _ heq => by cases heq

theorem answers_noteBlocked (pair : ℕ × ℕ) (r : Option Ref) (op : ℕ) :
    Answers (noteBlocked pair r op) :=
  answers_bind answers_get fun _ => answers_ite (answers_pure _)
    (answers_note (fun _ _ _ heq => by cases heq) rfl)

theorem answers_sendCtl (r : Ref) (op flags : ℕ) : Answers (sendCtl r op flags) :=
  answers_bind (answers_conn r) fun _ => answers_bind (answers_noteBlocked _ _ _) fun _ =>
    answers_pushRx _ _ _ _ _ _

/-- A packet that falls due and is tried at once. -/
theorem answers_pushDue (hostPort guestPort op flags : ℕ) (r : Option Ref) :
    Answers (do
      note (.due (hostPort, guestPort) r op)
      noteBlocked (hostPort, guestPort) r op
      pushRx hostPort guestPort op [] flags r) := by
  intro h
  have hdue := adds_note h (m := .due (hostPort, guestPort) r op) rfl
  change Wp (do
    noteBlocked (hostPort, guestPort) r op
    pushRx hostPort guestPort op [] flags r) _ _
    { h with own := h.own.note (.due (hostPort, guestPort) r op) }
  refine (pushControl_adds hostPort guestPort op flags r).mono (fun _ h' hblock => ?_)
    fun _ h' hblock => ?_
  · obtain ⟨block, hadds, hsent⟩ := hblock
    refine ⟨_, hdue.trans hadds, fun hfree => ?_⟩
    rw [hsent hfree.right]
    exact .now .nil
  · obtain ⟨block, hadds, hhindered⟩ := hblock
    exact ⟨_, hdue.trans hadds, fun hfree => absurd hfree.right hhindered⟩

/-- The due packet of a connection. -/
theorem answers_dueCtl (r : Ref) (op flags : ℕ) :
    Answers (do
      noteDue r op
      sendCtl r op flags) := by
  intro h
  have hpush := answers_pushDue (h.own.heap r).hostPort (h.own.heap r).guestPort op flags (some r)
    h
  simp only [note, modifyOwn, wp_bind, wp_modify] at hpush
  simp only [noteDue, sendCtl, conn, note, modifyOwn, wp_bind, wp_get, wp_pure, wp_modify]
  exact hpush

theorem answers_dueRst (hostPort guestPort : ℕ) :
    Answers (do
      note (.due (hostPort, guestPort) none opRst)
      sendRst hostPort guestPort) :=
  answers_pushDue hostPort guestPort opRst 0 none

theorem answers_dueCtl_bind (r : Ref) (op flags : ℕ) {f : Bool → Js (Host Vsock) β}
    (hf : ∀ ok, Answers (f ok)) : Answers (do
      noteDue r op
      let ok ← sendCtl r op flags
      f ok) := by
  have hboth := answers_bind (answers_dueCtl r op flags) hf
  rwa [bind_assoc] at hboth

theorem answers_flushLoop (fuel : ℕ) (r : Ref) : Answers (flushLoop fuel r) := by
  induction fuel with
  | zero => exact answers_pure _
  | succ fuel ih =>
    refine answers_bind (answers_conn r) fun c => ?_
    split
    · exact answers_pure _
    · refine answers_ite (answers_pure _) (answers_bind (answers_pushRx _ _ _ _ _ _) fun ok => ?_)
      exact answers_ite (answers_bind (answers_modifyConn _ _) fun _ => ih) (answers_pure _)

theorem answers_flushConnection (r : Ref) : Answers (flushConnection r) :=
  answers_bind (answers_conn r) fun _ => answers_ite (answers_flushLoop _ _) (answers_pure _)

theorem answers_flushEach (rs : List Ref) : Answers (flushEach rs) := by
  induction rs with
  | nil => exact answers_pure _
  | cons r rest ih => exact answers_bind (answers_flushConnection r) fun _ => ih

theorem answers_flushAll : Answers flushAll := answers_bind answers_get fun _ => answers_flushEach _

theorem answers_write (r : Ref) (bytes : List UInt8) : Answers (write r bytes) :=
  answers_bind (answers_conn r) fun _ => answers_ite
    (answers_bind (answers_modifyConn _ _) fun _ =>
      answers_bind (answers_flushConnection r) fun _ =>
      answers_pure _) (answers_pure _)

theorem answers_closeConnection (r : Ref) (sendShutdown : Bool) {onClose : Js (Host Vsock) Unit}
    (honClose : Answers onClose) : Answers (closeConnection r sendShutdown onClose) := by
  have hrest : ∀ c : VsockConnection, Answers (do
      modifyConn r fun c => { c with isOpen := false, pendingTx := [] }
      modifyOwn fun v => { v with conns := v.conns.delete c.key }
      tryCatch onClose fun _ => pure ()) := fun c =>
    answers_bind (answers_modifyConn _ _) fun _ =>
      answers_bind (answers_modifyOwn fun _ => ⟨rfl, rfl⟩)
      fun _ => answers_tryCatch honClose fun _ => answers_pure _
  refine answers_bind (answers_conn r) fun c => answers_bind answers_get fun _ =>
    answers_ite (answers_pure _) ?_
  cases sendShutdown with
  | true =>
    exact answers_bind (answers_sendCtl _ _ _) fun _ =>
      answers_dueCtl_bind r opRst 0 fun _ => hrest c
  | false => exact hrest c

theorem answers_newConn (hostPort guestPort : ℕ) : Answers (newConn hostPort guestPort) :=
  answers_bind answers_get fun _ => answers_bind (answers_modifyOwn fun _ => ⟨rfl, rfl⟩) fun _ =>
    answers_pure _

theorem answers_connect (guestPort : ℕ) : Answers (connect guestPort) := by
  refine answers_bind answers_get fun _ => answers_bind (answers_modifyOwn fun _ => ⟨rfl, rfl⟩)
    fun _ => ?_
  refine answers_bind (answers_newConn _ _) fun r => answers_bind (answers_conn r) fun c => ?_
  refine answers_bind answers_get fun _ => answers_bind
    (answers_note (fun _ _ _ heq => by cases heq) rfl) fun _ => ?_
  refine answers_bind (answers_modifyOwn fun _ => ⟨rfl, rfl⟩) fun _ => ?_
  refine answers_bind (answers_modifyConn _ _) fun _ => ?_
  exact answers_dueCtl_bind r opRequest 0 fun _ => answers_pure _

mutual

theorem answers_perform : ∀ act : Act, Answers (perform act)
  | .write r bytes => answers_bind (answers_write r bytes) fun _ => answers_pure _
  | .close r onClose => answers_bind (answers_conn r) fun _ =>
      answers_ite (answers_closeConnection r true (answers_performAll onClose)) (answers_pure _)
  | .connect guestPort => answers_bind (answers_connect guestPort) fun _ => answers_pure _
  | .listen _ => answers_modifyOwn fun _ => ⟨rfl, rfl⟩
  | .unlisten _ => answers_modifyOwn fun _ => ⟨rfl, rfl⟩

theorem answers_performAll : ∀ acts : List Act, Answers (performAll acts)
  | [] => answers_pure _
  | act :: rest => answers_bind (answers_perform act) fun _ => answers_performAll rest

end

theorem answers_reaction (reaction : Reaction) : Answers reaction.run :=
  answers_bind (answers_performAll _) fun _ => answers_ite (answers_throw _) (answers_pure _)

theorem answers_setCredit (r : Ref) (hdr : Hdr) : Answers (setCredit r hdr) :=
  answers_modifyConn _ _

theorem answers_dueRst_bind (hostPort guestPort : ℕ) {f : Bool → Js (Host Vsock) β}
    (hf : ∀ ok, Answers (f ok)) :
    Answers (do
      note (.due (hostPort, guestPort) none opRst)
      let ok ← sendRst hostPort guestPort
      f ok) := by
  have hboth := answers_bind (answers_dueRst hostPort guestPort) hf
  rwa [bind_assoc] at hboth

theorem answers_handleRequest (hdr : Hdr) (reaction : Reaction) :
    Answers (handleRequest hdr reaction) := by
  refine answers_bind answers_get fun _ => answers_bind
    (answers_note (fun _ _ _ heq => by cases heq) rfl) fun _ => answers_bind answers_get fun _ => ?_
  refine answers_ite ?_ (answers_dueRst_bind _ _ fun _ => answers_pure _)
  refine answers_bind (answers_newConn _ _) fun r => answers_bind (answers_setCredit r hdr)
    fun _ => ?_
  refine answers_bind (answers_modifyOwn fun _ => ⟨rfl, rfl⟩) fun _ => ?_
  refine answers_dueCtl_bind r opResponse 0 fun _ => ?_
  exact answers_tryCatch (answers_reaction reaction) fun _ => answers_pure _

end Blocks

section Keys

/-- The object has been made, with this pair. -/
structure Keyed (r : Ref) (pair : ℕ × ℕ) (v : Vsock) : Prop where
  table : TableOpen v
  made : r < v.fresh
  key : (v.heap r).key = pair

variable {r : Ref} {pair : ℕ × ℕ} {v : Vsock}

theorem Keyed.note (h : Keyed r pair v) (m : Mark) : Keyed r pair (v.note m) :=
  ⟨h.table, h.made, h.key⟩

theorem Keyed.setConn (h : Keyed r pair v) (s : Ref) {c : VsockConnection}
    (hkey : c.key = (v.heap s).key) (hopen : (v.heap s).isOpen = true → c.isOpen = true) :
    Keyed r pair (v.setConn s c) := by
  refine ⟨h.table.setConn hkey hopen, h.made, ?_⟩
  by_cases hs : r = s
  · subst hs
    simpa [Vsock.setConn] using hkey.trans h.key
  · simpa [Vsock.setConn, hs] using h.key

theorem Keyed.shut (h : Keyed r pair v) (s : Ref) : Keyed r pair (v.shut s) := by
  refine ⟨h.table.shut s, h.made, ?_⟩
  by_cases hs : r = s
  · subst hs
    simpa [Vsock.shut, Vsock.setConn, VsockConnection.key] using h.key
  · simpa [Vsock.shut, Vsock.setConn, hs] using h.key

/-- An object keeps its pair. -/
theorem admits_keyed (r : Ref) (pair : ℕ × ℕ) : Admits (Keyed r pair) where
  table _ h := h.table
  listeners _ h _ := ⟨h.table, h.made, h.key⟩
  hostPort _ h _ := ⟨h.table, h.made, h.key⟩
  silent _ h m _ := h.note m
  delivery _ h _ _ := ⟨h.table, h.made, h.key⟩
  opening _ h _ := h.note _
  refused _ h _ _ := h.note _
  opened v h p c op hkey hidle _ := by
    have hne : r ≠ v.fresh := Nat.ne_of_lt h.made
    have hentered : Keyed r pair ((v.note (.opening p (v.conns.get p).isSome)).enter p c) := by
      refine ⟨(h.note _).table.enter hkey hidle.isOpen, Nat.lt_succ_of_lt h.made, ?_⟩
      simpa [Vsock.enter, Vsock.note, Vsock.setConn, hne] using h.key
    exact hentered.note _
  credit _ h s _ hsame := h.setConn s hsame.key hsame.isOpen.trans
  write _ h s _ _ := h.setConn s rfl id
  flush v h s _ _ d _ _ _ _ := by
    have hdelivered : Keyed r pair (v.deliver d) := ⟨h.table, h.made, h.key⟩
    refine (hdelivered.setConn s ?_ ?_).note _
    · rfl
    · exact id
  control _ h _ _ _ _ _ := h.note _
  shut _ h s _ := h.shut s
  reset _ h s _ := (h.note _).shut s
  shutReset _ h s _ := (h.note _).shut s

end Keys

section Packets
variable {h : Host Vsock}

/-- A callback that throws is on record. -/
theorem deliver_adds (r : Ref) (reaction : Reaction) :
    Wp (deliver r reaction) (fun _ h' => Grew h h')
      (fun _ h' => ∃ block, Adds h h' block ∧ ¬ Unhindered block) h := by
  simp only [deliver, note, conn, modifyOwn, wp_bind, wp_tryCatch]
  refine (answers_reaction reaction h).mono (fun _ h' hgrew => ?_) fun _ h' hgrew => ?_
  · exact hgrew.trans ⟨_, adds_note h' (m := .consumed r !(h'.own.heap r).isOpen) rfl,
      fun _ => answered_singleton fun _ _ _ heq => by cases heq⟩
  · obtain ⟨block, hadds, -⟩ := hgrew
    refine ⟨_, hadds.trans (adds_note h' (m := .threw r) rfl), fun hfree => ?_⟩
    exact hfree.right _ (List.mem_singleton_self _) trivial

/-- Data is acknowledged after the callback that got it, under the same pair. -/
theorem acknowledged {r : Ref} {pair : ℕ × ℕ} (hkeyed : Keyed r pair h.own) (reaction : Reaction) :
    Wp (do
      noteDue r opCreditUpdate
      deliver r reaction
      let _ ← sendCtl r opCreditUpdate 0
      flushConnection r) (fun _ h' => Grew h h') (fun _ h' => Grew h h') h := by
  set h₀ : Host Vsock := { h with own := h.own.note (.due pair (some r) opCreditUpdate) } with hh₀
  have hkeyed₀ : Keyed r pair h₀.own := hkeyed.note _
  have hdue : Adds h h₀ [.due pair (some r) opCreditUpdate] := adds_note h rfl
  change Wp (noteDue r opCreditUpdate >>= _) _ _ h
  rw [wp_bind]
  simp only [noteDue, conn, note, modifyOwn, wp_bind, wp_get, wp_pure, wp_modify, hkeyed.key]
  change Wp (deliver r reaction) _ _ h₀
  refine (((admits_keyed r pair).deliver hkeyed₀ r reaction).and (deliver_adds r reaction)).mono
    (fun _ h₁ hdelivered => ?_) fun _ h₁ hthrew => ?_
  · obtain ⟨⟨hkeyed₁, -⟩, during, hadds₁, hduring⟩ := hdelivered
    have hkey : ((h₁.own.heap r).hostPort, (h₁.own.heap r).guestPort) = pair := hkeyed₁.key
    rw [wp_bind]
    change Wp (do
      noteBlocked ((h₁.own.heap r).hostPort, (h₁.own.heap r).guestPort) (some r) opCreditUpdate
      pushRx (h₁.own.heap r).hostPort (h₁.own.heap r).guestPort opCreditUpdate [] 0 (some r)) _ _ h₁
    refine (pushControl_adds _ _ opCreditUpdate 0 (some r)).mono
      (fun _ h₂ hsent => ?_) fun _ h₂ hfailed => ?_
    · obtain ⟨block, hadds₂, hsent⟩ := hsent
      rw [hkey] at hsent
      have hgrew : Grew h h₂ := by
        refine ⟨_, hdue.trans (hadds₁.trans hadds₂), fun hfree => ?_⟩
        rw [hsent hfree.right.right]
        exact .later (hduring hfree.right.left) .nil
      exact (answers_flushConnection r).after hgrew
    · obtain ⟨block, hadds₂, hblock⟩ := hfailed
      exact ⟨_, hdue.trans (hadds₁.trans hadds₂),
        fun hfree => absurd hfree.right.right hblock⟩
  · obtain ⟨-, block, hadds₁, hblock⟩ := hthrew
    exact ⟨_, hdue.trans hadds₁, fun hfree => absurd hfree.right hblock⟩

theorem handleRw_grew {r : Ref} (htable : TableOpen h.own) (hmade : r < h.own.fresh) (hdr : Hdr)
    (payload : List UInt8) (reaction : Reaction) :
    Wp (handleRw hdr payload reaction r) (fun _ h' => Grew h h') (fun _ h' => Grew h h') h := by
  have A := admits_keyed r (h.own.heap r).key
  unfold handleRw
  rw [wp_bind]
  refine ((A.setCredit r hdr h ⟨htable, hmade, rfl⟩).and (answers_setCredit r hdr h)).mono
    (fun _ h₁ hcredit => ?_) fun _ _ hcredit => hcredit.2
  obtain ⟨hkeyed₁, hgrew₁⟩ := hcredit
  rw [wp_bind]
  have hcount : Stays (Keyed r (h.own.heap r).key) (modifyConn r fun c =>
      { c with rxFwdCnt := (c.rxFwdCnt + payload.length) % 2 ^ 32 }) :=
    keeps_modify fun _ hv => A.credit _ hv r _ ⟨rfl, rfl, rfl, rfl⟩
  refine ((hcount h₁ hkeyed₁).and (answers_modifyConn r _ h₁)).mono (fun _ h₂ hcounted => ?_)
    fun _ _ hcounted => hgrew₁.trans hcounted.2
  obtain ⟨hkeyed₂, hgrew₂⟩ := hcounted
  have hgrew := hgrew₁.trans hgrew₂
  exact (acknowledged hkeyed₂ reaction).mono (fun _ _ hmore => hgrew.trans hmore)
    fun _ _ hmore => hgrew.trans hmore

theorem handleTxPacket_grew (htable : TableOpen h.own) (pkt : List UInt8) (reaction : Reaction) :
    Wp (handleTxPacket pkt reaction) (fun _ h' => Grew h h') (fun _ h' => Grew h h') h := by
  simp only [handleTxPacket, wp_ite, wp_bind, wp_get]
  refine ⟨fun _ => answers_pure () h, fun _ => ⟨fun _ => answers_handleRequest _ reaction h,
    fun _ => ?_⟩⟩
  cases hfound : h.own.conns.get ((decodeHdr pkt).dstPort, (decodeHdr pkt).srcPort) with
  | none =>
    exact answers_ite (answers_dueRst_bind _ _ fun _ => answers_pure _) (answers_pure ()) h
  | some r =>
    obtain ⟨-, -, hmade⟩ := htable _ r hfound
    simp only [wp_ite]
    refine ⟨fun _ => ?_, fun _ => ⟨fun _ => handleRw_grew htable hmade _ _ reaction, fun _ =>
      ⟨fun _ => ?_, fun _ => ⟨fun _ => ?_, fun _ => ⟨fun _ => ⟨fun _ => ?_, fun _ => ?_⟩,
      fun _ => ⟨fun _ => ?_, fun _ => ?_⟩⟩⟩⟩⟩⟩
    · exact answers_bind (answers_setCredit r _) (fun _ => answers_bind (answers_modifyConn r _)
        fun _ => answers_flushConnection r) h
    · exact answers_bind (answers_setCredit r _) (fun _ => answers_flushConnection r) h
    · exact answers_dueCtl_bind r opCreditUpdate 0 (fun _ => answers_pure _) h
    · exact answers_closeConnection r true (answers_reaction reaction) h
    · exact answers_pure () h
    · exact answers_bind (answers_note (fun _ _ _ heq => by cases heq) rfl)
        (fun _ => answers_closeConnection r false (answers_reaction reaction)) h
    · exact answers_pure () h

theorem serviceTx_grew (htable : TableOpen h.own) (reaction : Reaction) :
    Wp (serviceTx reaction) (fun _ h' => Grew h h') (fun _ h' => Grew h h') h := by
  have hsame : ∀ h₀ h' : Host Vsock, Unlogged h₀ h' → Grew h₀ h' := fun h₀ h' hunlogged =>
    grew_of_nothing (adds_unlogged hunlogged)
  simp only [serviceTx, vring, wp_bind, wp_get, wp_pure]
  cases h.queues vqTx with
  | none => exact grew_refl h
  | some ring =>
    simp only [wp_bind]
    refine Wp.mono (keepsBooks_next (P := fun own pushed => own = h.own ∧ pushed = h.pushed) vqTx
      ring h ⟨rfl, rfl⟩) (fun taken h₁ hbooks₁ => ?_)
      fun _ h₁ hbooks₁ => hsame h h₁ (unlogged_of_books hbooks₁)
    have hgrew₁ := hsame h h₁ (unlogged_of_books hbooks₁)
    cases taken with
    | none => exact hgrew₁
    | some chain =>
      simp only [wp_bind]
      refine Wp.mono (readOut_same chain h₁) (fun pkt h₂ hh₂ => ?_) fun _ h₂ hh₂ => ?_
      · subst h₂
        have hpush : ∀ h₃ : Host Vsock, Grew h₁ h₃ → Wp (do
            pushUsed vqTx ring chain.head 0
            return true) (fun _ h' => Grew h h') (fun _ h' => Grew h h') h₃ := by
          intro h₃ hgrew
          rw [wp_bind]
          refine (pushUsed_books vqTx ring chain.head 0 h₃).mono (fun _ h' hbooks => ?_)
            fun _ h' hbooks => (hgrew₁.trans hgrew).trans (hsame h₃ h' (unlogged_of_books hbooks))
          refine (hgrew₁.trans hgrew).trans (hsame h₃ h' ⟨hbooks.1, ?_⟩)
          rw [usedOnRx, hbooks.2, List.filter_append, List.map_append]
          simp [usedOnRx, vqTx, vqRx]
        have htable₁ : TableOpen h₁.own := hbooks₁.1 ▸ htable
        rw [wp_bind, wp_tryCatch]
        exact (handleTxPacket_grew htable₁ pkt reaction).mono (fun _ h₃ hgrew => hpush h₃ hgrew)
          fun _ h₃ hgrew => hpush h₃ hgrew
      · subst h₂
        exact hgrew₁

theorem step_grew (h : Host Vsock) (e : Event) (htable : TableOpen h.own) : Grew h (step h e) := by
  cases e with
  | guest memory => exact grew_refl h
  | setupQueue q layout => exact grew_refl h
  | tx reaction => exact Wp.final (P := Grew h) (serviceTx_grew htable reaction)
  | rx => exact Wp.final (P := Grew h) (answers_flushAll h)
  | host act => exact Wp.final (P := Grew h) (answers_perform act h)

/-- Over a run the books are kept, and where nothing hinders every control packet that fell due
went out. -/
theorem grew_run (h : Host Vsock) (events : List Event) (htabled : Tabled h.own) :
    Grew h (run step h events) := by
  refine (run_invariant (fun h' : Host Vsock => Tabled h'.own ∧ Grew h h') (fun h' e hv => ?_)
    events ⟨htabled, grew_refl h⟩).2
  exact ⟨admits_tabled.step h' e hv.1, hv.2.trans (step_grew h' e hv.1.table)⟩

/-- From the start of a device on, the whole log is booked. -/
theorem booked_run (h : Host Vsock) (guestCid : ℕ) (hinitial : h.own = Vsock.initial guestCid)
    (events : List Event) :
    let h' := run step h events
    (∃ used, usedOnRx h' = usedOnRx h ++ used ∧ Booked used h'.own.log h'.own.deliveries) ∧
      (Unhindered h'.own.log → Answered h'.own.log) := by
  intro h'
  obtain ⟨block, ⟨hlog, used, deliveries, hused, hdeliveries, hbooked⟩, hanswered⟩ :=
    grew_run h events (hinitial ▸ tabled_initial guestCid)
  rw [hinitial] at hlog hdeliveries
  have hlog' : h'.own.log = block := hlog
  have hdeliveries' : h'.own.deliveries = deliveries := hdeliveries
  rw [hlog', hdeliveries']
  exact ⟨⟨used, hused, hbooked⟩, hanswered⟩

end Packets

section Order

/-- The first packet of the connection fell due. -/
def Asked (r : Ref) (log : List Mark) : Prop :=
  ∃ pair op, (op = opRequest ∨ op = opResponse) ∧ .due pair (some r) op ∈ log

/-- Data only goes out on a connection whose first packet fell due before. -/
def Introduced (log : List Mark) : Prop :=
  ∀ before pair r after, log = before ++ .sent pair (some r) opRw :: after → Asked r before

/-- No data goes out on a connection after its RST. -/
def Ended (log : List Mark) : Prop :=
  ∀ before pair r after, log = before ++ .sent pair (some r) opRst :: after →
    ∀ p, .sent p (some r) opRw ∉ after

/-- The open connections were asked for, and those with a RST are closed. -/
structure InOrder (v : Vsock) : Prop where
  table : TableOpen v
  made : ∀ r, (v.heap r).isOpen = true → r < v.fresh
  asked : ∀ r, (v.heap r).isOpen = true → Asked r v.log
  closed : ∀ pair r, .sent pair (some r) opRst ∈ v.log → (v.heap r).isOpen = false ∧ r < v.fresh
  introduced : Introduced v.log
  ended : Ended v.log

variable {v : Vsock} {r : Ref}

theorem Asked.append {log : List Mark} (h : Asked r log) (more : List Mark) :
    Asked r (log ++ more) := by
  obtain ⟨pair, op, hop, hmem⟩ := h
  exact ⟨pair, op, hop, List.mem_append_left _ hmem⟩

theorem Introduced.note {log : List Mark} (h : Introduced log) {m : Mark}
    (hm : ∀ pair r, m = .sent pair (some r) opRw → Asked r log) : Introduced (log ++ [m]) := by
  intro before pair r after heq
  rcases split_concat heq with ⟨rfl, rfl, -⟩ | ⟨after', -, hlog⟩
  · exact hm pair r rfl
  · exact h before pair r after' hlog

theorem Ended.note {log : List Mark} (h : Ended log) {m : Mark}
    (hm : ∀ pair r, m = .sent pair (some r) opRw → ∀ p, .sent p (some r) opRst ∉ log) :
    Ended (log ++ [m]) := by
  intro before pair r after heq p hmem
  rcases split_concat heq with ⟨-, -, rfl⟩ | ⟨after', rfl, hlog⟩
  · cases hmem
  · rcases List.mem_append.mp hmem with hold | hnew
    · exact h before pair r after' hlog p hold
    · refine hm p r (List.mem_singleton.mp hnew).symm pair ?_
      rw [hlog]
      exact List.mem_append_right _ List.mem_cons_self

/-- A mark that is no RST of a connection, and no data of a closed one. -/
theorem InOrder.note (h : InOrder v) {m : Mark}
    (hrw : ∀ pair s, m = .sent pair (some s) opRw → (v.heap s).isOpen = true)
    (hrst : ∀ pair s, m ≠ .sent pair (some s) opRst) : InOrder (v.note m) where
  table := h.table
  made := h.made
  asked s hopen := (h.asked s hopen).append _
  closed pair s hmem := by
    rcases List.mem_append.mp hmem with hold | hnew
    · exact h.closed pair s hold
    · exact absurd (List.mem_singleton.mp hnew).symm (hrst pair s)
  introduced := h.introduced.note fun pair s heq => h.asked s (hrw pair s heq)
  ended := h.ended.note fun pair s heq p hmem => by
    have hopen := hrw pair s heq
    rw [(h.closed p s hmem).1] at hopen
    cases hopen

theorem InOrder.plain (h : InOrder v) {m : Mark} (hm : ∀ pair s op, m ≠ .sent pair (some s) op) :
    InOrder (v.note m) :=
  h.note (fun pair s heq => absurd heq (hm pair s opRw)) fun pair s => hm pair s opRst

theorem InOrder.setConn (h : InOrder v) (r : Ref) {c : VsockConnection}
    (hkey : c.key = (v.heap r).key) (hopen : c.isOpen = (v.heap r).isOpen) :
    InOrder (v.setConn r c) := by
  have hheap : ∀ s, ((v.setConn r c).heap s).isOpen = (v.heap s).isOpen := by
    intro s
    by_cases hs : s = r
    · subst hs
      simpa [Vsock.setConn] using hopen
    · simp [Vsock.setConn, hs]
  refine ⟨h.table.setConn hkey hopen.trans, fun s ho => ?_, fun s ho => ?_, fun pair s hmem => ?_,
    h.introduced, h.ended⟩
  · exact h.made s ((hheap s).symm.trans ho)
  · exact h.asked s ((hheap s).symm.trans ho)
  · exact ⟨(hheap s).trans (h.closed pair s hmem).1, (h.closed pair s hmem).2⟩

/-- The rest of the device is not part of the order. -/
theorem InOrder.congr {v' : Vsock} (h : InOrder v) (hheap : v'.heap = v.heap)
    (hconns : v'.conns = v.conns) (hfresh : v'.fresh = v.fresh) (hlog : v'.log = v.log) :
    InOrder v' := by
  obtain ⟨cid, listeners, heap, fresh, conns, port, log, deliveries⟩ := v'
  cases hheap
  cases hconns
  cases hfresh
  cases hlog
  exact ⟨h.table, h.made, h.asked, h.closed, h.introduced, h.ended⟩

theorem InOrder.deliver (h : InOrder v) (d : RxDelivery) : InOrder (v.deliver d) :=
  h.congr rfl rfl rfl rfl

theorem InOrder.shut (h : InOrder v) (r : Ref) : InOrder (v.shut r) := by
  have hheap : ∀ s, ((v.shut r).heap s).isOpen = true → (v.heap s).isOpen = true := by
    intro s ho
    by_cases hs : s = r
    · subst hs
      simp [Vsock.shut, Vsock.setConn] at ho
    · simpa [Vsock.shut, Vsock.setConn, hs] using ho
  refine ⟨h.table.shut r, fun s ho => h.made s (hheap s ho), fun s ho => h.asked s (hheap s ho),
    fun pair s hmem => ?_, h.introduced, h.ended⟩
  obtain ⟨hclosed, hmade⟩ := h.closed pair s hmem
  refine ⟨?_, hmade⟩
  by_contra hopen
  rw [hheap s (Bool.eq_true_of_not_eq_false hopen)] at hclosed
  cases hclosed

theorem InOrder.opened (h : InOrder v) {pair : ℕ × ℕ} {c : VsockConnection} {op : ℕ}
    (hkey : c.key = pair) (hidle : c.Idle) (hop : op = opRequest ∨ op = opResponse) :
    InOrder (v.opened pair c op) := by
  have hopening : InOrder (v.note (.opening pair (v.conns.get pair).isSome)) :=
    h.plain fun _ _ _ heq => by cases heq
  have hheap : ∀ s, s ≠ v.fresh → (v.opened pair c op).heap s = v.heap s := by
    intro s hs
    simp [Vsock.opened, Vsock.enter, Vsock.note, Vsock.setConn, hs]
  refine ⟨TableOpen.enter hopening.table hkey hidle.isOpen, fun s ho => ?_, fun s ho => ?_,
    fun p s hmem => ?_, hopening.introduced.note fun _ _ heq => (by cases heq),
    hopening.ended.note fun _ _ heq => (by cases heq)⟩
  · by_cases hs : s = v.fresh
    · subst hs
      exact Nat.lt_succ_self _
    · rw [hheap s hs] at ho
      exact Nat.lt_succ_of_lt (h.made s ho)
  · by_cases hs : s = v.fresh
    · subst hs
      exact ⟨pair, op, hop, List.mem_append_right _ (List.mem_singleton_self _)⟩
    · rw [hheap s hs] at ho
      exact (hopening.asked s ho).append _
  · rcases List.mem_append.mp hmem with hold | hnew
    · obtain ⟨hclosed, hmade⟩ := hopening.closed p s hold
      have hmade' : s < v.fresh := hmade
      refine ⟨?_, Nat.lt_succ_of_lt hmade'⟩
      rw [hheap s (Nat.ne_of_lt hmade')]
      exact hclosed
    · cases List.mem_singleton.mp hnew

end Order

end NixWasm.VsockDevice
