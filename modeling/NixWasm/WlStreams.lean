import NixWasm.WlDevice

/-!
The byte streams of the virtio-wl device between the host and the guest. A transfer is
what a client's message, a file or a pipe write sends on one vfd, and what the guest
reads back from a VFD_RECV. The messages that wait for an in-buffer carry the transfers
that the host sends, in chunks where one page does not hold them.
-/
namespace NixWasm.WlDevice

open Bytes Bytes.Reader

/-- Bytes sent on a vfd, with the fds that go with them. -/
structure Transfer where
  vfd : ℕ
  fds : List ℕ
  bytes : List UInt8
deriving DecidableEq

/-- The bytes of a vfd in order, and its fd lists with the bytes each came with. -/
@[ext] structure Stream where
  bytes : List UInt8
  lists : List (List ℕ × List UInt8)
deriving DecidableEq

def Stream.empty : Stream := ⟨[], []⟩

def Stream.extend (s : Stream) (t : Transfer) : Stream :=
  ⟨s.bytes ++ t.bytes, if t.fds = [] then s.lists else s.lists ++ [(t.fds, t.bytes)]⟩

/-- One stream leads to another by more transfers. -/
def Stream.Before (s s' : Stream) : Prop := s.bytes <+: s'.bytes ∧ s.lists <+: s'.lists

def post (streams : ℕ → Stream) (t : Transfer) : ℕ → Stream :=
  Function.update streams t.vfd ((streams t.vfd).extend t)

/-- The header of a VFD_RECV and its vfd ids, as the driver reads them. -/
def recvHeader : Reader (ℕ × List ℕ) := do
  let type ← le 4
  require (type = cmdVfdRecv)
  let _ ← le 4
  let vfd ← le 4
  let count ← le 4
  let fds ← items (le 4) count
  return (vfd, fds)

/-- What the guest receives from the used part of an in-buffer. -/
def received (written : List UInt8) : Option Transfer :=
  (recvHeader written).map fun ((vfd, fds), bytes) => ⟨vfd, fds, bytes⟩

/-- What happens at the device: calls of the host, and buffers of the guest. -/
inductive Event where
  | injectIn (clientId : ℕ) (data : List UInt8) (fds : List WlFd)
  | pipeWrite (vfdId : ℕ) (data : List UInt8)
  | pipeClose (vfdId : ℕ)
  | guestPipe (vfdId : ℕ) (opened : Bool)
  | refill (n : ℕ)
  | flushIn
deriving DecidableEq

def Wl.react (w : Wl) : Event → Wl × List Delivery
  | .injectIn clientId data fds => w.injectIn clientId data fds
  | .pipeWrite vfdId data => w.pipeWrite vfdId data
  | .pipeClose vfdId => w.pipeClose vfdId
  | .guestPipe vfdId opened => (w.guestPipe vfdId opened, [])
  | .refill n => (w.refill n, [])
  | .flushIn => w.flushPendingIn

/-- The vfd ids of the fds of a message. -/
def fdIds : ℕ → List WlFd → List ℕ
  | _, [] => []
  | next, .pipe n :: rest => hostPipeId n :: fdIds next rest
  | next, .bytes _ :: rest => hostVfdId next :: fdIds (next + 1) rest

/-- The files among the fds, each sent on its own vfd. -/
def files : ℕ → List WlFd → List Transfer
  | _, [] => []
  | next, .pipe _ :: rest => files next rest
  | next, .bytes payload :: rest => ⟨hostVfdId next, [], payload⟩ :: files (next + 1) rest

/-- What the host sends with a call. -/
def sends (w : Wl) : Event → List Transfer
  | .injectIn clientId data fds =>
    files w.nextHostVfdId fds ++ [⟨clientId % 2 ^ 32, fdIds w.nextHostVfdId fds, data⟩]
  | .pipeWrite vfdId data =>
    if vfdId % 2 ^ 32 ∈ w.guestPipes then [⟨vfdId % 2 ^ 32, [], data⟩] else []
  | _ => []

/-- A message with fds leaves room in its page for the ids and the bytes. -/
def Event.Fits : Event → Prop
  | .injectIn _ data fds => fds = [] ∨ sendHdrSize + 4 * fds.length + data.length ≤ pageSize
  | _ => True

theorem chunksFrom_flatten (data : List UInt8) (fuel off : ℕ) (hfuel : data.length ≤ off + fuel) :
    (chunksFrom data fuel off).flatten = data.drop off := by
  induction fuel generalizing off with
  | zero => exact (List.drop_eq_nil_of_le (by omega)).symm
  | succ fuel ih =>
    rw [chunksFrom]
    split_ifs with hoff
    · have hchunk : 0 < maxFillChunk := by decide
      rw [List.flatten_cons, ih _ (by omega), ← List.drop_drop]
      exact List.take_append_drop _ _
    · exact (List.drop_eq_nil_of_le (by omega)).symm

theorem chunks_flatten (data : List UInt8) : (chunks data).flatten = data :=
  chunksFrom_flatten data data.length 0 (by omega)

theorem chunksFrom_length_le (data : List UInt8) (fuel off : ℕ) (chunk : List UInt8)
    (h : chunk ∈ chunksFrom data fuel off) : chunk.length ≤ maxFillChunk := by
  induction fuel generalizing off with
  | zero => cases h
  | succ fuel ih =>
    rw [chunksFrom] at h
    split_ifs at h
    · rcases List.mem_cons.mp h with rfl | h
      · exact List.length_take_le _ _
      · exact ih _ h
    · cases h

theorem chunks_length_le (data chunk : List UInt8) (h : chunk ∈ chunks data) :
    chunk.length ≤ maxFillChunk := chunksFrom_length_le data _ _ chunk h

theorem Stream.before_extend (s : Stream) (t : Transfer) : s.Before (s.extend t) := by
  refine ⟨List.prefix_append _ _, ?_⟩
  unfold extend
  split_ifs
  · exact List.prefix_rfl
  · exact List.prefix_append _ _

theorem Stream.Before.trans {a b c : Stream} (hab : a.Before b) (hbc : b.Before c) : a.Before c :=
  ⟨hab.1.trans hbc.1, hab.2.trans hbc.2⟩

theorem before_post (streams : ℕ → Stream) (t : Transfer) (v : ℕ) :
    (streams v).Before (post streams t v) := by
  by_cases hv : v = t.vfd
  · subst hv
    rw [post, Function.update_self]
    exact Stream.before_extend _ t
  · rw [post, Function.update_of_ne hv]
    exact ⟨List.prefix_rfl, List.prefix_rfl⟩

theorem before_foldl_post (streams : ℕ → Stream) (ts : List Transfer) (v : ℕ) :
    (streams v).Before (ts.foldl post streams v) := by
  induction ts generalizing streams with
  | nil => exact ⟨List.prefix_rfl, List.prefix_rfl⟩
  | cons t ts ih => exact (before_post streams t v).trans (ih _)

theorem post_nothing (streams : ℕ → Stream) (v : ℕ) : post streams ⟨v, [], []⟩ = streams := by
  simp [post, Stream.extend]

theorem post_post (streams : ℕ → Stream) (v : ℕ) (a b : List UInt8) :
    post (post streams ⟨v, [], a⟩) ⟨v, [], b⟩ = post streams ⟨v, [], a ++ b⟩ := by
  simp [post, Stream.extend]

/-- Pieces sent one after another are sent as one. -/
theorem foldl_post_pieces (streams : ℕ → Stream) (v : ℕ) (pieces : List (List UInt8)) :
    (pieces.map fun piece => Transfer.mk v [] piece).foldl post streams =
      post streams ⟨v, [], pieces.flatten⟩ := by
  induction pieces generalizing streams with
  | nil => exact (post_nothing streams v).symm
  | cons piece pieces ih =>
    rw [List.map_cons, List.foldl_cons, ih, post_post, List.flatten_cons]

theorem post_update_ne (streams : ℕ → Stream) (t : Transfer) (v : ℕ) (s : Stream)
    (h : t.vfd ≠ v) :
    post (Function.update streams v s) t = Function.update (post streams t) v s := by
  rw [post, post, Function.update_of_ne h, Function.update_comm h]

theorem update_post_self (streams : ℕ → Stream) (t : Transfer) (s : Stream) :
    Function.update (post streams t) t.vfd s = Function.update streams t.vfd s :=
  Function.update_idem _ _ _

/-- To forget a vfd leaves the transfers on the others. -/
theorem foldl_post_forget (streams : ℕ → Stream) (v : ℕ) (s : Stream) (ts : List Transfer) :
    (ts.filter (·.vfd ≠ v)).foldl post (Function.update streams v s) =
      Function.update (ts.foldl post streams) v s := by
  induction ts generalizing streams with
  | nil => rfl
  | cons t ts ih =>
    by_cases hv : t.vfd = v
    · subst hv
      rw [List.filter_cons_of_neg (by simp), List.foldl_cons, ← ih, update_post_self]
    · rw [List.filter_cons_of_pos (by simpa using hv), List.foldl_cons, List.foldl_cons,
        post_update_ne _ _ _ _ hv, ih]

theorem reads_recvHeader (v : ℕ) (ids : List ℕ) (hv : v < 2 ^ 32) (hids : ∀ id ∈ ids, id < 2 ^ 32)
    (hcount : ids.length < 2 ^ 32) :
    Reads recvHeader (leBytes 4 cmdVfdRecv ++ (leBytes 4 0 ++ (leBytes 4 v ++
      (leBytes 4 ids.length ++ ids.flatMap (leBytes 4))))) (v, ids) := by
  have hitems : Reads (items (le 4) ids.length) (ids.flatMap (leBytes 4)) ids := by
    have h := reads_items (le 4) (leBytes 4) id ids fun i hi => reads_le 4 i (hids i hi)
    rwa [List.map_id] at h
  refine reads_bind (reads_le 4 _ (by decide)) (reads_nil_bind (reads_require rfl) ?_)
  refine reads_bind (reads_le 4 _ (by decide)) (reads_bind (reads_le 4 v hv) ?_)
  exact reads_bind (reads_le 4 _ hcount) (reads_last hitems)

theorem received_vfdRecvWithFds (v : ℕ) (data : List UInt8) (ids : List ℕ) (hv : v < 2 ^ 32)
    (hids : ∀ id ∈ ids, id < 2 ^ 32) (hcount : ids.length < 2 ^ 32) :
    received (vfdRecvWithFds v data ids) = some ⟨v, ids, data⟩ := by
  have h := reads_recvHeader v ids hv hids hcount data
  simp only [List.append_assoc] at h
  simp [received, vfdRecvWithFds, h]

theorem received_vfdRecvMsg (v : ℕ) (data : List UInt8) (hv : v < 2 ^ 32) :
    received (vfdRecvMsg v data) = some ⟨v, [], data⟩ := by
  have h := received_vfdRecvWithFds v data [] hv (by simp) (by simp)
  simpa [vfdRecvMsg, vfdRecvWithFds] using h

/-- What a header that can be read says of the bytes before it. -/
theorem recvHeader_eq_some {msg rest : List UInt8} {v : ℕ} {ids : List ℕ}
    (h : recvHeader msg = some ((v, ids), rest)) :
    leValue (msg.take 4) = cmdVfdRecv ∧ leValue ((msg.drop 8).take 4) = v := by
  obtain ⟨type, r₁, htype, h⟩ := bind_eq_some h
  obtain ⟨_, r₂, hrecv, h⟩ := bind_eq_some h
  obtain ⟨flags, r₃, hflags, h⟩ := bind_eq_some h
  obtain ⟨vfd, r₄, hvfd, h⟩ := bind_eq_some h
  obtain ⟨count, r₅, hcount, h⟩ := bind_eq_some h
  obtain ⟨fds, r₆, hfds, h⟩ := bind_eq_some h
  have hv : vfd = v := congrArg (fun p => p.1.1) (Option.some.inj h)
  obtain ⟨hrecv, hr₂⟩ := require_eq_some hrecv
  obtain ⟨hvfd, -⟩ := le_eq_some hvfd
  obtain ⟨-, hr₃⟩ := le_eq_some hflags
  obtain ⟨htype, hr₁⟩ := le_eq_some htype
  refine ⟨htype.symm.trans hrecv, ?_⟩
  rw [← hv, hvfd, hr₃, hr₂, hr₁, List.drop_drop]

/-- Only a RECV brings bytes, and to the vfd that the host reads out of it. -/
theorem rawVfdId_of_received {msg : List UInt8} {t : Transfer} (h : received msg = some t) :
    rawVfdId msg = some t.vfd := by
  obtain ⟨⟨⟨v, ids⟩, data⟩, hheader, rfl⟩ := Option.map_eq_some_iff.mp h
  obtain ⟨htype, hv⟩ := recvHeader_eq_some hheader
  rw [rawVfdId, if_pos (Or.inl htype), hv]

theorem received_eq_none {type : ℕ} {rest : List UInt8} (htype : type < 2 ^ 32)
    (h : type ≠ cmdVfdRecv) : received (leBytes 4 type ++ rest) = none := by
  rw [received, Option.map_eq_none_iff, Option.eq_none_iff_forall_ne_some]
  rintro ⟨⟨v, ids⟩, data⟩ hheader
  obtain ⟨hrecv, -⟩ := recvHeader_eq_some hheader
  rw [List.take_left' (leBytes_length 4 type), leValue_leBytes, Nat.mod_eq_of_lt (by omega)]
    at hrecv
  exact h hrecv

theorem received_vfdNewHost (id size flags : ℕ) : received (vfdNewHost id size flags) = none := by
  simp only [vfdNewHost, List.append_assoc]
  exact received_eq_none (by decide) (by decide)

theorem received_vfdHup (id : ℕ) : received (vfdHup id) = none := by
  simp only [vfdHup, List.append_assoc]
  exact received_eq_none (by decide) (by decide)

/-- The transfers that entries carry. -/
def waiting (entries : List WlPendingIn) : List Transfer :=
  entries.filterMap fun entry => received entry.message

theorem waiting_cons (entry : WlPendingIn) (rest : List WlPendingIn) :
    waiting (entry :: rest) = (received entry.message).toList ++ waiting rest := by
  unfold waiting
  cases h : received entry.message <;> simp [h]

theorem waiting_append (a b : List WlPendingIn) : waiting (a ++ b) = waiting a ++ waiting b :=
  List.filterMap_append

/-- An entry fits an in-buffer, and is for a vfd that has an id. -/
def WlPendingIn.Sound (entry : WlPendingIn) : Prop :=
  entry.message.length ≤ pageSize ∧ ∀ t, received entry.message = some t →
    ∀ id, entry.addresses id ↔ t.vfd = id

theorem sound_raw (msg : List UInt8) (h : msg.length ≤ pageSize) :
    (WlPendingIn.raw msg).Sound := by
  refine ⟨h, fun t ht id => ?_⟩
  have hid : rawVfdId msg = some t.vfd := rawVfdId_of_received ht
  change rawVfdId msg = some id ↔ _
  rw [hid, Option.some_inj]

theorem vfdRecvMsg_length (v : ℕ) (data : List UInt8) :
    (vfdRecvMsg v data).length = sendHdrSize + data.length := by
  simp [vfdRecvMsg, sendHdrSize]
  omega

theorem sound_bytes (v : ℕ) (data : List UInt8) (hv : v < 2 ^ 32)
    (hdata : data.length ≤ maxFillChunk) : (WlPendingIn.bytes v data).Sound := by
  refine ⟨?_, fun t ht id => ?_⟩
  · have hroom : sendHdrSize + maxFillChunk = pageSize := by decide
    change (vfdRecvMsg v data).length ≤ pageSize
    rw [vfdRecvMsg_length]
    omega
  · rw [WlPendingIn.message, received_vfdRecvMsg v data hv] at ht
    rw [← Option.some.inj ht]
    rfl

theorem waiting_filter (entries : List WlPendingIn) (id : ℕ) (h : ∀ entry ∈ entries, entry.Sound) :
    waiting (entries.filter fun entry => ¬entry.addresses id) =
      (waiting entries).filter (·.vfd ≠ id) := by
  induction entries with
  | nil => rfl
  | cons entry rest ih =>
    have ih := ih fun e he => h e (List.mem_cons_of_mem _ he)
    have hsound := (h entry List.mem_cons_self).2
    rw [waiting_cons, List.filter_append, ← ih]
    by_cases hid : entry.addresses id
    · have hnone : (received entry.message).toList.filter (·.vfd ≠ id) = [] := by
        refine List.filter_eq_nil_iff.mpr fun t ht => ?_
        simpa using (hsound t (Option.mem_toList.mp ht) id).mp hid
      rw [List.filter_cons_of_neg (by simpa using hid), hnone, List.nil_append]
    · have hall : (received entry.message).toList.filter (·.vfd ≠ id) =
          (received entry.message).toList := by
        refine List.filter_eq_self.mpr fun t ht => ?_
        simpa using mt (hsound t (Option.mem_toList.mp ht) id).mpr hid
      rw [List.filter_cons_of_pos (by simpa using hid), waiting_cons, hall]

/-- What waits for the bytes of one vfd carries these bytes. -/
theorem foldl_inEntries (streams : ℕ → Stream) (v : ℕ) (data : List UInt8) (hv : v < 2 ^ 32) :
    (waiting (inEntries v data)).foldl post streams = post streams ⟨v, [], data⟩ := by
  have hone : ∀ piece, received (WlPendingIn.bytes v piece).message = some ⟨v, [], piece⟩ :=
    fun piece => received_vfdRecvMsg v piece hv
  unfold inEntries
  split_ifs
  · have hpieces : waiting ((chunks data).map (.bytes v)) =
        (chunks data).map fun piece => ⟨v, [], piece⟩ := by
      rw [waiting, List.filterMap_map, ← List.filterMap_eq_map]
      exact congrArg (List.filterMap · _) (funext hone)
    rw [hpieces, foldl_post_pieces, chunks_flatten]
  · simp [waiting, hone]

theorem sound_inEntries (v : ℕ) (data : List UInt8) (hv : v < 2 ^ 32) :
    ∀ entry ∈ inEntries v data, entry.Sound := by
  intro entry h
  unfold inEntries at h
  split_ifs at h with hlen
  · obtain ⟨piece, hpiece, rfl⟩ := List.mem_map.mp h
    exact sound_bytes v piece hv (chunks_length_le data piece hpiece)
  · rw [List.mem_singleton.mp h]
    exact sound_bytes v data hv (by omega)

theorem announceFds_ids (next : ℕ) (fds : List WlFd) :
    (announceFds next fds).2.1 = fdIds next fds := by
  induction fds generalizing next with
  | nil => rfl
  | cons fd rest ih =>
    cases fd with
    | pipe n => exact congrArg (hostPipeId n :: ·) (ih next)
    | bytes payload => exact congrArg (hostVfdId next :: ·) (ih (next + 1))

theorem fdIds_length (next : ℕ) (fds : List WlFd) : (fdIds next fds).length = fds.length := by
  induction fds generalizing next with
  | nil => rfl
  | cons fd rest ih => cases fd <;> simp [fdIds, ih]

theorem hostVfdId_lt (n : ℕ) : hostVfdId n < 2 ^ 32 :=
  Nat.or_lt_two_pow (by decide) (Nat.and_lt_two_pow _ (by decide))

theorem hostPipeId_lt (n : ℕ) : hostPipeId n < 2 ^ 32 :=
  Nat.or_lt_two_pow (by decide) (Nat.and_lt_two_pow _ (by decide))

theorem fdIds_lt (next : ℕ) (fds : List WlFd) : ∀ id ∈ fdIds next fds, id < 2 ^ 32 := by
  induction fds generalizing next with
  | nil => simp [fdIds]
  | cons fd rest ih =>
    intro id h
    cases fd with
    | pipe n =>
      rcases List.mem_cons.mp h with rfl | h
      · exact hostPipeId_lt n
      · exact ih next id h
    | bytes payload =>
      rcases List.mem_cons.mp h with rfl | h
      · exact hostVfdId_lt next
      · exact ih (next + 1) id h

theorem waiting_raw (msgs : List (List UInt8)) :
    waiting (msgs.map .raw) = msgs.filterMap received := by
  rw [waiting, List.filterMap_map]
  rfl

theorem filterMap_received_vfdRecvMsg (v : ℕ) (pieces : List (List UInt8)) (hv : v < 2 ^ 32) :
    (pieces.map (vfdRecvMsg v)).filterMap received =
      pieces.map fun piece => Transfer.mk v [] piece := by
  rw [List.filterMap_map, ← List.filterMap_eq_map]
  exact congrArg (List.filterMap · pieces) (funext fun piece => received_vfdRecvMsg v piece hv)

/-- The messages before the last bring the files. -/
theorem foldl_announceFds (streams : ℕ → Stream) (next : ℕ) (fds : List WlFd) :
    ((announceFds next fds).1.filterMap received).foldl post streams =
      (files next fds).foldl post streams := by
  induction fds generalizing streams next with
  | nil => rfl
  | cons fd rest ih =>
    cases fd with
    | pipe n =>
      have hmsgs : (announceFds next (.pipe n :: rest)).1 =
        vfdNewHost (hostPipeId n) 0 vfdWrite :: (announceFds next rest).1 := rfl
      rw [hmsgs, List.filterMap_cons_none (received_vfdNewHost _ _ _), ih, files]
    | bytes payload =>
      have hmsgs : (announceFds next (.bytes payload :: rest)).1 =
        vfdNewHost (hostVfdId next) payload.length (vfdRead ||| vfdFill) ::
          ((chunks payload).map (vfdRecvMsg (hostVfdId next)) ++ (announceFds (next + 1) rest).1) :=
        rfl
      rw [hmsgs, List.filterMap_cons_none (received_vfdNewHost _ _ _), List.filterMap_append,
        filterMap_received_vfdRecvMsg _ _ (hostVfdId_lt next), List.foldl_append,
        foldl_post_pieces, chunks_flatten, ih, files, List.foldl_cons]

theorem announceFds_small (next : ℕ) (fds : List WlFd) :
    ∀ msg ∈ (announceFds next fds).1, msg.length ≤ pageSize := by
  have hnew : ∀ id size flags, (vfdNewHost id size flags).length ≤ pageSize :=
    fun id size flags => by
    simp [vfdNewHost, pageSize]
  induction fds generalizing next with
  | nil => intro msg h; cases h
  | cons fd rest ih =>
    intro msg h
    cases fd with
    | pipe n =>
      rcases List.mem_cons.mp h with rfl | h
      · exact hnew _ _ _
      · exact ih next msg h
    | bytes payload =>
      rcases List.mem_cons.mp h with rfl | h
      · exact hnew _ _ _
      rcases List.mem_append.mp h with h | h
      · obtain ⟨piece, hpiece, rfl⟩ := List.mem_map.mp h
        have hroom : sendHdrSize + maxFillChunk = pageSize := by decide
        have hlen := chunks_length_le payload piece hpiece
        rw [vfdRecvMsg_length]
        omega
      · exact ih (next + 1) msg h

theorem vfdRecvWithFds_length (v : ℕ) (data : List UInt8) (ids : List ℕ) :
    (vfdRecvWithFds v data ids).length = sendHdrSize + 4 * ids.length + data.length := by
  have hids : (ids.flatMap (leBytes 4)).length = 4 * ids.length := by
    simp [List.length_flatMap, Nat.mul_comm]
  simp only [vfdRecvWithFds, List.length_append, leBytes_length, hids, sendHdrSize]

/-- The messages of a reply with fds. -/
def fdDelivery (w : Wl) (clientId : ℕ) (data : List UInt8) (fds : List WlFd) : List (List UInt8) :=
  (announceFds w.nextHostVfdId fds).1 ++
    [vfdRecvWithFds (clientId % 2 ^ 32) data (fdIds w.nextHostVfdId fds)]

theorem foldl_queueRaw (msgs : List (List UInt8)) (w : Wl) :
    msgs.foldl (fun w msg => w.queueRaw msg) w =
      { w with pendingIn := w.pendingIn ++ msgs.map .raw } := by
  induction msgs generalizing w with
  | nil => simp
  | cons msg msgs ih => rw [List.foldl_cons, ih, Wl.queueRaw]; simp

theorem queueInjection_fds (w : Wl) (clientId : ℕ) (data : List UInt8) (fds : List WlFd)
    (h : fds ≠ []) :
    w.queueInjection clientId data fds =
      { w with
        pendingIn := w.pendingIn ++ (fdDelivery w clientId data fds).map .raw
        nextHostVfdId := (announceFds w.nextHostVfdId fds).2.2 } := by
  cases fds with
  | nil => exact absurd rfl h
  | cons fd rest =>
    have hraw := foldl_queueRaw (fdDelivery w clientId data (fd :: rest)) w
    rw [fdDelivery, ← announceFds_ids] at hraw ⊢
    exact congrArg (fun d : Wl =>
      { d with nextHostVfdId := (announceFds w.nextHostVfdId (fd :: rest)).2.2 }) hraw

/-- The messages of a reply bring its files, and its bytes with its fds. -/
theorem foldl_fdDelivery (streams : ℕ → Stream) (w : Wl) (clientId : ℕ) (data : List UInt8)
    (fds : List WlFd) (hcount : fds.length < 2 ^ 32) :
    ((fdDelivery w clientId data fds).filterMap received).foldl post streams =
      (sends w (.injectIn clientId data fds)).foldl post streams := by
  have hlast : received (vfdRecvWithFds (clientId % 2 ^ 32) data (fdIds w.nextHostVfdId fds)) =
      some ⟨clientId % 2 ^ 32, fdIds w.nextHostVfdId fds, data⟩ :=
    received_vfdRecvWithFds _ data _ (Nat.mod_lt _ (by decide)) (fdIds_lt _ fds)
      (by rwa [fdIds_length])
  rw [fdDelivery, sends, List.filterMap_append, List.foldl_append, List.foldl_append,
    foldl_announceFds, List.filterMap_cons_some hlast]
  rfl

/-- An injection that fits waits as what it sends. -/
theorem queueInjection_waiting (w : Wl) (clientId : ℕ) (data : List UInt8) (fds : List WlFd)
    (hfits : (Event.injectIn clientId data fds).Fits) (hsound : ∀ e ∈ w.pendingIn, e.Sound) :
    (∀ e ∈ (w.queueInjection clientId data fds).pendingIn, e.Sound) ∧
      ∀ streams, (waiting (w.queueInjection clientId data fds).pendingIn).foldl post streams =
        (sends w (.injectIn clientId data fds)).foldl post
          ((waiting w.pendingIn).foldl post streams) := by
  have hid : clientId % 2 ^ 32 < 2 ^ 32 := Nat.mod_lt _ (by decide)
  by_cases hfds : fds = []
  · subst hfds
    refine ⟨fun e he => ?_, fun streams => ?_⟩
    · rcases List.mem_append.mp he with he | he
      · exact hsound e he
      · exact sound_inEntries _ data hid e he
    · change (waiting (w.pendingIn ++ inEntries (clientId % 2 ^ 32) data)).foldl post streams = _
      rw [waiting_append, List.foldl_append, foldl_inEntries _ _ _ hid]
      rfl
  · have hroom : sendHdrSize + 4 * fds.length + data.length ≤ pageSize := hfits.resolve_left hfds
    have hpage : pageSize = 4096 := rfl
    rw [queueInjection_fds w clientId data fds hfds]
    refine ⟨fun e he => ?_, fun streams => ?_⟩
    · rcases List.mem_append.mp he with he | he
      · exact hsound e he
      obtain ⟨msg, hmsg, rfl⟩ := List.mem_map.mp he
      refine sound_raw msg ?_
      rcases List.mem_append.mp hmsg with hmsg | hmsg
      · exact announceFds_small _ fds msg hmsg
      · rw [List.mem_singleton.mp hmsg, vfdRecvWithFds_length, fdIds_length]
        exact hroom
    · rw [waiting_append, waiting_raw, List.foldl_append]
      exact foldl_fdDelivery _ w clientId data fds (by omega)

end NixWasm.WlDevice
