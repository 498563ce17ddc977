import NixWasm.Ninepd

/-!
The bounds of the guest's 9P server. A reply under construction starts with its header, is as
long as what was put into it, and no write has gone past the agreed message size. The
handlers keep the message size between 4096 bytes and the output buffer, so every frame that
goes out is as long as its size field says and fits the size agreed with the client.
-/
namespace NixWasm.Ninepd

open Bytes

variable {η : Type}

/-- The message size agreed on after a reply. -/
def agreed (msize : ℕ) (reply : List UInt8) : ℕ :=
  if leValue ((reply.drop 4).take 1) = Rversion then leValue ((reply.drop 7).take 4) else msize

/-- Every reply fits the buffer and the size agreed on, is as long as it says, and was built
inside the buffer; a size is agreed on within the limit for the one asked for. -/
def Bounded (limit : ℕ → ℕ) : ℕ → List Exchange → Prop
  | _, [] => True
  | msize, x :: rest =>
    x.reply.length ≤ maxMsize ∧
    x.reply.length ≤ agreed msize x.reply ∧
    leValue (x.reply.take 4) = x.reply.length ∧
    x.reach ≤ maxMsize ∧
    (leValue ((x.reply.drop 4).take 1) = Rversion →
      agreed msize x.reply ≤ limit (leValue (x.request.body.take 4))) ∧
    Bounded limit (agreed msize x.reply) rest

instance decidableBounded (limit : ℕ → ℕ) :
    ∀ (msize : ℕ) (exchanges : List Exchange), Decidable (Bounded limit msize exchanges)
  | _, [] => isTrue trivial
  | msize, x :: rest =>
    have := decidableBounded limit (agreed msize x.reply) rest
    inferInstanceAs (Decidable (_ ∧ _ ∧ _ ∧ _ ∧ (_ → _) ∧ _))

/-- A reply of `len` bytes so far, behind its header, with all writes before `n`. -/
structure Reply (o : Out) (type tag len n : ℕ) : Prop where
  header : ∃ rest, o.bytes = leBytes 4 0 ++ (leBytes 1 type ++ (leBytes 2 tag ++ rest)) ∧
    7 + rest.length = len
  reach : o.reach ≤ n

namespace Reply

variable {o : Out} {type tag len n : ℕ}

theorem length (h : Reply o type tag len n) : o.bytes.length = len := by
  obtain ⟨rest, hbytes, hlen⟩ := h.header
  simp [hbytes]
  omega

theorem put (h : Reply o type tag len n) (s : List UInt8) (hroom : len + s.length ≤ n) :
    Reply (o.put s) type tag (len + s.length) n := by
  obtain ⟨rest, hbytes, hlen⟩ := h.header
  refine ⟨⟨rest ++ s, ?_, ?_⟩, ?_⟩
  · simp [Out.put, hbytes]
  · rw [List.length_append]
    omega
  · change max o.reach (o.bytes.length + s.length) ≤ n
    rw [h.length]
    exact max_le h.reach hroom

theorem int (h : Reply o type tag len n) (k v : ℕ) (hroom : len + k ≤ n) :
    Reply (o.put (leBytes k v)) type tag (len + k) n := by
  have hput := h.put (leBytes k v) (by rw [leBytes_length]; exact hroom)
  rwa [leBytes_length] at hput

theorem ints (k : ℕ) (vs : List ℕ) : ∀ {o : Out} {len : ℕ}, Reply o type tag len n →
    len + k * vs.length ≤ n →
    Reply (vs.foldl (fun o v => o.put (leBytes k v)) o) type tag (len + k * vs.length) n := by
  induction vs with
  | nil =>
    intro o len h _
    exact h
  | cons v vs ih =>
    intro o len h hroom
    have hlen : len + k * (v :: vs).length = len + k + k * vs.length := by
      rw [List.length_cons]
      ring
    rw [hlen] at hroom ⊢
    exact ih (h.int k v (by omega)) hroom

theorem qid (h : Reply o type tag len n) (q : Qid) (hroom : len + 13 ≤ n) :
    Reply (o.qid q) type tag (len + 13) n :=
  ((h.int 1 q.type (by omega)).int 4 q.version (by omega)).int 8 q.path hroom

theorem qids (qs : List Qid) : ∀ {o : Out} {len : ℕ}, Reply o type tag len n →
    len + 13 * qs.length ≤ n → Reply (qs.foldl Out.qid o) type tag (len + 13 * qs.length) n := by
  induction qs with
  | nil =>
    intro o len h _
    exact h
  | cons q qs ih =>
    intro o len h hroom
    have hlen : len + 13 * (q :: qs).length = len + 13 + 13 * qs.length := by
      rw [List.length_cons]
      ring
    rw [hlen] at hroom ⊢
    exact ih (h.qid q (by omega)) hroom

theorem str (h : Reply o type tag len n) (s : List UInt8) (hroom : len + (2 + s.length) ≤ n) :
    Reply (o.str s) type tag (len + (2 + s.length)) n := by
  have hput := (h.int 2 s.length (by omega)).put s (by omega)
  rwa [Nat.add_assoc] at hput

/-- A number filled in behind the header. -/
theorem patch (h : Reply o type tag len n) {pos : ℕ} (v : ℕ) (hpos : 7 ≤ pos)
    (hend : pos + 4 ≤ len) : Reply (o.patch pos v) type tag len n := by
  obtain ⟨rest, hbytes, hlen⟩ := h.header
  obtain ⟨i, rfl⟩ := Nat.exists_eq_add_of_le hpos
  refine ⟨⟨rest.take i ++ leBytes 4 v ++ rest.drop (i + 4), ?_, ?_⟩, h.reach⟩
  · have hsplit : o.bytes = (leBytes 4 0 ++ (leBytes 1 type ++ leBytes 2 tag)) ++ rest := by
      simp [hbytes]
    have hseven : (leBytes 4 0 ++ (leBytes 1 type ++ leBytes 2 tag)).length = 7 := by simp
    change o.bytes.take (7 + i) ++ leBytes 4 v ++ o.bytes.drop (7 + i + 4) = _
    rw [hsplit, ← hseven, List.take_length_add_append, Nat.add_assoc,
      List.drop_length_add_append]
    simp
  · simp
    omega

theorem begin (o : Out) (type tag : ℕ) (h : o.reach ≤ n) (hn : 7 ≤ n) :
    Reply (o.replyBegin type tag) type tag 7 n := by
  refine ⟨⟨[], by simp [Out.replyBegin, Out.put], rfl⟩, ?_⟩
  simp [Out.replyBegin, Out.put]
  omega

theorem rlerror (o : Out) (tag ecode : ℕ) (h : o.reach ≤ n) (hn : 11 ≤ n) :
    Reply (o.rlerror tag ecode) Rlerror tag 11 n :=
  (Reply.begin o Rlerror tag h (by omega)).int 4 ecode hn

theorem replySend_bytes (h : Reply o type tag len n) :
    ∃ rest, o.replySend.bytes = leBytes 4 len ++ (leBytes 1 type ++ (leBytes 2 tag ++ rest)) ∧
      7 + rest.length = len := by
  obtain ⟨rest, hbytes, hlen⟩ := h.header
  refine ⟨rest, ?_, hlen⟩
  rw [Out.replySend, h.length, Out.patch, hbytes]
  simp

end Reply

/-- The message sizes that the server works with. -/
def Sized (d : Daemon η) : Prop := 4096 ≤ d.msize ∧ d.msize ≤ maxMsize

theorem sized_new : Sized (Daemon.new η) :=
  ⟨show 4096 ≤ maxMsize by decide, Nat.le_refl maxMsize⟩

/-- A request answered under the size agreed before it. -/
def Answered (d : Daemon η) (tag : ℕ) (r : Outcome η) : Prop :=
  r.daemon.msize = d.msize ∧
    ∃ type len, type ∉ [Rversion] ∧ type < 256 ∧ Reply r.out type tag len d.msize ∧ len ≤ d.msize

theorem answered_fail {d d' : Daemon η} (hd : Sized d) {calls : List Call} {tag ecode : ℕ}
    (hsize : d'.msize = d.msize) : Answered d tag (fail d' calls tag ecode) := by
  have hmin := hd.1
  exact ⟨hsize, Rlerror, 11, by decide, by decide,
    Reply.rlerror Out.new tag ecode (Nat.zero_le _) (by omega), by omega⟩

/-- A reply that starts a new frame and ends within the size agreed on. -/
theorem answered_of_reply {d : Daemon η} {r : Outcome η} {tag : ℕ} (type len : ℕ)
    (hsize : r.daemon.msize = d.msize) (htype : type ∉ [Rversion]) (hbyte : type < 256)
    (hreply : Reply r.out type tag len d.msize) (hlen : len ≤ d.msize) : Answered d tag r :=
  ⟨hsize, type, len, htype, hbyte, hreply, hlen⟩

theorem clamp_le {msize : ℕ} (h : 4096 ≤ msize) (hmax : msize ≤ maxMsize) (count : ℕ) :
    clamp msize count + 24 ≤ msize := by
  have hwrap : (msize + 2 ^ 32 - 24) % 2 ^ 32 = msize - 24 := by
    have hmsize : msize ≤ 65536 := hmax
    omega
  rw [clamp, hwrap]
  omega

theorem answered_attach (k : Kernel η) (serveRoot : List UInt8) {d : Daemon η} (hd : Sized d)
    (tag : ℕ) (b : List UInt8) : Answered d tag (doAttach k serveRoot d tag b) := by
  have hmin := hd.1
  unfold doAttach
  split_ifs
  · exact answered_fail hd (by rfl)
  · dsimp only
    split
    · exact answered_fail hd (by rfl)
    · split
      · exact answered_fail hd (by rfl)
      · exact answered_of_reply _ _ rfl (by decide) (by decide)
          ((Reply.begin Out.new Rattach tag (Nat.zero_le _) (by omega)).qid _ (by omega))
          (by omega)

/-- A walk has at most a qid for each component. -/
theorem walkLoop_qids (k : Kernel η) (serveRoot : List UInt8) (left : ℕ) :
    ∀ {p path : List UInt8} {qids : List Qid} {calls calls' : List Call} {path' : List UInt8}
      {qids' : List Qid},
      walkLoop k serveRoot left p path qids calls = (calls', .ok (path', qids')) →
        qids'.length ≤ qids.length + left := by
  induction left with
  | zero =>
    intro p path qids calls calls' path' qids' h
    cases h
    exact Nat.le_refl _
  | succ left ih =>
    intro p path qids calls calls' path' qids' h
    have hstop : ∀ {path : List UInt8} {calls : List Call},
        (calls, walkStop path qids) = (calls', Except.ok (path', qids')) →
          qids'.length ≤ qids.length + (left + 1) := by
      intro path calls heq
      unfold walkStop at heq
      split_ifs at heq
      · cases heq
      · cases heq
        omega
    unfold walkLoop at h
    dsimp only at h
    split_ifs at h
    · cases h
    · cases h
    · split at h
      · exact hstop h
      · split_ifs at h
        · exact hstop h
        · split at h
          · exact hstop h
          · split_ifs at h
            · cases h
              rw [List.length_append, List.length_singleton]
              omega
            · have hlen := ih h
              rw [List.length_append, List.length_singleton] at hlen
              omega

theorem answered_rwalk {d : Daemon η} (hd : Sized d) {r : Outcome η} {tag : ℕ} {qids : List Qid}
    (hsize : r.daemon.msize = d.msize) (hout : r.out = rwalk tag qids)
    (hqids : qids.length ≤ maxWelem) : Answered d tag r := by
  have hmin := hd.1
  have hwelem : qids.length ≤ 16 := hqids
  refine answered_of_reply Rwalk (7 + 2 + 13 * qids.length) hsize (by decide) (by decide)
    ?_ (by omega)
  rw [hout]
  exact Reply.qids qids ((Reply.begin Out.new Rwalk tag (Nat.zero_le _) (by omega)).int 2 _
    (by omega)) (by omega)

theorem answered_walk (k : Kernel η) (serveRoot : List UInt8) {d : Daemon η} (hd : Sized d)
    (tag : ℕ) (b : List UInt8) : Answered d tag (doWalk k serveRoot d tag b) := by
  unfold doWalk
  split_ifs with hlen
  · exact answered_fail hd (by rfl)
  · dsimp only
    split_ifs with hwelem
    · exact answered_fail hd (by rfl)
    · split
      · exact answered_fail hd (by rfl)
      · split
        · exact answered_fail hd (by rfl)
        · rename_i calls path qids hwalk
          have hqids := walkLoop_qids k serveRoot _ hwalk
          rw [List.length_nil, Nat.zero_add] at hqids
          have hqids := hqids.trans (not_lt.mp hwelem)
          split_ifs
          · split
            · exact answered_fail hd (by rfl)
            · exact answered_rwalk hd rfl rfl hqids
          · exact answered_rwalk hd rfl rfl hqids

theorem answered_getattr (k : Kernel η) (serveRoot : List UInt8) {d : Daemon η} (hd : Sized d)
    (tag : ℕ) (b : List UInt8) : Answered d tag (doGetattr k serveRoot d tag b) := by
  have hmin := hd.1
  unfold doGetattr
  split_ifs
  · exact answered_fail hd (by rfl)
  · split
    · exact answered_fail hd (by rfl)
    · split
      · exact answered_fail hd (by rfl)
      · refine answered_of_reply Rgetattr _ rfl (by decide) (by decide)
          (Reply.ints 8 _ (Reply.ints 4 _ (((Reply.begin Out.new Rgetattr tag (Nat.zero_le _)
            (by omega)).int 8 _ (by omega)).qid _ (by omega)) ?_) ?_) ?_
        all_goals
          simp only [List.length_cons, List.length_nil]
          omega

theorem answered_readlink (k : Kernel η) (serveRoot : List UInt8) {d : Daemon η} (hd : Sized d)
    (tag : ℕ) (b : List UInt8) : Answered d tag (doReadlink k serveRoot d tag b) := by
  have hmin := hd.1
  unfold doReadlink
  split_ifs
  · exact answered_fail hd (by rfl)
  · split
    · exact answered_fail hd (by rfl)
    · split
      · exact answered_fail hd (by rfl)
      · split
        · exact answered_fail hd (by rfl)
        · rename_i target htarget
          have hsize : target.length ≤ 3071 := k.readlink_le _ _ _ htarget
          exact answered_of_reply Rreadlink _ rfl (by decide) (by decide)
            ((Reply.begin Out.new Rreadlink tag (Nat.zero_le _) (by omega)).str target
              (by omega)) (by omega)

theorem answered_rlopen {d : Daemon η} (hd : Sized d) {r : Outcome η} {tag : ℕ} {st : Stat}
    (hsize : r.daemon.msize = d.msize) (hout : r.out = rlopen tag st) : Answered d tag r := by
  have hmin := hd.1
  refine answered_of_reply Rlopen (7 + 13 + 4) hsize (by decide) (by decide) ?_
    (by omega)
  rw [hout]
  exact ((Reply.begin Out.new Rlopen tag (Nat.zero_le _) (by omega)).qid _ (by omega)).int 4 0
    (by omega)

theorem answered_lopen (k : Kernel η) (serveRoot : List UInt8) {d : Daemon η} (hd : Sized d)
    (tag : ℕ) (b : List UInt8) : Answered d tag (doLopen k serveRoot d tag b) := by
  unfold doLopen
  split_ifs
  · exact answered_fail hd (by rfl)
  · split
    · exact answered_fail hd (by rfl)
    · dsimp only
      split_ifs
      · exact answered_fail hd (by rfl)
      · split
        · exact answered_fail hd (by rfl)
        · split
          · exact answered_fail hd (by rfl)
          · split_ifs
            · split
              · exact answered_fail hd (by rfl)
              · exact answered_rlopen hd rfl rfl
            · exact answered_rlopen hd rfl rfl

theorem answered_read (k : Kernel η) {d : Daemon η} (hd : Sized d) (tag : ℕ) (b : List UInt8) :
    Answered d tag (doRead k d tag b) := by
  have hmin := hd.1
  unfold doRead
  split_ifs
  · exact answered_fail hd (by rfl)
  · split
    · exact answered_fail hd (by rfl)
    · split
      · exact answered_fail hd (by rfl)
      · dsimp only
        have hclamp := clamp_le hd.1 hd.2 (leValue ((b.drop 12).take 4))
        generalize clamp d.msize (leValue ((b.drop 12).take 4)) = count at *
        have hbegin : Reply ((Out.new.replyBegin Rread tag).put (leBytes 4 0)) Rread tag 11
            d.msize := (Reply.begin Out.new Rread tag (Nat.zero_le _) (by omega)).int 4 0 (by omega)
        have hreach : max ((Out.new.replyBegin Rread tag).put (leBytes 4 0)).reach
            (((Out.new.replyBegin Rread tag).put (leBytes 4 0)).bytes.length + count) ≤
              d.msize := by
          rw [hbegin.length]
          exact max_le hbegin.reach (by omega)
        split
        · exact answered_of_reply _ _ rfl (by decide) (by decide)
            (Reply.rlerror _ tag _ hreach (by omega)) (by omega)
        · rename_i got hgot
          have hcount := k.pread_le _ _ _ _ hgot
          have hfilled : Reply { (Out.new.replyBegin Rread tag).put (leBytes 4 0) with
              reach := max ((Out.new.replyBegin Rread tag).put (leBytes 4 0)).reach
                (((Out.new.replyBegin Rread tag).put (leBytes 4 0)).bytes.length + count) }
              Rread tag 11 d.msize := ⟨hbegin.header, hreach⟩
          refine answered_of_reply Rread _ rfl (by decide) (by decide)
            ((hfilled.patch got.length ?_ ?_).put got (by omega)) (by omega)
          · rw [hfilled.length]
          · rw [hfilled.length]

/-- The entries of a directory stay within the count. -/
theorem reply_putEntries {count tag n base : ℕ} (hn : base + count ≤ n) (ents : List Dent) :
    ∀ {i total : ℕ} {o : Out}, total ≤ count → Reply o Rreaddir tag (base + total) n →
      ∃ total', total' ≤ count ∧
        Reply (putEntries count i total ents o).1 Rreaddir tag (base + total') n := by
  induction ents with
  | nil =>
    intro i total o htotal h
    exact ⟨total, htotal, h⟩
  | cons e rest ih =>
    intro i total o htotal h
    unfold putEntries
    dsimp only
    split_ifs with hfull
    · exact ⟨total, htotal, h⟩
    · refine ih (by omega) ?_
      have hentry := (((h.qid ⟨direntType e.dtype, 0, e.ino⟩ (by omega)).int 8 (i + 1)
        (by omega)).int 1 e.dtype (by omega)).str e.name (by omega)
      have hlen : base + total + 13 + 8 + 1 + (2 + e.name.length) =
          base + (total + (13 + 8 + 1 + 2 + e.name.length)) := by omega
      rw [hlen] at hentry
      exact hentry

theorem answered_rreaddir {d : Daemon η} (hd : Sized d) {r : Outcome η} {tag off want : ℕ}
    {ents : List Dent} (hsize : r.daemon.msize = d.msize)
    (hout : r.out = rreaddir tag (clamp d.msize want) off ents) : Answered d tag r := by
  have hclamp := clamp_le hd.1 hd.2 want
  have hbegin : Reply ((Out.new.replyBegin Rreaddir tag).put (leBytes 4 0)) Rreaddir tag (11 + 0)
      d.msize := (Reply.begin Out.new Rreaddir tag (Nat.zero_le _) (by omega)).int 4 0 (by omega)
  obtain ⟨total, htotal, hentries⟩ := reply_putEntries (i := off % 2 ^ 32)
    (by omega : 11 + clamp d.msize want ≤ d.msize) (ents.drop (off % 2 ^ 32)) (Nat.zero_le _) hbegin
  refine answered_of_reply Rreaddir (11 + total) hsize (by decide) (by decide) ?_
    (by omega)
  rw [hout]
  refine hentries.patch _ ?_ ?_
  · rw [hbegin.length]
  · rw [hbegin.length]
    omega

theorem answered_readdir (k : Kernel η) (serveRoot : List UInt8) {d : Daemon η} (hd : Sized d)
    (tag : ℕ) (b : List UInt8) : Answered d tag (doReaddir k serveRoot d tag b) := by
  unfold doReaddir
  split_ifs
  · exact answered_fail hd (by rfl)
  · split
    · exact answered_fail hd (by rfl)
    · dsimp only
      split
      · exact answered_rreaddir hd rfl rfl
      · split
        · exact answered_fail hd (by rfl)
        · exact answered_rreaddir hd rfl rfl

theorem answered_statfs {d : Daemon η} (hd : Sized d) (tag : ℕ) :
    Answered d tag (doStatfs d tag) := by
  have hmin := hd.1
  refine answered_of_reply Rstatfs _ rfl (by decide) (by decide)
    (((Reply.ints 8 [2 ^ 20, 0, 0, 2 ^ 16, 0, 0] (((Reply.begin Out.new Rstatfs tag (Nat.zero_le _)
      (by omega)).int 4 _ (by omega)).int 4 _ (by omega)) ?_).int 4 255 ?_)) ?_
  all_goals
    simp only [List.length_cons, List.length_nil]
    omega

theorem answered_bare {d d' : Daemon η} (hd : Sized d) {type tag : ℕ} (htype : type ∉ [Rversion])
    (hbyte : type < 256) (hsize : d'.msize = d.msize) :
    Answered d tag ⟨d', [], Out.new.replyBegin type tag⟩ := by
  have hmin := hd.1
  exact answered_of_reply type 7 hsize htype hbyte
    (Reply.begin Out.new type tag (Nat.zero_le _) (by omega)) (by omega)

theorem answered_clunk {d : Daemon η} (hd : Sized d) (tag : ℕ) (b : List UInt8) :
    Answered d tag (doClunk d tag b) := by
  unfold doClunk
  split_ifs
  · exact answered_fail hd (by rfl)
  · exact answered_bare hd (by decide) (by decide) rfl

/-- The frame that answers a request, under the size agreed on with it. -/
structure Settled (d : Daemon η) (m : Frame) (r : Outcome η) : Prop where
  sized : Sized r.daemon
  length : r.out.replySend.bytes.length ≤ r.daemon.msize
  size : leValue (r.out.replySend.bytes.take 4) = r.out.replySend.bytes.length
  reach : r.out.replySend.reach ≤ r.daemon.msize
  agreed : agreed d.msize r.out.replySend.bytes = r.daemon.msize
  asked : leValue ((r.out.replySend.bytes.drop 4).take 1) = Rversion →
    r.daemon.msize ≤ max (leValue (m.body.take 4)) 4096

/-- What the header of a frame says. -/
theorem header_fields {bytes rest : List UInt8} {type tag len : ℕ} (hlen : len ≤ maxMsize)
    (htype : type < 256)
    (h : bytes = leBytes 4 len ++ (leBytes 1 type ++ (leBytes 2 tag ++ rest)))
    (hrest : 7 + rest.length = len) :
    bytes.length = len ∧ leValue (bytes.take 4) = len ∧
      leValue ((bytes.drop 4).take 1) = type ∧ bytes.drop 7 = rest := by
  have hsmall : len ≤ 65536 := hlen
  refine ⟨?_, ?_, ?_, ?_⟩
  · simp [h]
    omega
  · rw [h, List.take_left' (leBytes_length 4 len), leValue_leBytes, Nat.mod_eq_of_lt (by omega)]
  · rw [h, List.drop_left' (leBytes_length 4 len), List.take_left' (leBytes_length 1 type),
      leValue_leBytes, Nat.mod_eq_of_lt (by omega)]
  · have hsplit : bytes = (leBytes 4 len ++ (leBytes 1 type ++ leBytes 2 tag)) ++ rest := by
      simp [h]
    rw [hsplit, List.drop_left' (by simp)]

theorem Answered.settled {d : Daemon η} {m : Frame} {r : Outcome η} (hd : Sized d)
    (h : Answered d m.tag r) : Settled d m r := by
  obtain ⟨hsize, type, len, htype, hbyte, hreply, hlen⟩ := h
  obtain ⟨rest, hbytes, hrest⟩ := hreply.replySend_bytes
  obtain ⟨hlength, hvalue, hfield, -⟩ := header_fields (hlen.trans hd.2) hbyte hbytes hrest
  have hother : leValue ((r.out.replySend.bytes.drop 4).take 1) ≠ Rversion := by
    rw [hfield]
    simpa using htype
  refine ⟨?_, ?_, ?_, ?_, ?_, fun hversion => absurd hversion hother⟩
  · rw [Sized, hsize]
    exact hd
  · rw [hlength, hsize]
    exact hlen
  · rw [hvalue, hlength]
  · rw [hsize]
    exact hreply.reach
  · rw [Ninepd.agreed, if_neg hother, hsize]

theorem negotiate_bounds (want : ℕ) :
    4096 ≤ negotiate want ∧ negotiate want ≤ maxMsize ∧ negotiate want ≤ max want 4096 := by
  have hcap : (if want < maxMsize then want else maxMsize) = min want 65536 := by
    rw [maxMsize]
    split_ifs <;> omega
  unfold negotiate
  rw [hcap, maxMsize]
  dsimp only
  split_ifs <;> omega

theorem settled_rversion {d : Daemon η} (m : Frame) {version : List UInt8}
    (hversion : version.length ≤ 8) :
    let msize := negotiate (leValue (m.body.take 4))
    Settled d m ⟨{ d with msize }, [], rversion m.tag msize version⟩ := by
  obtain ⟨hmin, hmax, hasked⟩ := negotiate_bounds (leValue (m.body.take 4))
  generalize negotiate (leValue (m.body.take 4)) = msize at *
  have hsmall : msize ≤ 65536 := hmax
  have hbegin := (Reply.begin Out.new Rversion m.tag (Nat.zero_le msize) (by omega)).int 4 msize
    (by omega)
  have hreply := hbegin.str version (by omega)
  have hbytes : (rversion m.tag msize version).bytes = leBytes 4 0 ++ (leBytes 1 Rversion ++
      (leBytes 2 m.tag ++ (leBytes 4 msize ++ (leBytes 2 version.length ++ version)))) := by
    simp [rversion, Out.str, Out.put, Out.replyBegin]
  have hsend : (rversion m.tag msize version).replySend.bytes =
      leBytes 4 (7 + 4 + (2 + version.length)) ++ (leBytes 1 Rversion ++ (leBytes 2 m.tag ++
        (leBytes 4 msize ++ (leBytes 2 version.length ++ version)))) := by
    rw [Out.replySend, show (rversion m.tag msize version).bytes.length = _ from hreply.length,
      Out.patch, hbytes]
    simp
  obtain ⟨hlength, hvalue, hfield, hrest⟩ := header_fields (by simp [maxMsize]; omega)
    (by decide) hsend (by simp; omega)
  have hagreed : agreed d.msize (rversion m.tag msize version).replySend.bytes = msize := by
    rw [agreed, if_pos hfield, hrest, List.take_left' (leBytes_length 4 msize), leValue_leBytes,
      Nat.mod_eq_of_lt (by omega)]
  refine ⟨⟨hmin, hmax⟩, ?_, ?_, hreply.reach, hagreed, fun _ => hasked⟩
  · rw [hlength]
    dsimp only
    omega
  · rw [hvalue, hlength]

theorem settled_version {d : Daemon η} (hd : Sized d) (m : Frame) :
    Settled d m (doVersion d m.tag m.body) := by
  have hfail : Settled d m (fail d [] m.tag EINVAL) := (answered_fail hd (by rfl)).settled hd
  unfold doVersion
  by_cases hshort : m.body.length < 6
  · rw [if_pos hshort]
    exact hfail
  · rw [if_neg hshort]
    dsimp only
    by_cases hcut : m.body.length < 6 + leValue ((m.body.drop 4).take 2)
    · rw [if_pos hcut]
      exact hfail
    · rw [if_neg hcut]
      refine settled_rversion m ?_
      split_ifs <;> decide

theorem settled_handle (serveRoot : List UInt8) (k : Kernel η) {d : Daemon η} (hd : Sized d)
    (m : Frame) : Settled d m (handle serveRoot k d m) := by
  unfold handle
  refine iteInduction (fun _ => settled_version hd m) fun _ => ?_
  refine iteInduction (fun _ => (answered_attach k serveRoot hd m.tag m.body).settled hd)
    fun _ => ?_
  refine iteInduction (fun _ => (answered_walk k serveRoot hd m.tag m.body).settled hd) fun _ => ?_
  refine iteInduction (fun _ => (answered_getattr k serveRoot hd m.tag m.body).settled hd)
    fun _ => ?_
  refine iteInduction (fun _ => (answered_readlink k serveRoot hd m.tag m.body).settled hd)
    fun _ => ?_
  refine iteInduction (fun _ => (answered_lopen k serveRoot hd m.tag m.body).settled hd) fun _ => ?_
  refine iteInduction (fun _ => (answered_read k hd m.tag m.body).settled hd) fun _ => ?_
  refine iteInduction (fun _ => (answered_readdir k serveRoot hd m.tag m.body).settled hd)
    fun _ => ?_
  refine iteInduction (fun _ => (answered_statfs hd m.tag).settled hd) fun _ => ?_
  refine iteInduction (fun _ => (answered_clunk hd m.tag m.body).settled hd) fun _ => ?_
  refine iteInduction (fun _ => (answered_bare hd (by decide) (by decide) rfl).settled hd)
    fun _ => ?_
  exact iteInduction (fun _ => (answered_fail hd (by rfl)).settled hd) fun _ =>
    (answered_fail hd (by rfl)).settled hd

theorem bounded_serve (serveRoot : List UInt8) (ks : List (Kernel η)) :
    ∀ {d : Daemon η} (stream : List UInt8), Sized d →
      Bounded (fun want => max want 4096) d.msize (serve serveRoot ks d stream) := by
  induction ks with
  | nil =>
    intro d stream _
    trivial
  | cons k ks ih =>
    intro d stream hd
    unfold serve
    cases nextFrame stream with
    | none => trivial
    | some next =>
      obtain ⟨m, rest⟩ := next
      have h := settled_handle serveRoot k hd m
      have hmax := h.sized.2
      refine ⟨h.length.trans hmax, ?_, h.size, h.reach.trans hmax, ?_, ?_⟩
      · rw [h.agreed]
        exact h.length
      · rw [h.agreed]
        exact h.asked
      · rw [h.agreed]
        exact ih rest h.sized

/-- Every reply to every stream fits the output buffer and the message size agreed on, which
is at most the one asked for, or 4096. -/
theorem replies_bounded (serveRoot : List UInt8) (ks : List (Kernel η)) (stream : List UInt8) :
    Bounded (fun want => max want 4096) maxMsize (serve serveRoot ks (Daemon.new η) stream) :=
  bounded_serve serveRoot ks stream sized_new

/-- A kernel without a single file. -/
def emptyKernel : Kernel Unit where
  lstat _ := .error ENOENT
  readlink _ _ := .error ENOENT
  openFile _ := .error ENOENT
  pread _ _ _ := .error EIO
  readdir _ := .error ENOENT
  stale := 0
  readlink_le _ _ _ h := by cases h
  pread_le _ _ _ _ h := by cases h

/-- A client that asks for 100 bytes gets 4096. -/
theorem small_msize_raised :
    ¬Bounded id maxMsize (serve [47] [emptyKernel] (Daemon.new Unit)
      (leBytes 4 21 ++ (leBytes 1 Tversion ++ (leBytes 2 65535 ++
        (leBytes 4 100 ++ (leBytes 2 8 ++ dotlVersion)))))) := by
  decide +kernel

end NixWasm.Ninepd
