import NixWasm.NinepFrame

/-!
One answer for every frame. The handler of a request returns its R message or throws, and
what the encoder writes of an R message is read again: no R message has a field after one
of variable length, so a length that wraps in its field only cuts the last field short.
-/
namespace NixWasm.NinepCodec

open Bytes Bytes.Reader Unicode

theorem reads_u8_mod (v : ℕ) : Reads Read.u8 (Write.u8 v) (v % 2 ^ 8) := reads_le_mod 1 v

theorem reads_u16_mod (v : ℕ) : Reads Read.u16 (Write.u16 v) (v % 2 ^ 16) := reads_le_mod 2 v

theorem reads_u32_mod (v : ℕ) : Reads Read.u32 (Write.u32 v) (v % 2 ^ 32) := reads_le_mod 4 v

theorem reads_u64_mod (v : ℕ) : Reads Read.u64 (Write.u64 v) (toNumber (v % 2 ^ 64)) :=
  reads_map toNumber (reads_le_mod 8 v)

theorem reads_qid_mod (q : Qid) : Reads Read.qid (Write.qid q)
    ⟨q.type % 2 ^ 8, q.version % 2 ^ 32, toNumber (q.path % 2 ^ 64)⟩ :=
  reads_bind (reads_u8_mod q.type)
    (reads_bind (reads_u32_mod q.version) (reads_last (reads_u64_mod q.path)))

theorem accepts_str (s : Utf16) : Accepts Read.str (Write.str s) fun _ => True :=
  accepts_bind (reads_u16_mod _) (accepts_upTo _ _ _)

theorem accepts_data (b : List UInt8) : Accepts Read.data (Write.data b) fun _ => True :=
  accepts_bind (reads_u32_mod _) (accepts_upTo id _ _)

theorem accepts_qids (v : List Qid) : Accepts Read.qids (Write.qids v) fun _ => True :=
  accepts_bind (reads_u16_mod _)
    (accepts_items Read.qid Write.qid _ v (fun q _ => reads_qid_mod q) (Nat.mod_le _ _))

/-- R messages have the odd type numbers. -/
def P9.IsReply (t : P9) : Prop := t.code % 2 = 1

instance (t : P9) : Decidable t.IsReply := inferInstanceAs (Decidable (_ = _))

section
attribute [local irreducible] Read.u8 Read.u16 Read.u32 Read.u64 Read.str Read.qid Read.data
  Read.wnames Read.qids

theorem accepts_decodeBody (body : Body) (hreply : body.type.IsReply) :
    Accepts (decodeBody body.type) (body.fields.flatMap Field.write)
      fun decoded => decoded.type = body.type := by
  cases body
  all_goals
    simp only [Body.type] at hreply
    try exact absurd hreply (by decide)
  all_goals
    simp only [Body.fields, Body.type, decodeBody, List.flatMap_cons, List.flatMap_nil,
      Field.write, List.append_nil]
    repeat
      first
      | exact (reads_pure _).accepts rfl
      | refine accepts_bind (reads_u32_mod _) ?_
      | refine accepts_bind (reads_u64_mod _) ?_
      | refine accepts_bind (reads_qid_mod _) ?_
      | refine accepts_bind (reads_u8_mod _) ?_
      | exact (reads_last (reads_u32_mod _)).accepts rfl
      | exact (reads_last (reads_u64_mod _)).accepts rfl
      | exact (reads_last (reads_u8_mod _)).accepts rfl
      | exact (reads_last (reads_qid_mod _)).accepts rfl
      | exact accepts_last (accepts_str _) fun _ => rfl
      | exact accepts_last (accepts_data _) fun _ => rfl
      | exact accepts_last (accepts_qids _) fun _ => rfl

end

/-- The frame of an R message decodes, to the same type under the same tag. -/
theorem decode_encode_reply (tag : Option ℕ) (body : Body) (hreply : body.type.IsReply) :
    ∃ m, decode (encode ⟨tag, body⟩) = some m ∧ m.tag = some (tag.getD 0 % 2 ^ 16) ∧
      m.body.type = body.type := by
  have hreader : Accepts decodeReader (encode ⟨tag, body⟩)
      fun m => m.tag = some (tag.getD 0 % 2 ^ 16) ∧ m.body.type = body.type := by
    rw [encode_eq]
    refine accepts_bind (reads_u32_mod _) (accepts_bind (reads_u8 _ (code_lt body.type))
      (accepts_bind (reads_u16_mod _) ?_))
    simp only [ofCode_code]
    intro rest
    obtain ⟨decoded, left, hdecoded, htype⟩ := accepts_decodeBody body hreply rest
    refine ⟨⟨some (tag.getD 0 % 2 ^ 16), decoded⟩, left, ?_, rfl, htype⟩
    change (decodeBody body.type _).bind (fun p => some ((⟨_, p.1⟩ : P9Message), p.2)) = _
    rw [hdecoded, Option.bind_some]
  obtain ⟨m, left, hm, htag, htype⟩ := hreader []
  rw [List.append_nil] at hm
  exact ⟨m, by rw [decode, hm, Option.map_some], htag, htype⟩

/-- What decodes has a tag of 16 bits. -/
theorem tag_of_decode {frame : List UInt8} {m : P9Message} (h : decode frame = some m) :
    ∃ t, m.tag = some t ∧ t < 2 ^ 16 := by
  obtain ⟨⟨_, left⟩, hm, rfl⟩ := Option.map_eq_some_iff.mp h
  obtain ⟨size, afterSize, -, hm⟩ := bind_eq_some hm
  obtain ⟨type, afterType, -, hm⟩ := bind_eq_some hm
  obtain ⟨tag, afterTag, htag, hm⟩ := bind_eq_some hm
  have hlt : tag < 2 ^ 16 := by
    rw [(le_eq_some htag).1]
    refine (leValue_lt _).trans_le (Nat.pow_le_pow_right (by decide) ?_ : 256 ^ _ ≤ 256 ^ 2)
    exact List.length_take_le ..
  revert hm
  cases P9.ofCode type with
  | none => intro hm; cases hm
  | some t =>
    intro hm
    obtain ⟨body, afterBody, -, hm⟩ := bind_eq_some hm
    cases hm
    exact ⟨tag, rfl, hlt⟩

end NixWasm.NinepCodec

namespace NixWasm.NinepServer

open Unicode Vfs NinepCodec Effects

variable {V σ : Type} [DecidableEq V]

/-- The answers a request may get when its handler returns. -/
def Paired : Body → Body → Prop
  | .tversion _ version, .rversion _ ver =>
    ver = if dotlVersion.isPrefixOf version then dotlVersion else ofString "unknown"
  | .tattach .., .rattach _ => True
  | .twalk .., .rwalk _ => True
  | .tgetattr .., .rgetattr .. => True
  | .tsetattr .., .rsetattr => True
  | .tlopen .., .rlopen .. => True
  | .tlcreate .., .rlcreate .. => True
  | .tmkdir .., .rmkdir _ => True
  | .tsymlink .., .rsymlink _ => True
  | .treadlink .., .rreadlink _ => True
  | .tread .., .rread _ => True
  | .twrite .., .rwrite _ => True
  | .treaddir .., .rreaddir _ => True
  | .tclunk .., .rclunk => True
  | .tremove .., .rremove => True
  | .tunlinkat .., .runlinkat => True
  | .trename .., .rrename => True
  | .trenameat .., .rrenameat => True
  | .tstatfs .., .rstatfs .. => True
  | .tflush .., .rflush => True
  | .tfsync .., .rfsync => True
  | .tlock .., .rlock _ => True
  | .tgetlock _ _ _ _ _ clientId, .rgetlock _ _ _ _ client => client = clientId
  | _, _ => False

theorem Paired.code {body reply : Body} (h : Paired body reply) :
    reply.type.code = body.type.code + 1 := by
  unfold Paired at h
  split at h
  all_goals first | rfl | exact h.elim

theorem Paired.isReply {body reply : Body} (h : Paired body reply) : reply.type.IsReply := by
  unfold Paired at h
  split at h
  all_goals first | exact h.elim | simp [P9.IsReply, Body.type, P9.code]

theorem isReply_rlerror (ecode : ℕ) : (Body.rlerror ecode).type.IsReply := by
  have hcode : P9.rlerror.IsReply := by decide
  exact hcode

section Handlers

variable {cfg : Config V σ} {cid : ℕ}

omit [DecidableEq V] in
/-- A handler that stops when the file is not there. -/
theorem returns_found_bind {q : Body → Prop} {x : Handler V σ (Option VfsRecord)}
    {f : Option VfsRecord → Handler V σ Body} {e : Fault} (hnone : f none = throw e)
    (hsome : ∀ rec, Returns q (f (some rec))) : Returns q (x >>= f) := by
  refine returns_bind fun found => ?_
  cases found with
  | none =>
    rw [hnone]
    exact spares_throw fun _ _ => trivial
  | some rec => exact hsome rec

theorem answers_tsetattr (fid valid size : ℕ) :
    Returns (· = .rsetattr) (cfg.tsetattr cid fid valid size) := by
  have hresize : ∀ r f, Returns (· = .rsetattr) (Config.tsetattr.resize cfg r f size) := by
    intro r f
    refine returns_bind fun _ => returns_bind fun found => ?_
    cases found with
    | none => exact spares_pure rfl
    | some rec =>
      simp only
      split
      · exact spares_pure rfl
      · exact returns_bind fun _ => returns_bind fun _ => spares_pure rfl
  refine returns_bind fun r => ?_
  split
  · exact spares_pure rfl
  · refine returns_bind fun f => ?_
    split
    · split
      · exact returns_bind fun _ => spares_pure rfl
      · exact hresize r f
    · exact hresize r f

theorem answers_tlopen (fid flags : ℕ) :
    Returns (Paired (.tlopen fid flags)) (cfg.tlopen cid fid flags) := by
  have hreply : ∀ rec, Returns (Paired (.tlopen fid flags))
      (do return Body.rlopen (← Config.qidOf rec) 0 : Handler V σ Body) :=
    fun rec => returns_bind fun _ => spares_pure trivial
  refine returns_bind fun r => returns_bind fun f => returns_found_bind rfl fun rec => ?_
  simp only
  split
  · exact returns_bind fun _ => returns_bind fun _ => returns_bind fun _ => hreply rec
  · split
    · exact returns_bind fun _ => returns_bind fun _ => hreply rec
    · exact returns_bind fun _ => returns_bind fun _ => hreply rec

theorem answers_twrite (fid offset : ℕ) (data : List UInt8) :
    Returns (Paired (.twrite fid offset data)) (cfg.twrite cid fid offset data) := by
  have hmodify : ∀ r f, Returns (Paired (.twrite fid offset data))
      (Config.twrite.readModifyWrite cfg offset data r f) :=
    fun r f => returns_bind fun _ => returns_bind fun _ => returns_bind fun _ => spares_pure trivial
  refine returns_bind fun r => returns_bind fun _ => returns_bind fun f => returns_bind fun _ =>
    returns_bind fun g => ?_
  split
  · split
    · exact returns_bind fun _ => spares_pure trivial
    · exact hmodify r f
  · exact hmodify r f

omit [DecidableEq V] in
theorem answers_treaddir (fid offset count : ℕ) :
    Returns (Paired (.treaddir fid offset count)) (cfg.treaddir cid fid offset count) := by
  have hreload : ∀ r f, Returns (Paired (.treaddir fid offset count))
      (Config.treaddir.reload cfg offset count r f) :=
    fun r f => returns_bind fun _ => returns_bind fun _ => spares_pure trivial
  refine returns_bind fun r => returns_bind fun f => ?_
  split
  · split
    · exact hreload r f
    · exact spares_pure trivial
  · exact hreload r f

/-- A handler that returns gives an answer of its request. -/
theorem answers_dispatch (body : Body) : Returns (Paired body) (cfg.dispatch cid body) := by
  have hmake : ∀ (dfid : ℕ) (name : Utf16) (c : Path → Vfs.Call) (reply : Qid → Body),
      (∀ qid, Paired body (reply qid)) →
      Returns (Paired body) (do return reply (← cfg.make cid dfid name c) : Handler V σ Body) :=
    fun _ _ _ _ hreply => returns_bind fun qid => spares_pure (hreply qid)
  have hgranted : ∀ (fid : ℕ) (reply : Body), Paired body reply →
      Returns (Paired body) (do let _ ← cfg.getFid cid fid; return reply : Handler V σ Body) :=
    fun _ _ hreply => returns_bind fun _ => spares_pure hreply
  cases body with
  | tversion msize version =>
    exact returns_bind fun c => returns_bind fun _ => returns_bind fun _ => returns_bind fun _ =>
      returns_bind fun _ => spares_pure rfl
  | tattach fid afid uname aname nUname =>
    refine returns_bind fun target => returns_found_bind rfl fun rec => ?_
    exact returns_bind fun _ => returns_bind fun _ => spares_pure trivial
  | twalk fid newfid wnames =>
    refine returns_bind fun r => returns_bind fun f => returns_bind fun result => ?_
    simp only
    split
    · exact returns_bind fun _ => spares_pure trivial
    · exact spares_pure trivial
  | tgetattr fid mask =>
    refine returns_bind fun r => returns_bind fun f => returns_found_bind rfl fun rec => ?_
    exact returns_bind fun size => returns_bind fun qid => spares_pure trivial
  | tsetattr fid valid mode uid gid size _ _ _ _ =>
    refine fun w hw => (answers_tsetattr fid valid size w hw).mono ?_ fun _ _ _ => trivial
    rintro _ _ rfl
    trivial
  | tlopen fid flags => exact answers_tlopen fid flags
  | tlcreate fid name flags mode gid =>
    refine returns_bind fun r => returns_bind fun f => returns_bind fun _ =>
      returns_bind fun _ => ?_
    exact returns_bind fun _ => returns_bind fun _ => returns_bind fun _ => returns_bind fun _ =>
      returns_bind fun _ => returns_bind fun _ => spares_pure trivial
  | tmkdir dfid name mode gid => exact hmake dfid name _ _ fun _ => trivial
  | tsymlink fid name symtgt gid => exact hmake fid name _ _ fun _ => trivial
  | treadlink fid =>
    refine returns_bind fun r => returns_bind fun f => returns_found_bind rfl fun rec => ?_
    simp only
    split
    · exact spares_pure trivial
    · exact spares_throw fun _ _ => trivial
  | tread fid offset count =>
    refine returns_bind fun r => returns_bind fun f => returns_found_bind rfl fun rec => ?_
    simp only
    split
    · exact spares_throw fun _ _ => trivial
    · exact returns_bind fun _ => spares_pure trivial
  | twrite fid offset data => exact answers_twrite fid offset data
  | treaddir fid offset count => exact answers_treaddir fid offset count
  | tclunk fid =>
    exact returns_bind fun _ => returns_bind fun _ => returns_bind fun _ => spares_pure trivial
  | tremove fid =>
    exact returns_bind fun _ => returns_bind fun _ => returns_bind fun _ => returns_bind fun _ =>
      returns_bind fun _ => spares_pure trivial
  | tunlinkat dirfid name flags =>
    exact returns_bind fun _ => returns_bind fun _ => returns_bind fun _ => returns_bind fun _ =>
      spares_pure trivial
  | trename fid dfid name =>
    refine returns_bind fun _ => returns_bind fun _ => returns_bind fun _ =>
      returns_bind fun _ => ?_
    exact returns_bind fun _ => returns_bind fun _ => returns_bind fun _ => returns_bind fun _ =>
      spares_pure trivial
  | trenameat olddirfid oldname newdirfid newname =>
    refine returns_bind fun _ => returns_bind fun _ => returns_bind fun _ =>
      returns_bind fun _ => ?_
    exact returns_bind fun _ => returns_bind fun _ => returns_bind fun _ => spares_pure trivial
  | tstatfs fid => exact hgranted fid _ trivial
  | tflush oldtag => exact spares_pure trivial
  | tfsync fid datasync =>
    refine returns_bind fun r => returns_bind fun f => ?_
    cases f.writer with
    | none => exact spares_pure trivial
    | some wr => exact returns_bind fun _ => spares_pure trivial
  | tlock fid locktype flags start length procId clientId => exact hgranted fid _ trivial
  | tgetlock fid locktype start length procId clientId => exact hgranted fid _ rfl
  | _ => exact spares_throw fun _ _ => trivial

end Handlers

/-- `handle` for an encoder that throws on some answers, such as one with a size that is
not a finite number. -/
def Config.handleThrowing (cfg : Config V σ) (thrown : Body → Option Fault) (cid : ℕ)
    (frame : List UInt8) (w : World V σ) : List UInt8 × World V σ :=
  match decode frame with
  | none => (encode ⟨some (peekTag frame), .rlerror E.inval⟩, w)
  | some m =>
    match (cfg.dispatch cid m.body).run w with
    | .ok reply w' =>
      match thrown reply with
      | none => (encode ⟨m.tag, reply⟩, w')
      | some e => (encode ⟨m.tag, .rlerror (errnoFromError e)⟩, w')
    | .error e w' => (encode ⟨m.tag, .rlerror (errnoFromError e)⟩, w')

theorem handleThrowing_none (cfg : Config V σ) (cid : ℕ) (frame : List UInt8) (w : World V σ) :
    cfg.handleThrowing (fun _ => none) cid frame w = cfg.handle cid frame w := rfl

/-- The frame that comes out has the request's tag, and a body of that kind. -/
def Disciplined (frame reply : List UInt8) : Prop :=
  ∃ m, decode reply = some m ∧ Bytes.leValue (reply.take 4) = reply.length % 2 ^ 32 ∧
    match decode frame with
    | none => m.tag = some (peekTag frame) ∧ m.body.type = .rlerror
    | some request => m.tag = request.tag ∧
      (m.body.type = .rlerror ∨ m.body.type.code = request.body.type.code + 1)

theorem peekTag_lt (frame : List UInt8) : peekTag frame < 2 ^ 16 := by
  unfold peekTag
  split
  · decide
  · refine (Bytes.leValue_lt _).trans_le (Nat.pow_le_pow_right (by decide) ?_ : 256 ^ _ ≤ 256 ^ 2)
    exact List.length_take_le ..

/-- An R message under a tag of 16 bits. -/
theorem decode_encode_tagged {t : ℕ} (ht : t < 2 ^ 16) {body : Body} (hreply : body.type.IsReply) :
    ∃ m, decode (encode ⟨some t, body⟩) = some m ∧
      Bytes.leValue ((encode ⟨some t, body⟩).take 4) = (encode ⟨some t, body⟩).length % 2 ^ 32 ∧
      m.tag = some t ∧ m.body.type = body.type := by
  obtain ⟨m, hm, htag, htype⟩ := decode_encode_reply (some t) body hreply
  rw [Option.getD_some, Nat.mod_eq_of_lt ht] at htag
  exact ⟨m, hm, by rw [encode_sizeField, encode_length], htag, htype⟩

/-- Every byte string is answered with one frame that decodes, under the request's tag,
of the paired type or an Rlerror, also when the answer cannot be encoded. -/
theorem reply_disciplined (cfg : Config V σ) (thrown : Body → Option Fault) (cid : ℕ)
    (frame : List UInt8) (w : World V σ) :
    Disciplined frame (cfg.handleThrowing thrown cid frame w).1 := by
  unfold Disciplined Config.handleThrowing
  cases hdecode : decode frame with
  | none =>
    obtain ⟨m, hm, hsize, htag, htype⟩ :=
      decode_encode_tagged (peekTag_lt frame) (isReply_rlerror E.inval)
    exact ⟨m, hm, hsize, htag, htype⟩
  | some request =>
    obtain ⟨tag, body⟩ := request
    obtain ⟨t, rfl, ht⟩ := tag_of_decode hdecode
    have herror : ∀ ecode, ∃ m, decode (encode ⟨some t, .rlerror ecode⟩) = some m ∧
        Bytes.leValue ((encode ⟨some t, .rlerror ecode⟩).take 4) =
          (encode ⟨some t, .rlerror ecode⟩).length % 2 ^ 32 ∧
        m.tag = some t ∧ (m.body.type = .rlerror ∨ m.body.type.code = body.type.code + 1) := by
      intro ecode
      obtain ⟨m, hm, hsize, htag, htype⟩ := decode_encode_tagged ht (isReply_rlerror ecode)
      exact ⟨m, hm, hsize, htag, Or.inl htype⟩
    have hreturns : Returns (Paired body) (cfg.dispatch cid body) := answers_dispatch body
    have hanswers := hreturns w trivial
    unfold Wp at hanswers
    simp only [EStateM.run]
    cases hd : cfg.dispatch cid body w with
    | error e w' => exact herror _
    | ok reply w' =>
      rw [hd] at hanswers
      simp only
      cases thrown reply with
      | some e => exact herror _
      | none =>
        obtain ⟨m, hm, hsize, htag, htype⟩ := decode_encode_tagged ht hanswers.isReply
        refine ⟨m, hm, hsize, htag, Or.inr ?_⟩
        rw [htype]
        exact hanswers.code

end NixWasm.NinepServer
