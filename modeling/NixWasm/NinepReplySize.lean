import NixWasm.NinepAnswers

/-!
How long replies are. No handler looks at the msize its connection has agreed on: a
reply is as long as its data. The size of an answer is a function of the request and of
what the server finds in its tables and backends; an Rlerror always takes 11 bytes.
-/
namespace NixWasm.NinepServer

open Unicode Vfs NinepCodec Effects Runs

variable {V σ : Type} [DecidableEq V]

/-- The bytes of a frame with this body. -/
def replySize (body : Body) : ℕ := (⟨none, body⟩ : P9Message).wireSize

/-- How many components of a walk are found, from the first on. -/
def walked (b : Backend σ) (s : σ) : Path → List Utf16 → ℕ
  | _, [] => 0
  | cur, name :: names =>
    match joinName cur name with
    | .error _ => 0
    | .ok next =>
      match b.stat s next with
      | .ok (some _) => 1 + walked b s next names
      | _ => 0

/-- The bytes of the numbered names after `offset` that fit in `count`. -/
def listed (offset count : ℕ) : ℕ → List (ℕ × Utf16) → ℕ
  | _, [] => 0
  | total, (number, name) :: rest =>
    if number ≤ offset then listed offset count total rest
    else
      let packed := 24 + (utf8Encode name).length
      if total + packed > count then 0 else packed + listed offset count (total + packed) rest

/-- The names of a directory, with "." and "..", numbered from 1. -/
def numbered (kids : List VfsRecord) : List (ℕ × Utf16) :=
  (ofString "." :: ofString ".." :: kids.map VfsRecord.name).zipIdx.map fun e => (e.2 + 1, e.1)

/-- The entries a Treaddir goes through: those the fid keeps, unless it starts again. -/
def Config.entriesOf (cfg : Config V σ) (w : World V σ) (r : Ref) (offset : ℕ) :
    List (ℕ × Utf16) :=
  let fresh :=
    match (cfg.backend (w.heap r).vfs).list (w.disk (w.heap r).vfs) (w.heap r).path with
    | .ok kids => numbered kids
    | .error _ => []
  match (w.heap r).dirents with
  | some dirents => if offset = 0 then fresh else dirents.map fun d => (d.offset, d.name)
  | none => fresh

/-- The bytes of data in the answer of a request on a fid object. -/
def Config.dataSize (cfg : Config V σ) (w : World V σ) (r : Ref) : Body → ℕ
  | .twalk _ _ wnames =>
    13 * walked (cfg.backend (w.heap r).vfs) (w.disk (w.heap r).vfs) (w.heap r).path wnames
  | .treadlink _ =>
    match (cfg.backend (w.heap r).vfs).stat (w.disk (w.heap r).vfs) (w.heap r).path with
    | .ok (some rec) => (utf8Encode (rec.target.getD [])).length
    | _ => 0
  | .tread _ offset count =>
    min count (((cfg.backend (w.heap r).vfs).readBytes (w.disk (w.heap r).vfs)
      (w.heap r).path).length - offset)
  | .treaddir _ offset count => listed offset count 0 (cfg.entriesOf w r offset)
  | _ => 0

/-- The fid a request reads its data through. -/
def readFid : Body → Option ℕ
  | .twalk fid _ _ => some fid
  | .treadlink fid => some fid
  | .tread fid _ _ => some fid
  | .treaddir fid _ _ => some fid
  | _ => none

/-- What an answer takes besides its data. -/
def headSize : Body → ℕ
  | .tversion _ version => if dotlVersion.isPrefixOf version then 21 else 20
  | .tattach .. => 20
  | .twalk .. => 9
  | .tgetattr .. => 160
  | .tlopen .. => 24
  | .tlcreate .. => 24
  | .tmkdir .. => 20
  | .tsymlink .. => 20
  | .treadlink .. => 9
  | .tread .. => 11
  | .twrite .. => 11
  | .treaddir .. => 11
  | .tstatfs .. => 67
  | .tlock .. => 8
  | .tgetlock _ _ _ _ _ clientId => 30 + (utf8Encode clientId).length
  | _ => 7

/-- The bytes of the reply to a request that does not fail. -/
def Config.answerSize (cfg : Config V σ) (w : World V σ) (cid : ℕ) (body : Body) : ℕ :=
  headSize body + (((readFid body).bind (ref w cid)).map fun r => cfg.dataSize w r body).getD 0

section Data

variable {cfg : Config V σ} {w : World V σ}

omit [DecidableEq V]

theorem packDirent_length (d : Dirent) :
    (packDirent d).length = 24 + (utf8Encode d.name).length := by
  simp [packDirent, Write.qid, Write.u8, Write.u32, Write.u64, Write.str, Write.u16]
  omega

theorem fitting_length (offset count : ℕ) (dirents : List Dirent) (total : ℕ) :
    (Config.fitting offset count total dirents).length =
      listed offset count total (dirents.map fun d => (d.offset, d.name)) := by
  induction dirents generalizing total with
  | nil => rfl
  | cons d rest ih =>
    simp only [Config.fitting, List.map_cons, listed, packDirent_length]
    split
    · exact ih total
    · split
      · rfl
      · rw [List.length_append, packDirent_length, ih]

/-- The qids of a walk are those of the components found. -/
theorem walk_length (v : V) (names : List Utf16) : ∀ (w : World V σ) (first : Bool) (cur : Path),
    Wp (cfg.walk v first cur names)
      (fun result _ => result.1.length = walked (cfg.backend v) (w.disk v) cur names)
      (fun _ _ => True) w := by
  induction names with
  | nil => exact fun _ _ _ => rfl
  | cons name names ih =>
    intro w first cur
    unfold Config.walk walked
    rw [wp_bind]
    refine wp_lift _ (fun next hnext => ?_) fun _ _ => trivial
    rw [wp_bind, hnext]
    refine wp_stat cfg v next (fun found hfound => ?_) fun _ _ => trivial
    cases found with
    | none =>
      simp only [hfound]
      rw [wp_ite]
      exact ⟨fun _ => trivial, fun _ => rfl⟩
    | some rec =>
      simp only [hfound]
      rw [wp_bind]
      refine wp_qidOf rec fun qid paths seq => ?_
      rw [wp_bind]
      refine (ih { w with qidPaths := paths, qidSeq := seq } false next).mono
        (fun result _ hr => ?_)
        fun _ _ _ => trivial
      rw [wp_pure, List.length_cons, hr, Nat.add_comm]

/-- The entries of a directory read anew. -/
theorem loadDirents_names (v : V) (dir : Path) :
    Wp (cfg.loadDirents v dir) (fun dirents _ => ∃ kids, (cfg.backend v).list (w.disk v) dir =
      .ok kids ∧
      dirents.map (fun d => (d.offset, d.name)) = numbered kids) (fun _ _ => True) w := by
  unfold Config.loadDirents
  rw [wp_bind]
  refine wp_stat cfg v dir (fun found _ => ?_) fun _ _ => trivial
  cases found with
  | none => trivial
  | some self =>
    simp only
    rw [wp_bind]
    refine wp_stat cfg v _ (fun parent _ => ?_) fun _ _ => trivial
    rw [wp_bind]
    refine wp_list cfg v dir (fun kids hkids => ?_) fun _ _ => trivial
    refine (returns_mapM (q := fun e (d : Dirent) => (d.offset, d.name) = (e.2 + 1, e.1.1))
      (fun e => ?_) _ w trivial).mono (fun dirents _ hall => ⟨kids, hkids, ?_⟩) fun _ _ _ => trivial
    · exact returns_bind fun _ => spares_pure rfl
    · have hmaps : (((ofString ".", self) :: (ofString "..", parent.getD self) ::
          kids.map fun k => (k.name, k)).zipIdx.map fun e => (e.2 + 1, e.1.1)) =
          dirents.map fun d => (d.offset, d.name) := by
        rw [← List.forall₂_eq_eq_eq, List.forall₂_map_left_iff, List.forall₂_map_right_iff]
        exact hall.imp fun _ _ heq => heq.symm
      have hnames : ofString "." :: ofString ".." :: kids.map VfsRecord.name =
          ((ofString ".", self) :: (ofString "..", parent.getD self) ::
            kids.map fun k => (k.name, k)).map Prod.fst := by
        simp
      rw [← hmaps, numbered, hnames, List.zipIdx_map, List.map_map]
      rfl

end Data

section Answers

variable {cfg : Config V σ} {w : World V σ} {cid : ℕ}

/-- The answer has the size the request and the world tell. -/
def Sizes (cfg : Config V σ) (cid : ℕ) (body : Body) (w : World V σ) : Prop :=
  Wp (cfg.dispatch cid body) (fun reply _ => replySize reply = cfg.answerSize w cid body)
    (fun _ _ => True) w

/-- An answer that carries no data of the backend. -/
theorem Paired.size {body reply : Body} (h : Paired body reply) (hread : readFid body = none) :
    replySize reply = headSize body := by
  have hdotl : (utf8Encode dotlVersion).length = 8 := by decide
  have hunknown : (utf8Encode (ofString "unknown")).length = 7 := by decide
  unfold Paired at h
  split at h
  all_goals try exact h.elim
  all_goals try cases hread
  all_goals
    simp only [replySize, P9Message.wireSize, Body.fields, Field.size, headSize, List.map_cons,
      List.map_nil, List.sum_cons, List.sum_nil]
  case h_1.refl =>
    rw [h]
    split <;> omega
  case h_23.refl =>
    rw [h]
    omega
  all_goals omega

theorem sizes_of_unread {body : Body} (hread : readFid body = none) : Sizes cfg cid body w := by
  refine (answers_dispatch body w trivial).mono (fun reply _ hpaired => ?_) fun _ _ _ => trivial
  rw [hpaired.size hread, Config.answerSize, hread]
  rfl

/-- A request that reads through a fid. -/
theorem sizes_of_fid {body : Body} {fid : ℕ} {f : Ref → Handler V σ Body}
    (hread : readFid body = some fid)
    (hdispatch : cfg.dispatch cid body = cfg.getFid cid fid >>= f)
    (h : ∀ r, Wp (f r) (fun reply _ => replySize reply = headSize body + cfg.dataSize w r body)
      (fun _ _ => True) w) : Sizes cfg cid body w := by
  unfold Sizes
  rw [hdispatch, wp_bind]
  refine wp_getFid cfg cid fid (fun r hr => ?_) fun _ => trivial
  refine (h r).mono (fun reply _ hsize => ?_) fun _ _ _ => trivial
  rw [hsize, Config.answerSize, hread, Option.bind_some, hr]
  rfl

theorem sizes_twalk (fid newfid : ℕ) (wnames : List Utf16) :
    Sizes cfg cid (.twalk fid newfid wnames) w := by
  refine sizes_of_fid rfl rfl fun r => wp_fidAt_bind ?_
  rw [wp_bind]
  refine (walk_length _ wnames w true _).mono (fun result u hlength => ?_) fun _ _ _ => trivial
  obtain ⟨qids, cur⟩ := result
  have hsize : replySize (.rwalk qids) =
      headSize (.twalk fid newfid wnames) + cfg.dataSize w r (.twalk fid newfid wnames) := by
    simp only [headSize, Config.dataSize, ← hlength]
    simp [replySize, P9Message.wireSize, Body.fields, Field.size]
    omega
  by_cases hfull : qids.length = wnames.length
  · simp only [if_pos hfull]
    rw [wp_bind]
    exact (keeps_true _ u trivial).mono (fun _ _ _ => hsize) fun _ _ _ => trivial
  · simp only [if_neg hfull]
    exact hsize

theorem sizes_treadlink (fid : ℕ) : Sizes cfg cid (.treadlink fid) w := by
  refine sizes_of_fid rfl rfl fun r => wp_fidAt_bind ?_
  rw [wp_bind]
  refine wp_stat cfg _ _ (fun found hfound => ?_) fun _ _ => trivial
  cases found with
  | none => trivial
  | some rec =>
    simp only
    rw [wp_ite]
    refine ⟨fun _ => ?_, fun _ => trivial⟩
    simp [replySize, P9Message.wireSize, Body.fields, Field.size, headSize, Config.dataSize, hfound]
    omega

theorem sizes_tread (fid offset count : ℕ) : Sizes cfg cid (.tread fid offset count) w := by
  refine sizes_of_fid rfl rfl fun r => wp_fidAt_bind ?_
  rw [wp_bind]
  refine wp_stat cfg _ _ (fun found _ => ?_) fun _ _ => trivial
  cases found with
  | none => trivial
  | some rec =>
    simp only
    rw [wp_ite]
    refine ⟨fun _ => trivial, fun _ => ?_⟩
    rw [wp_bind, wp_readBytes, wp_pure]
    simp [replySize, P9Message.wireSize, Body.fields, Field.size, headSize, Config.dataSize]
    omega

theorem sizes_treaddir (fid offset count : ℕ) : Sizes cfg cid (.treaddir fid offset count) w := by
  have hsize : ∀ (r : Ref) (dirents : List Dirent),
      dirents.map (fun d => (d.offset, d.name)) = cfg.entriesOf w r offset →
      replySize (.rreaddir (Config.fitting offset count 0 dirents)) =
        headSize (.treaddir fid offset count) + cfg.dataSize w r (.treaddir fid offset count) := by
    intro r dirents hentries
    simp only [headSize, Config.dataSize, ← hentries, ← fitting_length]
    simp [replySize, P9Message.wireSize, Body.fields, Field.size]
    omega
  refine sizes_of_fid rfl rfl fun r => wp_fidAt_bind ?_
  have hreload : ((w.heap r).dirents = none ∨ offset = 0) →
      Wp (Config.treaddir.reload cfg offset count r (w.heap r)) (fun reply _ => replySize reply =
        headSize (.treaddir fid offset count) + cfg.dataSize w r (.treaddir fid offset count))
        (fun _ _ => True) w := by
    intro hfresh
    unfold Config.treaddir.reload
    rw [wp_bind]
    refine (loadDirents_names _ _).mono (fun dirents u hdirents => ?_) fun _ _ _ => trivial
    obtain ⟨kids, hkids, hnames⟩ := hdirents
    rw [wp_bind, wp_modifyFid]
    refine hsize r dirents ?_
    rw [hnames]
    rcases hfresh with hnone | hzero
    · simp [Config.entriesOf, hnone, hkids]
    · cases hd : (w.heap r).dirents <;> simp [Config.entriesOf, hd, hzero, hkids]
  cases hd : (w.heap r).dirents with
  | none => exact hreload (Or.inl hd)
  | some dirents =>
    simp only
    rw [wp_ite]
    refine ⟨fun hzero => hreload (Or.inr hzero), fun hne => ?_⟩
    exact hsize r dirents (by simp [Config.entriesOf, hd, hne])

/-- Every answer has the size the request and the world tell. -/
theorem sizes_dispatch (body : Body) : Sizes cfg cid body w := by
  cases body with
  | twalk fid newfid wnames => exact sizes_twalk fid newfid wnames
  | treadlink fid => exact sizes_treadlink fid
  | tread fid offset count => exact sizes_tread fid offset count
  | treaddir fid offset count => exact sizes_treaddir fid offset count
  | _ => exact sizes_of_unread rfl

end Answers

section Agreed

variable {cfg : Config V σ} {w : World V σ} {cid m : ℕ}

/-- The msize a connection has agreed on. -/
def Agreed (cid m : ℕ) (w : World V σ) : Prop :=
  ∃ c, w.conns.get cid = some c ∧ c.msize = m

def IsTversion (frame : List UInt8) : Prop :=
  ∃ tag msize version, decode frame = some ⟨tag, .tversion msize version⟩

omit [DecidableEq V] in
theorem Agreed.set_of_ne (h : Agreed cid m w) {cid' : ℕ} (hne : cid ≠ cid') (c : Conn) :
    Agreed cid m { w with conns := w.conns.set cid' c } := by
  obtain ⟨c₀, hc₀, hm⟩ := h
  exact ⟨c₀, (JsMap.get_set_of_ne _ _ hne).trans hc₀, hm⟩

omit [DecidableEq V] in
/-- Other fids in a connection leave its msize. -/
theorem Agreed.set_fids (h : Agreed cid m w) {cid' : ℕ} {c : Conn}
    (hc : w.conns.get cid' = some c) (fids : JsMap ℕ Ref) :
    Agreed cid m { w with conns := w.conns.set cid' { c with fids := fids } } := by
  by_cases heq : cid = cid'
  · subst heq
    obtain ⟨c₀, hc₀, hm⟩ := h
    cases hc₀.symm.trans hc
    exact ⟨_, JsMap.get_set_self .., hm⟩
  · exact h.set_of_ne heq _

theorem permits_agreed (cid' : ℕ) : Permits cfg cid' (fun _ => True) (Agreed cid m) where
  intern _ _ h _ := h
  disk _ _ _ h := h
  fid _ _ _ _ h := h
  owners _ _ _ _ _ h := h
  bound _ _ _ _ _ _ := trivial
  touch w h hnone := by
    refine h.set_of_ne ?_ _
    rintro rfl
    obtain ⟨c, hc, -⟩ := h
    rw [hc] at hnone
    cases hnone
  bind w c fid f h hc := h.set_fids hc _
  unbind w c fid h hc := h.set_fids hc _

/-- Only a Tversion on the connection moves its msize. -/
theorem Agreed.serve (h : Agreed cid m w) (request : ℕ × List UInt8)
    (hother : request.1 = cid → ¬ IsTversion request.2) : Agreed cid m (cfg.serve w request) := by
  obtain ⟨cid', frame⟩ := request
  refine (permits_agreed cid').serve h frame (fun _ _ _ _ _ _ _ => trivial)
    fun tag msize version hdecode => ?_
  have hne : cid ≠ cid' := by
    rintro rfl
    exact hother rfl ⟨tag, msize, version, hdecode⟩
  exact (permits_agreed cid').tversion (fun _ c hu => hu.set_of_ne hne c) (fun _ _ hu => hu) h
    msize version

theorem agreed_run (h : Agreed cid m w) (requests : List (ℕ × List UInt8))
    (hother : ∀ request ∈ requests, request.1 = cid → ¬ IsTversion request.2) :
    Agreed cid m (run cfg.serve w requests) := by
  induction requests generalizing w with
  | nil => exact h
  | cons request requests ih =>
    refine ih (h.serve request (hother request List.mem_cons_self)) fun request' hmem => ?_
    exact hother request' (List.mem_cons_of_mem _ hmem)

/-- The msize a Tversion reports is the one the connection has from then on. -/
theorem agreed_of_tversion {msize : ℕ} {version ver : Utf16} {w' : World V σ}
    (h : cfg.dispatch cid (.tversion msize version) w = .ok (.rversion m ver) w') :
    Agreed cid m w' := by
  have hwp : Wp (cfg.tversion cid msize version)
      (fun reply u => ∀ m ver, reply = .rversion m ver → Agreed cid m u) (fun _ _ => True) w := by
    unfold Config.tversion
    rw [wp_bind]
    refine wp_conn cfg cid fun c _ _ _ => ?_
    rw [wp_bind, wp_setConn, wp_bind]
    refine (keeps_true _ _ trivial).mono (fun _ u _ => ?_) fun _ _ _ => trivial
    rw [wp_bind, wp_setConn, wp_bind, wp_modify, wp_pure]
    rintro m ver heq
    cases heq
    exact ⟨_, JsMap.get_set_self .., rfl⟩
  change cfg.tversion cid msize version w = _ at h
  unfold Wp at hwp
  rw [h] at hwp
  exact hwp m ver rfl

end Agreed

section Replies

theorem encode_replySize (tag : Option ℕ) (body : Body) :
    (encode ⟨tag, body⟩).length = replySize body :=
  encode_length ⟨tag, body⟩

theorem length_of_isRlerror {reply : List UInt8} (h : IsRlerror reply) : reply.length = 11 := by
  obtain ⟨tag, ecode, rfl⟩ := h
  rw [encode_replySize]
  rfl

/-- A reply is an Rlerror or has the size of the answer. -/
theorem reply_length (cfg : Config V σ) (w : World V σ) (cid : ℕ) (frame : List UInt8) :
    IsRlerror (cfg.handle cid frame w).1 ∨ ∃ tag body, decode frame = some ⟨tag, body⟩ ∧
      (cfg.handle cid frame w).1.length = cfg.answerSize w cid body := by
  unfold Config.handle
  cases hdecode : decode frame with
  | none => exact Or.inl ⟨_, _, rfl⟩
  | some message =>
    obtain ⟨tag, body⟩ := message
    have hsizes : Sizes cfg cid body w := sizes_dispatch body
    unfold Sizes Wp at hsizes
    simp only [EStateM.run]
    cases hd : cfg.dispatch cid body w with
    | ok reply w' =>
      rw [hd] at hsizes
      refine Or.inr ⟨tag, body, rfl, ?_⟩
      rw [encode_replySize]
      exact hsizes
    | error e w' => exact Or.inl ⟨tag, _, rfl⟩

/-- After a Tversion that agreed on an msize, and until the next one on the connection, a
reply fits if the msize has room for an Rlerror and for the answer with its data. An
answer fits exactly when it does, and an Rlerror when 11 bytes do. -/
theorem reply_fits_agreed_msize (cfg : Config V σ) (w w₁ w₂ : World V σ)
    (before between : List (ℕ × List UInt8)) (cid : ℕ) (vframe : List UInt8) (vtag : Option ℕ)
    (msize m : ℕ) (version ver : Utf16)
    (hvframe : decode vframe = some ⟨vtag, .tversion msize version⟩)
    (hversion : cfg.dispatch cid (.tversion msize version) (run cfg.serve w before) =
      .ok (.rversion m ver) w₁)
    (hbetween : ∀ request ∈ between, request.1 = cid → ¬ IsTversion request.2)
    (hw₂ : run cfg.serve w (before ++ [(cid, vframe)] ++ between) = w₂) (frame : List UInt8) :
    Agreed cid m w₂ ∧
      (11 ≤ m → (∀ tag body, decode frame = some ⟨tag, body⟩ → cfg.answerSize w₂ cid body ≤ m) →
        (cfg.handle cid frame w₂).1.length ≤ m) ∧
      (∀ tag body, decode frame = some ⟨tag, body⟩ → ¬ IsRlerror (cfg.handle cid frame w₂).1 →
        ((cfg.handle cid frame w₂).1.length ≤ m ↔ cfg.answerSize w₂ cid body ≤ m)) ∧
      (IsRlerror (cfg.handle cid frame w₂).1 →
        ((cfg.handle cid frame w₂).1.length ≤ m ↔ 11 ≤ m)) := by
  have hserve : cfg.serve (run cfg.serve w before) (cid, vframe) = w₁ := by
    simp only [Config.serve, Config.handle, hvframe, EStateM.run, hversion]
  refine ⟨?_, ?_, ?_, ?_⟩
  · rw [← hw₂, run_append, run_append, run_cons, run_nil, hserve]
    exact agreed_run (agreed_of_tversion hversion) between hbetween
  · intro hm hfits
    rcases reply_length cfg w₂ cid frame with herror | ⟨tag, body, hdecode, hlength⟩
    · rwa [length_of_isRlerror herror]
    · rw [hlength]
      exact hfits tag body hdecode
  · intro tag body hdecode hanswer
    rcases reply_length cfg w₂ cid frame with herror | ⟨tag', body', hdecode', hlength⟩
    · exact absurd herror hanswer
    · cases hdecode.symm.trans hdecode'
      rw [hlength]
  · intro herror
    rw [length_of_isRlerror herror]

/-- A connection agrees on 32 bytes and reads a file of 40. -/
def smallRun : List (ℕ × List UInt8) :=
  [frame (.tattach 0 0xffffffff (ofString "u") (ofString "/") 0), frame (.twalk 0 1 []),
    frame (.tlcreate 1 (ofString "a") 0 0o644 0), frame (.twrite 1 0 (List.replicate 40 0x78)),
    frame (.tfsync 1 0)]

/-- The world after the version exchange and the writes. -/
def smallWorld : World Unit Directory :=
  run oneDirectory.serve emptyWorld ([] ++ [frame (.tversion 32 dotlVersion)] ++ smallRun)

theorem not_isTversion {frame : List UInt8}
    (h : (decode frame).map (fun m => m.body.type) ≠ some .tversion) : ¬ IsTversion frame := by
  rintro ⟨tag, msize, version, hdecode⟩
  rw [hdecode] at h
  exact h rfl

/-- Reading 8 bytes fits. -/
theorem reply_fits_small_read :
    Agreed 0 32 smallWorld ∧
      (oneDirectory.handle 0 (frame (.tread 1 0 8)).2 smallWorld).1.length ≤ 32 := by
  have hother : ∀ request ∈ smallRun,
      (decode request.2).map (fun m => m.body.type) ≠ some .tversion := by
    decide +kernel
  have hfits := reply_fits_agreed_msize oneDirectory emptyWorld
    (oneDirectory.serve emptyWorld (frame (.tversion 32 dotlVersion))) smallWorld [] smallRun 0
    (frame (.tversion 32 dotlVersion)).2 (some 1) 32 32 dotlVersion dotlVersion
    (by decide +kernel) rfl (fun request hmem _ => not_isTversion (hother request hmem)) rfl
    (frame (.tread 1 0 8)).2
  refine ⟨hfits.1, hfits.2.1 (by decide) fun tag body hdecode => ?_⟩
  have hframe : decode (frame (.tread 1 0 8)).2 = some ⟨some 1, .tread 1 0 8⟩ := by decide +kernel
  cases hdecode.symm.trans hframe
  decide +kernel

/-- Reading the whole file, and listing the directory, do not. -/
theorem reply_exceeds_agreed_msize :
    Agreed 0 32 smallWorld ∧
      (oneDirectory.handle 0 (frame (.tread 1 0 40)).2 smallWorld).1.length = 51 ∧
      (oneDirectory.handle 0 (frame (.treaddir 0 0 4096)).2 smallWorld).1.length = 87 ∧
      ¬ (oneDirectory.handle 0 (frame (.tread 1 0 40)).2 smallWorld).1.length ≤ 32 := by
  refine ⟨⟨⟨32, _⟩, rfl, rfl⟩, ?_, ?_, ?_⟩ <;> decide +kernel

end Replies

end NixWasm.NinepServer
