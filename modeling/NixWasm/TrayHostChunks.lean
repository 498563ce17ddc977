import NixWasm.TrayHostFrames

/-!
The host's stream in chunks. The bytes that are left after a round begin a frame that is not
complete, and a frame is never longer than the buffer has room for, so that a round always
leaves free space. Draining what is left together with the next chunk continues the draining
of the whole stream.
-/
namespace NixWasm.TrayHost

open ByteStore

section Drain

theorem read32_isSome {bytes : List UInt8} (h : 4 ≤ bytes.length) :
    ∃ length, read32 bytes 0 = some length :=
  Option.isSome_iff_exists.mp (@field_isSome bytes 0 4 (by omega))

/-- The length in front does not depend on what is behind it. -/
theorem read32_append {a : List UInt8} (b : List UInt8) (h : 4 ≤ a.length) :
    read32 (a ++ b) 0 = read32 a 0 := by
  unfold read32 field load
  rw [if_pos (by rw [List.length_append]; omega), if_pos (by omega), List.drop_zero,
    List.drop_zero, List.take_append_of_le_length h]

theorem drain_short {input : List UInt8} (h : input.length < 4) :
    drain input = some ⟨[], 0, some input⟩ := by
  rw [drain, if_neg (by omega)]

theorem drain_overlong {input : List UInt8} {length : ℕ} (h : 4 ≤ input.length)
    (hlength : read32 input 0 = some length) (hover : 13 + maxId < length) :
    drain input = some ⟨[], 0, none⟩ := by
  rw [drain, if_pos h, hlength]
  exact if_pos hover

theorem drain_incomplete {input : List UInt8} {length : ℕ} (h : 4 ≤ input.length)
    (hlength : read32 input 0 = some length) (hfits : ¬ 13 + maxId < length)
    (hpart : input.length < 4 + length) : drain input = some ⟨[], 0, some input⟩ := by
  rw [drain, if_pos h, hlength]
  dsimp only
  rw [if_neg hfits, if_pos hpart]

theorem drain_frame {input : List UInt8} {length : ℕ} {actions : List Action}
    (h : 4 + length ≤ input.length) (hlength : read32 input 0 = some length)
    (hfits : ¬ 13 + maxId < length)
    (hactions : frameActions ((input.drop 4).take length) = some actions) :
    drain input = (drain (input.drop (4 + length))).map (Drained.after actions) := by
  rw [drain, if_pos (by omega), hlength]
  dsimp only
  rw [if_neg hfits, if_neg (by omega), hactions]

/-- How the loop goes on: it stops before an incomplete frame, it closes the connection, or
it takes a frame. -/
theorem drain_cases (input : List UInt8) :
    (drain input = some ⟨[], 0, some input⟩ ∧ input.length < 4 + (13 + maxId)) ∨
    (∃ length, 4 ≤ input.length ∧ read32 input 0 = some length ∧ 13 + maxId < length) ∨
    ∃ length actions, 4 + length ≤ input.length ∧ read32 input 0 = some length ∧
      ¬ 13 + maxId < length ∧
      frameActions ((input.drop 4).take length) = some actions := by
  by_cases hshort : input.length < 4
  · exact Or.inl ⟨drain_short hshort, by omega⟩
  · obtain ⟨length, hlength⟩ := read32_isSome (Nat.not_lt.mp hshort)
    by_cases hover : 13 + maxId < length
    · exact Or.inr (Or.inl ⟨length, Nat.not_lt.mp hshort, hlength, hover⟩)
    · by_cases hpart : input.length < 4 + length
      · exact Or.inl ⟨drain_incomplete (Nat.not_lt.mp hshort) hlength hover hpart, by omega⟩
      · obtain ⟨actions, hactions⟩ := frameActions_isSome ((input.drop 4).take length)
        exact Or.inr (Or.inr ⟨length, actions, Nat.not_lt.mp hpart, hlength, hover, hactions⟩)

/-- The loop ends with no read past a body, and what is left is no complete frame. -/
theorem drain_ends (input : List UInt8) :
    ∃ d, drain input = some d ∧ ∀ rest, d.rest = some rest → rest.length < 4 + (13 + maxId) := by
  induction hn : input.length using Nat.strong_induction_on generalizing input with
  | _ n ih =>
    rcases drain_cases input with ⟨hdrain, hsmall⟩ | ⟨length, hfour, hlength, hover⟩ |
      ⟨length, actions, hlong, hlength, hfits, hactions⟩
    · exact ⟨_, hdrain, fun rest hrest => Option.some.inj hrest ▸ hsmall⟩
    · exact ⟨_, drain_overlong hfour hlength hover, fun rest hrest => nomatch hrest⟩
    · obtain ⟨d, hd, hrest⟩ := ih (input.drop (4 + length)).length
        (by rw [List.length_drop]; omega) (input.drop (4 + length)) rfl
      exact ⟨d.after actions, by rw [drain_frame hlong hlength hfits hactions, hd]; rfl, hrest⟩

/-- What follows the bytes that are left. -/
def Drained.andThen (d e : Drained) : Drained :=
  ⟨d.actions ++ e.actions, d.frames + e.frames, e.rest⟩

/-- More bytes behind a stream change nothing when it closed the connection, and are drained
behind what was left of it otherwise. -/
theorem drain_append (a b : List UInt8) {d : Drained} (hd : drain a = some d) :
    drain (a ++ b) = match d.rest with
      | none => some d
      | some rest => (drain (rest ++ b)).map d.andThen := by
  induction hn : a.length using Nat.strong_induction_on generalizing a d with
  | _ n ih =>
    rcases drain_cases a with ⟨hdrain, -⟩ | ⟨length, hfour, hlength, hover⟩ |
      ⟨length, actions, hlong, hlength, hfits, hactions⟩
    · obtain rfl := Option.some.inj (hd.symm.trans hdrain)
      obtain ⟨e, he, -⟩ := drain_ends (a ++ b)
      change _ = (drain (a ++ b)).map _
      rw [he]
      simp [Drained.andThen]
    · obtain rfl := Option.some.inj (hd.symm.trans (drain_overlong hfour hlength hover))
      exact drain_overlong (by rw [List.length_append]; omega)
        (by rw [read32_append b hfour, hlength]) hover
    · obtain ⟨e, he, -⟩ := drain_ends (a.drop (4 + length))
      have hframe := drain_frame hlong hlength hfits hactions
      rw [he] at hframe
      obtain rfl := Option.some.inj (hd.symm.trans hframe)
      have hbody : ((a ++ b).drop 4).take length = (a.drop 4).take length := by
        rw [List.drop_append_of_le_length (by omega),
          List.take_append_of_le_length (by rw [List.length_drop]; omega)]
      have hnext := ih (a.drop (4 + length)).length (by rw [List.length_drop]; omega)
        (a.drop (4 + length)) he rfl
      rw [drain_frame (by rw [List.length_append]; omega)
        (by rw [read32_append b (by omega), hlength]) hfits (by rw [hbody, hactions]),
        List.drop_append_of_le_length hlong, hnext]
      dsimp only [Drained.after]
      cases hrest : e.rest with
      | none => simp [Drained.after, hrest]
      | some rest =>
        obtain ⟨f, hf, -⟩ := drain_ends (rest ++ b)
        dsimp only
        rw [hf]
        simp [Drained.andThen, Drained.after]
        omega

end Drain

section Runs

/-- The connection has done what draining the stream does. -/
structure Follows (stream : List UInt8) (host : Host) (whole : Drained) : Prop where
  drained : drain stream = some whole
  actions : host.actions = whole.actions
  frames : host.frames = whole.frames
  isOpen : host.isOpen = whole.rest.isSome
  input : host.input = whole.rest.getD []

theorem follows_connected : Follows [] .connected ⟨[], 0, some []⟩ :=
  ⟨drain_short (by decide), rfl, rfl, rfl, rfl⟩

/-- The bytes that are left are fewer than those of a longest frame. -/
theorem Follows.input_small {stream : List UInt8} {host : Host} {whole : Drained}
    (h : Follows stream host whole) : host.input.length < 4 + (13 + maxId) := by
  obtain ⟨d, hd, hrest⟩ := drain_ends stream
  obtain rfl := Option.some.inj (hd.symm.trans h.drained)
  rw [h.input]
  cases hsome : d.rest with
  | none => decide
  | some rest => exact hrest rest hsome

/-- There is always free space in the buffer: a longest frame fits into it. -/
theorem Follows.input_free {stream : List UInt8} {host : Host} {whole : Drained}
    (h : Follows stream host whole) : 0 < inputSize - host.input.length := by
  have hsmall := h.input_small
  have hfits : 4 + (13 + maxId) ≤ inputSize := by decide
  omega

theorem follows_received {stream : List UInt8} {host : Host} {whole : Drained}
    (h : Follows stream host whole) (chunk : List UInt8) :
    ∃ next whole', hostInputReady host (.received chunk) = some next ∧
      Follows (stream ++ chunk) next whole' := by
  have happend := drain_append stream chunk h.drained
  unfold hostInputReady
  cases hsome : whole.rest with
  | none =>
    rw [hsome] at happend
    have hclosed : host.isOpen = false := by rw [h.isOpen, hsome]; rfl
    rw [if_neg (by rw [hclosed]; decide)]
    exact ⟨host, whole, rfl, happend, h.actions, h.frames, h.isOpen, h.input⟩
  | some rest =>
    rw [hsome] at happend
    have hinput : host.input = rest := by rw [h.input, hsome]; rfl
    obtain ⟨d, hd, -⟩ := drain_ends (rest ++ chunk)
    dsimp only at happend ⊢
    rw [if_pos (by rw [h.isOpen, hsome]; rfl), hinput, hd]
    rw [hd] at happend
    refine ⟨host.absorb d, whole.andThen d, rfl, happend, ?_, ?_, ?_, ?_⟩ <;>
      cases hrest : d.rest <;>
      simp [Host.absorb, Host.closed, Drained.andThen, hrest, h.actions, h.frames, h.isOpen,
        hsome]

theorem follows_receive (chunks : List (List UInt8)) {stream : List UInt8} {host : Host}
    {whole : Drained} (h : Follows stream host whole) :
    ∃ last whole', receive host chunks = some last ∧
      Follows (stream ++ chunks.flatten) last whole' := by
  induction chunks generalizing stream host whole with
  | nil => exact ⟨host, whole, rfl, by simpa using h⟩
  | cons chunk chunks ih =>
    obtain ⟨next, whole', hstep, hnext⟩ := follows_received h chunk
    obtain ⟨last, whole'', hrest, hlast⟩ := ih hnext
    refine ⟨last, whole'', by rw [receive, hstep]; exact hrest, ?_⟩
    rwa [List.flatten_cons, ← List.append_assoc]

theorem chunked_append {before after : List (List UInt8)} {host mid : Host}
    (h : Chunked host (before ++ after)) (hmid : receive host before = some mid) :
    Chunked mid after := by
  induction before generalizing host with
  | nil =>
    obtain rfl := Option.some.inj hmid
    exact h
  | cons chunk before ih =>
    rw [receive] at hmid
    obtain ⟨next, hnext, hrest⟩ := Option.bind_eq_some_iff.mp hmid
    exact ih (h.2 next hnext) hrest

/-- Chunks that fit beside the longest rest are always ones that can be received. -/
theorem chunked_of_small {chunks : List (List UInt8)} {stream : List UInt8} {host : Host}
    {whole : Drained} (h : Follows stream host whole)
    (hsmall : ∀ chunk ∈ chunks, 0 < chunk.length ∧ chunk.length ≤ 816) : Chunked host chunks := by
  induction chunks generalizing stream host whole with
  | nil => trivial
  | cons chunk chunks ih =>
    have hinput := h.input_small
    have hchunk := hsmall chunk (List.mem_cons_self ..)
    refine ⟨fun _ => ⟨hchunk.1, ?_⟩, fun next hnext => ?_⟩
    · change host.input.length < 4 + (13 + 192) at hinput
      change chunk.length ≤ 1024 - host.input.length
      omega
    · obtain ⟨next', whole', hstep, hfollows⟩ := follows_received h chunk
      obtain rfl := Option.some.inj (hnext.symm.trans hstep)
      exact ih hfollows fun c hc => hsmall c (List.mem_cons_of_mem chunk hc)

end Runs

/-- However the host's stream is cut into chunks, the connection does what the stream as a
whole asks for, with no read past a body. Before every chunk and behind the last one an open
connection has free space for the next `recv`, and a chunk that comes fits into it. -/
theorem chunking_independent (chunks : List (List UInt8)) (hchunked : Chunked .connected chunks) :
    (∃ last whole, receive .connected chunks = some last ∧ drain chunks.flatten = some whole ∧
      last.actions = whole.actions ∧ last.frames = whole.frames ∧
      last.isOpen = whole.rest.isSome) ∧
    ∀ before after, chunks = before ++ after →
      ∃ mid, receive .connected before = some mid ∧ (mid.isOpen = true →
        0 < inputSize - mid.input.length ∧
        ∀ chunk ∈ after.head?, mid.input.length + chunk.length ≤ inputSize) := by
  constructor
  · obtain ⟨last, whole, hlast, hfollows⟩ := follows_receive chunks follows_connected
    rw [List.nil_append] at hfollows
    exact ⟨last, whole, hlast, hfollows.drained, hfollows.actions, hfollows.frames,
      hfollows.isOpen⟩
  · intro before after hsplit
    subst hsplit
    obtain ⟨mid, whole, hmid, hfollows⟩ := follows_receive before follows_connected
    have hfree := hfollows.input_free
    refine ⟨mid, hmid, fun hopen => ⟨hfree, fun chunk hhead => ?_⟩⟩
    have hrest := chunked_append hchunked hmid
    obtain ⟨after', rfl⟩ : ∃ after', after = chunk :: after' :=
      List.head?_eq_some_iff.mp hhead
    have hroom := (hrest.1 hopen).2
    omega

/-- A frame that closes a notification, cut in its length and in its body, and then a length
that is too long. -/
theorem chunking_independent_notice :
    (∃ last whole,
      receive .connected [[10, 0], [0, 0, 71, 1, 6, 9, 0], [0, 0, 2, 0, 0, 255], [255, 255, 255]] =
        some last ∧
      drain [10, 0, 0, 0, 71, 1, 6, 9, 0, 0, 0, 2, 0, 0, 255, 255, 255, 255] = some whole ∧
      last.actions = whole.actions ∧ last.frames = whole.frames ∧
      last.isOpen = whole.rest.isSome) ∧
    ∃ mid, receive .connected [[10, 0], [0, 0, 71, 1, 6, 9, 0]] = some mid ∧
      (mid.isOpen = true → 0 < inputSize - mid.input.length ∧ mid.input.length + 6 ≤ inputSize) :=
  have hnotice := chunking_independent
    [[10, 0], [0, 0, 71, 1, 6, 9, 0], [0, 0, 2, 0, 0, 255], [255, 255, 255]]
    (chunked_of_small follows_connected (by decide))
  have ⟨mid, hmid, hroom⟩ := hnotice.2 [[10, 0], [0, 0, 71, 1, 6, 9, 0]]
    [[0, 0, 2, 0, 0, 255], [255, 255, 255]] rfl
  ⟨hnotice.1, mid, hmid, fun hopen => ⟨(hroom hopen).1, (hroom hopen).2 _ rfl⟩⟩

end NixWasm.TrayHost
