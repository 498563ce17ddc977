import NixWasm.NinepCodec
import Mathlib.Tactic.CasesM

/-!
Round trip of the 9P codec. Every field of a message within its wire width is read
back by the reader of the same kind, except that a string comes back as decoded:
without a leading byte order mark and with lone surrogates replaced. The size field
is the frame length as long as the frame is under 4 GiB.
-/
namespace NixWasm.NinepCodec

open Bytes Bytes.Reader Unicode

def Qid.InWire (q : Qid) : Prop := q.type < 2 ^ 8 ∧ q.version < 2 ^ 32 ∧ q.path < 2 ^ 53

/-- The value fits the width of its field; 64-bit values stay exact as numbers. -/
def Field.InWire : Field → Prop
  | .u8 v => v < 2 ^ 8
  | .u16 v => v < 2 ^ 16
  | .u32 v => v < 2 ^ 32
  | .u64 v => v < 2 ^ 53
  | .str s => (utf8Encode s).length < 2 ^ 16
  | .qid q => q.InWire
  | .data b => b.length < 2 ^ 32
  | .wnames v => v.length < 2 ^ 16 ∧ ∀ s ∈ v, (utf8Encode s).length < 2 ^ 16
  | .qids v => v.length < 2 ^ 16 ∧ ∀ q ∈ v, q.InWire

instance (q : Qid) : Decidable q.InWire :=
  inferInstanceAs (Decidable (_ ∧ _ ∧ _))

instance : (f : Field) → Decidable f.InWire
  | .u8 v => inferInstanceAs (Decidable (v < 2 ^ 8))
  | .u16 v => inferInstanceAs (Decidable (v < 2 ^ 16))
  | .u32 v => inferInstanceAs (Decidable (v < 2 ^ 32))
  | .u64 v => inferInstanceAs (Decidable (v < 2 ^ 53))
  | .str s => inferInstanceAs (Decidable ((utf8Encode s).length < 2 ^ 16))
  | .qid q => inferInstanceAs (Decidable q.InWire)
  | .data b => inferInstanceAs (Decidable (b.length < 2 ^ 32))
  | .wnames v => inferInstanceAs (Decidable
      (v.length < 2 ^ 16 ∧ ∀ s ∈ v, (utf8Encode s).length < 2 ^ 16))
  | .qids v => inferInstanceAs (Decidable (v.length < 2 ^ 16 ∧ ∀ q ∈ v, q.InWire))

def Field.strings : Field → List Utf16
  | .str s => [s]
  | .wnames v => v
  | _ => []

/-- Bytes a field takes on the wire. -/
def Field.size : Field → ℕ
  | .u8 _ => 1
  | .u16 _ => 2
  | .u32 _ => 4
  | .u64 _ => 8
  | .str s => 2 + (utf8Encode s).length
  | .qid _ => 13
  | .data b => 4 + b.length
  | .wnames v => 2 + (v.map fun s => 2 + (utf8Encode s).length).sum
  | .qids v => 2 + 13 * v.length

/-- Each field fits; the tag is a field of its own, and need not be there. -/
def P9Message.InWire (m : P9Message) : Prop :=
  (∀ t ∈ m.tag, t < 2 ^ 16) ∧ ∀ f ∈ m.body.fields, f.InWire

def P9Message.strings (m : P9Message) : List Utf16 := m.body.fields.flatMap Field.strings

/-- size[4] type[1] tag[2] and the fields. -/
def P9Message.wireSize (m : P9Message) : ℕ := 7 + (m.body.fields.map Field.size).sum

theorem ofCode_code (t : P9) : P9.ofCode t.code = some t := by
  cases t <;> rfl

theorem code_lt (t : P9) : t.code < 2 ^ 8 := by
  cases t <;> decide

theorem toNumber_exact (v : ℕ) (h : v < 2 ^ 53) : toNumber v = v := by
  simp only [toNumber, h, if_true]

theorem reads_u8 (v : ℕ) (h : v < 2 ^ 8) : Reads Read.u8 (Write.u8 v) v :=
  reads_le 1 v h

theorem reads_u16 (v : ℕ) (h : v < 2 ^ 16) : Reads Read.u16 (Write.u16 v) v :=
  reads_le 2 v h

theorem reads_u32 (v : ℕ) (h : v < 2 ^ 32) : Reads Read.u32 (Write.u32 v) v :=
  reads_le 4 v h

theorem reads_u64 (v : ℕ) (h : v < 2 ^ 53) : Reads Read.u64 (Write.u64 v) v := by
  have hread := reads_map toNumber (reads_le 8 v (h.trans (by decide)))
  rwa [toNumber_exact v h] at hread

theorem reads_str (s : Utf16) (h : (utf8Encode s).length < 2 ^ 16) :
    Reads Read.str (Write.str s) (utf8Decode (utf8Encode s)) :=
  reads_bind (reads_u16 _ h) (reads_map utf8Decode (reads_upTo _))

theorem reads_qid (q : Qid) (h : q.InWire) : Reads Read.qid (Write.qid q) q :=
  reads_bind (reads_u8 q.type h.1)
    (reads_bind (reads_u32 q.version h.2.1) (reads_last (reads_u64 q.path h.2.2)))

theorem reads_data (b : List UInt8) (h : b.length < 2 ^ 32) :
    Reads Read.data (Write.data b) b :=
  reads_bind (reads_u32 _ h) (reads_upTo b)

theorem reads_wnames (v : List Utf16) (h : v.length < 2 ^ 16)
    (hs : ∀ s ∈ v, (utf8Encode s).length < 2 ^ 16) :
    Reads Read.wnames (Write.wnames v) (v.map fun s => utf8Decode (utf8Encode s)) :=
  reads_bind (reads_u16 _ h)
    (reads_items Read.str Write.str _ v fun s hmem => reads_str s (hs s hmem))

theorem reads_qids (v : List Qid) (h : v.length < 2 ^ 16) (hq : ∀ q ∈ v, q.InWire) :
    Reads Read.qids (Write.qids v) v := by
  have hitems := reads_items Read.qid Write.qid id v fun q hmem => reads_qid q (hq q hmem)
  rw [List.map_id] at hitems
  exact reads_bind (reads_u16 _ h) hitems

theorem map_decode_encode_eq_iff (v : List Utf16) :
    (v.map fun s => utf8Decode (utf8Encode s)) = v ↔ ∀ s ∈ v, Faithful s := by
  have hmap := List.map_eq_map_iff (f := fun s => utf8Decode (utf8Encode s)) (g := id) (l := v)
  simpa only [List.map_id, id, utf8Decode_utf8Encode_eq_iff] using hmap

section
-- otherwise every failed attempt below unfolds the readers
attribute [local irreducible] Read.u8 Read.u16 Read.u32 Read.u64 Read.str Read.qid Read.data
  Read.wnames Read.qids

/-- Each body is read back by its own case of `decode`, up to its strings. -/
theorem reads_decodeBody (body : Body) (h : ∀ f ∈ body.fields, f.InWire) :
    ∃ decoded, Reads (decodeBody body.type) (body.fields.flatMap Field.write) decoded ∧
      (decoded = body ↔ ∀ s ∈ body.fields.flatMap Field.strings, Faithful s) := by
  cases body
  all_goals
    simp only [Body.fields, Field.InWire, List.mem_cons, List.not_mem_nil, or_false,
      forall_eq_or_imp, forall_eq] at h
    simp only [Body.fields, Body.type, decodeBody, List.flatMap_cons, List.flatMap_nil,
      Field.write, Field.strings, List.append_nil, List.nil_append]
    refine ⟨?_, ?_, ?_⟩
    on_goal 2 =>
      try casesm* _ ∧ _
      repeat
        first
        | exact reads_pure _
        | refine reads_bind (reads_u32 _ ‹_›) ?_
        | refine reads_bind (reads_u64 _ ‹_›) ?_
        | refine reads_bind (reads_str _ ‹_›) ?_
        | refine reads_bind (reads_qid _ ‹_›) ?_
        | refine reads_bind (reads_u8 _ ‹_›) ?_
        | exact reads_last (reads_u32 _ ‹_›)
        | exact reads_last (reads_u64 _ ‹_›)
        | exact reads_last (reads_str _ ‹_›)
        | exact reads_last (reads_qid _ ‹_›)
        | exact reads_last (reads_data _ ‹_›)
        | exact reads_last (reads_u8 _ ‹_›)
        | exact reads_last (reads_u16 _ ‹_›)
        | exact reads_last (reads_wnames _ ‹_› ‹_›)
        | exact reads_last (reads_qids _ ‹_› ‹_›)
    on_goal -1 => simp [utf8Decode_utf8Encode_eq_iff, map_decode_encode_eq_iff]

end

theorem write_length (f : Field) : f.write.length = f.size := by
  cases f with
  | u8 v => simp [Field.write, Field.size, Write.u8]
  | u16 v => simp [Field.write, Field.size, Write.u16]
  | u32 v => simp [Field.write, Field.size, Write.u32]
  | u64 v => simp [Field.write, Field.size, Write.u64]
  | str s => simp [Field.write, Field.size, Write.str, Write.u16]
  | qid q => simp [Field.write, Field.size, Write.qid, Write.u8, Write.u32, Write.u64]
  | data b => simp [Field.write, Field.size, Write.data, Write.u32]
  | wnames v => simp [Field.write, Field.size, Write.wnames, Write.str, Write.u16,
      List.length_flatMap]
  | qids v => simp [Field.write, Field.size, Write.qids, Write.qid, Write.u8, Write.u16,
      Write.u32, Write.u64, List.length_flatMap, Nat.mul_comm]

theorem flatMap_write_length (fields : List Field) :
    (fields.flatMap Field.write).length = (fields.map Field.size).sum := by
  rw [List.length_flatMap]
  exact congrArg List.sum (List.map_congr_left fun f _ => write_length f)

/-- The patched frame: its length goes where the placeholder was. -/
theorem encode_eq (m : P9Message) :
    encode m = Write.u32 m.wireSize ++ (Write.u8 m.body.type.code ++
      (Write.u16 (m.tag.getD 0) ++ m.body.fields.flatMap Field.write)) := by
  have hlength : (Write.u32 0 ++ (Write.u8 m.body.type.code ++ (Write.u16 (m.tag.getD 0) ++
      m.body.fields.flatMap Field.write))).length = m.wireSize := by
    simp only [List.length_append, flatMap_write_length, Write.u32, Write.u8, Write.u16,
      leBytes_length, P9Message.wireSize]
    omega
  have hplaceholder : (Write.u32 0).length = 4 := leBytes_length 4 0
  unfold encode Write.patchU32
  simp only [hlength, List.take_zero, List.nil_append, Nat.zero_add]
  rw [List.drop_left' hplaceholder]

theorem encode_length (m : P9Message) : (encode m).length = m.wireSize := by
  simp only [encode_eq, List.length_append, flatMap_write_length, Write.u32, Write.u8,
    Write.u16, leBytes_length, P9Message.wireSize]
  omega

/-- The size field holds the frame length modulo 2 ^ 32. -/
theorem encode_sizeField (m : P9Message) :
    leValue ((encode m).take 4) = m.wireSize % 2 ^ 32 := by
  have hfield : (Write.u32 m.wireSize).length = 4 := leBytes_length 4 _
  rw [encode_eq, List.take_left' hfield]
  exact leValue_leBytes 4 m.wireSize

theorem reads_sizeField (v : ℕ) : Reads Read.u32 (Write.u32 v) (v % 2 ^ 32) := reads_le_mod 4 v

/-- What comes back is the message up to its strings, with 0 for a tag that is not there, and
it is the message itself exactly when it has a tag and every string survives encoding. -/
theorem decode_encode (m : P9Message) (h : m.InWire) :
    ∃ decoded, decode (encode m) = some decoded ∧
      (decoded = m ↔ m.tag ≠ none ∧ ∀ s ∈ m.strings, Faithful s) := by
  obtain ⟨htag, hfields⟩ := h
  obtain ⟨body, hreads, hsame⟩ := reads_decodeBody m.body hfields
  have hwritten : m.tag.getD 0 < 2 ^ 16 := by
    cases htagged : m.tag with
    | none => decide
    | some t => exact htag t htagged
  have hreader : Reads decodeReader (encode m) ⟨some (m.tag.getD 0), body⟩ := by
    rw [encode_eq]
    refine reads_bind (reads_sizeField _) (reads_bind (reads_u8 _ (code_lt m.body.type))
      (reads_bind (reads_u16 _ hwritten) ?_))
    simp only [ofCode_code]
    exact reads_last hreads
  have hdecode : decode (encode m) = some ⟨some (m.tag.getD 0), body⟩ := by
    have hall := hreader []
    rw [List.append_nil] at hall
    simp only [decode, hall, Option.map_some]
  refine ⟨⟨some (m.tag.getD 0), body⟩, hdecode, ?_⟩
  rw [P9Message.strings, ← hsame]
  constructor
  · intro heq
    rw [← heq]
    exact ⟨Option.some_ne_none _, rfl⟩
  · rintro ⟨htagged, hbody⟩
    obtain ⟨t, ht⟩ := Option.ne_none_iff_exists'.mp htagged
    rw [hbody, ht, Option.getD_some, ← ht]

/-- A message comes back, in a frame that carries its own length, exactly when it has a tag,
its strings are well-formed UTF-16 without a leading byte order mark and the frame is
shorter than 4 GiB. -/
theorem decode_encode_eq_iff (m : P9Message) (h : m.InWire) :
    (decode (encode m) = some m ∧ leValue ((encode m).take 4) = (encode m).length) ↔
      m.tag ≠ none ∧ (∀ s ∈ m.strings, Faithful s) ∧ m.wireSize < 2 ^ 32 := by
  obtain ⟨decoded, hdecode, hsame⟩ := decode_encode m h
  rw [hdecode, Option.some.injEq, hsame, encode_sizeField, encode_length]
  constructor
  · rintro ⟨⟨htag, hstrings⟩, hsize⟩
    refine ⟨htag, hstrings, ?_⟩
    rw [← hsize]
    exact Nat.mod_lt _ (by decide)
  · rintro ⟨htag, hstrings, hsize⟩
    exact ⟨⟨htag, hstrings⟩, Nat.mod_eq_of_lt hsize⟩

/-- The name is "a" with U+FEFF and U+1F600 before and after it. -/
theorem decode_encode_eq_iff_twalk :
    let walk : P9Message := ⟨some 1, .twalk 3 4 [[0x61, 0xFEFF, 0xD83D, 0xDE00], []]⟩
    decode (encode walk) = some walk ∧ leValue ((encode walk).take 4) = (encode walk).length := by
  exact (decode_encode_eq_iff _ ⟨by decide, by decide⟩).mpr ⟨by decide, by decide, by decide⟩

/-- A leading U+FEFF is lost: the message that comes back names another file. -/
theorem decode_encode_byteOrderMark :
    let create : P9Message := ⟨some 1, .tlcreate 3 [0xFEFF, 0x61] 0 0o644 0⟩
    create.InWire ∧ decode (encode create) = some ⟨some 1, .tlcreate 3 [0x61] 0 0o644 0⟩ ∧
      decode (encode create) ≠ some create := by
  exact ⟨⟨by decide, by decide⟩, by decide +kernel, by decide +kernel⟩

end NixWasm.NinepCodec
