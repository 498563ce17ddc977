import NixWasm.NinepRoundTrip
import NixWasm.WireLayout

/-!
What `decode` of ninep/protocol.ts makes of incomplete frames. Fixed fields, lengths and
counts are read through a `DataView` and throw when they are cut; the content of a string
or of a data field is a `subarray` and comes back shorter. So a cut goes unnoticed exactly
when it is in the content that ends the frame.
-/
namespace NixWasm.NinepCodec

open Bytes Bytes.Reader Unicode WireLayout

namespace Layout

def u8 : Scan := fixed 1
def u16 : Scan := fixed 2
def u32 : Scan := fixed 4
def u64 : Scan := fixed 8
def str : Scan := content 2
def qid : Scan := sequence [u8, u32, u64]
def data : Scan := content 4
def wnames : Scan := counts 2 str
def qids : Scan := counts 2 qid

/-- There is no such message on the wire. -/
def unknown : Scan := fun _ => none

end Layout

def Field.scan : Field → Scan
  | .u8 _ => Layout.u8
  | .u16 _ => Layout.u16
  | .u32 _ => Layout.u32
  | .u64 _ => Layout.u64
  | .str _ => Layout.str
  | .qid _ => Layout.qid
  | .data _ => Layout.data
  | .wnames _ => Layout.wnames
  | .qids _ => Layout.qids

/-- The fields of a message after its header. -/
def layout : P9 → List Scan
  | .tversion => [Layout.u32, Layout.str]
  | .rversion => [Layout.u32, Layout.str]
  | .tauth => [Layout.u32, Layout.str, Layout.str, Layout.u32]
  | .rauth => [Layout.qid]
  | .tattach => [Layout.u32, Layout.u32, Layout.str, Layout.str, Layout.u32]
  | .rattach => [Layout.qid]
  | .rlerror => [Layout.u32]
  | .tstatfs => [Layout.u32]
  | .rstatfs =>
    [Layout.u32, Layout.u32, Layout.u64, Layout.u64, Layout.u64, Layout.u64, Layout.u64,
      Layout.u64, Layout.u32]
  | .tlopen => [Layout.u32, Layout.u32]
  | .rlopen => [Layout.qid, Layout.u32]
  | .tlcreate => [Layout.u32, Layout.str, Layout.u32, Layout.u32, Layout.u32]
  | .rlcreate => [Layout.qid, Layout.u32]
  | .tsymlink => [Layout.u32, Layout.str, Layout.str, Layout.u32]
  | .rsymlink => [Layout.qid]
  | .tmknod => [Layout.u32, Layout.str, Layout.u32, Layout.u32, Layout.u32, Layout.u32]
  | .rmknod => [Layout.qid]
  | .trename => [Layout.u32, Layout.u32, Layout.str]
  | .rrename => []
  | .treadlink => [Layout.u32]
  | .rreadlink => [Layout.str]
  | .tgetattr => [Layout.u32, Layout.u64]
  | .rgetattr =>
    [Layout.u64, Layout.qid, Layout.u32, Layout.u32, Layout.u32] ++ List.replicate 15 Layout.u64
  | .tsetattr => List.replicate 5 Layout.u32 ++ List.replicate 5 Layout.u64
  | .rsetattr => []
  | .txattrwalk => [Layout.u32, Layout.u32, Layout.str]
  | .rxattrwalk => [Layout.unknown]
  | .treaddir => [Layout.u32, Layout.u64, Layout.u32]
  | .rreaddir => [Layout.data]
  | .tfsync => [Layout.u32, Layout.u32]
  | .rfsync => []
  | .tlock => [Layout.u32, Layout.u8, Layout.u32, Layout.u64, Layout.u64, Layout.u32, Layout.str]
  | .rlock => [Layout.u8]
  | .tgetlock => [Layout.u32, Layout.u8, Layout.u64, Layout.u64, Layout.u32, Layout.str]
  | .rgetlock => [Layout.u8, Layout.u64, Layout.u64, Layout.u32, Layout.str]
  | .tmkdir => [Layout.u32, Layout.str, Layout.u32, Layout.u32]
  | .rmkdir => [Layout.qid]
  | .trenameat => [Layout.u32, Layout.str, Layout.u32, Layout.str]
  | .rrenameat => []
  | .tunlinkat => [Layout.u32, Layout.str, Layout.u32]
  | .runlinkat => []
  | .tflush => [Layout.u16]
  | .rflush => []
  | .twalk => [Layout.u32, Layout.u32, Layout.wnames]
  | .rwalk => [Layout.qids]
  | .tread => [Layout.u32, Layout.u64, Layout.u32]
  | .rread => [Layout.data]
  | .twrite => [Layout.u32, Layout.u64, Layout.data]
  | .rwrite => [Layout.u32]
  | .tclunk => [Layout.u32]
  | .rclunk => []
  | .tremove => [Layout.u32]
  | .rremove => []

/-- A whole frame: `size[4] type[1] tag[2]` and the fields. -/
def frame : Scan :=
  andThen Layout.u32 (counted 1 fun type =>
    andThen Layout.u16 ((P9.ofCode type).elim Layout.unknown fun t => sequence (layout t)))

/-- What the frame announces is not all there. -/
def Overruns (input : List UInt8) : Prop := ∀ x, frame input = some x → input.length < x.extent

/-- Lengths and counts fit their prefixes; numbers are masked to their width anyway. -/
def Field.Fits : Field → Prop
  | .str s => (utf8Encode s).length < 2 ^ 16
  | .data b => b.length < 2 ^ 32
  | .wnames v => v.length < 2 ^ 16 ∧ ∀ s ∈ v, (utf8Encode s).length < 2 ^ 16
  | .qids v => v.length < 2 ^ 16
  | _ => True

/-- The length of the content at the end of a field. -/
def Field.tail : Field → ℕ
  | .str s => (utf8Encode s).length
  | .data b => b.length
  | .wnames v => tailOf (fun s => (utf8Encode s).length) v
  | _ => 0

def P9Message.Fits (m : P9Message) : Prop := ∀ f ∈ m.body.fields, f.Fits

/-- The length of the string or data at the end of a message. -/
def P9Message.tail (m : P9Message) : ℕ := tailOf Field.tail m.body.fields

theorem cuts_unknown : Cuts Layout.unknown := by
  refine ⟨?_, fun _ _ => rfl⟩
  rintro bytes x ⟨⟩

theorem cuts_str : Cuts Layout.str := cuts_content 2

theorem cuts_qid : Cuts Layout.qid := by
  refine cuts_sequence ?_
  simp [Layout.u8, Layout.u32, Layout.u64, cuts_fixed]

theorem cuts_wnames : Cuts Layout.wnames := cuts_counts 2 cuts_str

theorem cuts_qids : Cuts Layout.qids := cuts_counts 2 cuts_qid

theorem cuts_layout (t : P9) : Cuts (sequence (layout t)) := by
  have hu8 : Cuts Layout.u8 := cuts_fixed 1
  have hu16 : Cuts Layout.u16 := cuts_fixed 2
  have hu32 : Cuts Layout.u32 := cuts_fixed 4
  have hu64 : Cuts Layout.u64 := cuts_fixed 8
  have hdata : Cuts Layout.data := cuts_content 4
  refine cuts_sequence ?_
  cases t <;> simp [layout, hu8, hu16, hu32, hu64, hdata, cuts_str, cuts_qid, cuts_wnames,
    cuts_qids, cuts_unknown]

theorem cuts_frame : Cuts frame := by
  refine cuts_andThen (cuts_fixed 4) (cuts_counted 1 fun type =>
    cuts_andThen (cuts_fixed 2) ?_)
  cases P9.ofCode type with
  | none => exact cuts_unknown
  | some t => exact cuts_layout t

theorem follows_u8 : Follows Read.u8 Layout.u8 := follows_le 1

theorem follows_u16 : Follows Read.u16 Layout.u16 := follows_le 2

theorem follows_u32 : Follows Read.u32 Layout.u32 := follows_le 4

theorem follows_u64 : Follows Read.u64 Layout.u64 := follows_map toNumber (follows_le 8)

theorem follows_str : Follows Read.str Layout.str := follows_content 2 utf8Decode

theorem follows_qid : Follows Read.qid Layout.qid :=
  follows_bind follows_u8 fun _ => follows_bind follows_u32 fun _ =>
    follows_bind follows_u64 fun _ => follows_pure _

theorem follows_data : Follows Read.data Layout.data := by
  have h : Follows (le 4 >>= upTo) (content 4) := by
    simpa only [id_map] using follows_content 4 (id : List UInt8 → List UInt8)
  exact h

theorem follows_wnames : Follows Read.wnames Layout.wnames := follows_counts follows_str 2

theorem follows_qids : Follows Read.qids Layout.qids := follows_counts follows_qid 2

section
-- otherwise every failed attempt below unfolds the readers
attribute [local irreducible] Read.u8 Read.u16 Read.u32 Read.u64 Read.str Read.qid Read.data
  Read.wnames Read.qids

/-- Each case of `decode` reads the fields of its type, one after the other. -/
theorem follows_decodeBody (t : P9) : Follows (decodeBody t) (WireLayout.sequence (layout t)) := by
  cases t
  case rxattrwalk => exact fun bytes => ⟨fun _ => rfl, by rintro x ⟨⟩⟩
  all_goals
    simp only [layout, WireLayout.sequence, List.replicate, List.cons_append, List.nil_append,
      List.foldr, decodeBody]
    repeat
      first
      | exact follows_pure _
      | refine follows_bind follows_u32 fun _ => ?_
      | refine follows_bind follows_u64 fun _ => ?_
      | refine follows_bind follows_str fun _ => ?_
      | refine follows_bind follows_qid fun _ => ?_
      | refine follows_bind follows_u8 fun _ => ?_
      | refine follows_bind follows_u16 fun _ => ?_
      | refine follows_bind follows_data fun _ => ?_
      | refine follows_bind follows_wnames fun _ => ?_
      | refine follows_bind follows_qids fun _ => ?_

end

theorem follows_decodeReader : Follows decodeReader frame := by
  refine follows_bind follows_u32 fun _ => follows_counted 1 fun type =>
    follows_bind follows_u16 fun tag => ?_
  cases P9.ofCode type with
  | none => exact fun bytes => ⟨fun _ => rfl, by rintro x ⟨⟩⟩
  | some t => exact follows_last (follows_decodeBody t)

/-- `decode` throws on exactly the cuts that leave out needed bytes. -/
theorem decode_take (input : List UInt8) (k : ℕ) :
    decode (input.take k) = none ↔ ∀ x, frame input = some x → k < x.need := by
  rw [decode, Option.map_eq_none_iff]
  exact follows_decodeReader.take_eq_none cuts_frame input k

theorem decode_eq_none_iff (input : List UInt8) : decode input = none ↔ frame input = none := by
  rw [decode, Option.map_eq_none_iff]
  refine ⟨fun h => ?_, (follows_decodeReader input).1⟩
  cases hx : frame input with
  | none => rfl
  | some x =>
    obtain ⟨a, ha⟩ := (follows_decodeReader input).2 x hx
    simp [h] at ha

theorem layout_type (body : Body) : layout body.type = body.fields.map Field.scan := by
  cases body <;> rfl

theorem str_tail_lt (s : Utf16) : (utf8Encode s).length < (Write.str s).length := by
  simp only [Write.str, Write.u16, List.length_append, leBytes_length]
  omega

theorem field_tail_lt (f : Field) : f.tail < f.write.length := by
  cases f with
  | str s => exact str_tail_lt s
  | data b =>
    simp only [Field.tail, Field.write, Write.data, Write.u32, List.length_append, leBytes_length]
    omega
  | wnames v =>
    simp only [Field.tail, Field.write, Write.wnames, Write.u16, List.length_append,
      leBytes_length]
    by_cases hv : v = []
    · simp [hv, tailOf]
    · have hlt := tailOf_lt Write.str (fun s => (utf8Encode s).length)
        (fun s _ => str_tail_lt s) hv
      omega
  | _ => simp [Field.tail, Field.write, Write.u8, Write.u16, Write.u32, Write.u64, Write.qid,
      Write.qids]

theorem spans_number (k v : ℕ) : Spans (fixed k) (leBytes k v) (leBytes k v).length := by
  have h := spans_fixed (leBytes k v)
  rw [leBytes_length] at h ⊢
  exact h

theorem spans_str {s : Utf16} (h : (utf8Encode s).length < 2 ^ 16) :
    Spans Layout.str (Write.str s) ((Write.str s).length - (utf8Encode s).length) := by
  have hspan := spans_content 2 h
  have hneed : (Write.str s).length - (utf8Encode s).length = 2 := by
    simp [Write.str, Write.u16]
  rw [hneed]
  exact hspan

theorem spans_qid (q : Qid) : Spans Layout.qid (Write.qid q) (Write.qid q).length := by
  have h : Spans (andThen (fixed 1) (andThen (fixed 4) (andThen (fixed 8) empty)))
      (leBytes 1 q.type ++ (leBytes 4 q.version ++ leBytes 8 q.path)) 13 := by
    simpa using spans_andThen (spans_number 1 q.type) (spans_andThen (spans_number 4 q.version)
      (spans_andThen (spans_number 8 q.path) spans_empty))
  have hneed : (Write.qid q).length = 13 := by simp [Write.qid, Write.u8, Write.u32, Write.u64]
  rw [hneed]
  exact h

theorem spans_field {f : Field} (h : f.Fits) :
    Spans f.scan f.write (f.write.length - f.tail) := by
  cases f with
  | u8 v => exact spans_number 1 v
  | u16 v => exact spans_number 2 v
  | u32 v => exact spans_number 4 v
  | u64 v => exact spans_number 8 v
  | str s => exact spans_str h
  | qid q => exact spans_qid q
  | data b =>
    have hspan := spans_content 4 h
    have hneed : (Write.data b).length - b.length = 4 := by simp [Write.data, Write.u32]
    simp only [Field.write, Field.tail, hneed]
    exact hspan
  | wnames v =>
    have hspan := spans_counts Write.str (fun s => (utf8Encode s).length) 2 v h.1
      (fun s _ => str_tail_lt s) fun s hs => spans_str (h.2 s hs)
    have hneed : (Write.wnames v).length - tailOf (fun s => (utf8Encode s).length) v =
        2 + ((v.flatMap Write.str).length - tailOf (fun s => (utf8Encode s).length) v) := by
      simp only [Write.wnames, Write.u16, List.length_append, leBytes_length]
      by_cases hv : v = []
      · simp [hv, tailOf]
      · have hlt := tailOf_lt Write.str (fun s => (utf8Encode s).length)
          (fun s _ => str_tail_lt s) hv
        omega
    simp only [Field.write, Field.tail, hneed]
    exact hspan
  | qids v =>
    have hspan := spans_counts Write.qid (fun _ => 0) 2 v h
      (fun q _ => by simp [Write.qid, Write.u8]) fun q _ => spans_qid q
    have htail : tailOf (fun _ : Qid => 0) v = 0 := by
      cases hv : v.getLast? <;> simp [tailOf, hv]
    have hneed : (Write.qids v).length = 2 + (v.flatMap Write.qid).length := by
      simp [Write.qids, Write.u16]
    simp only [htail, Nat.sub_zero] at hspan
    simp only [Field.write, Field.tail, Nat.sub_zero, hneed]
    exact hspan

/-- A message whose lengths fit their prefixes fills its frame, up to its last content. -/
theorem frame_encode {m : P9Message} (h : m.Fits) :
    frame (encode m) = some ⟨(encode m).length, (encode m).length - m.tail⟩ := by
  have hfields := spans_sequence Field.scan Field.write Field.tail m.body.fields
    (fun f _ => field_tail_lt f) fun f hf => spans_field (h f hf)
  rw [← layout_type] at hfields
  have htype : (P9.ofCode m.body.type.code).elim Layout.unknown (fun t => sequence (layout t)) =
      sequence (layout m.body.type) := by rw [ofCode_code, Option.elim_some]
  rw [← htype] at hfields
  have htag := spans_andThen (spans_number 2 (m.tag.getD 0)) hfields
  have hbody := spans_counted 1 (fun type => andThen Layout.u16
    ((P9.ofCode type).elim Layout.unknown fun t => sequence (layout t))) (code_lt m.body.type) htag
  have hall := spans_andThen (spans_number 4 m.wireSize) hbody []
  have hlt : m.tail ≤ (m.body.fields.flatMap Field.write).length := by
    by_cases hempty : m.body.fields = []
    · simp [P9Message.tail, hempty, tailOf]
    · exact (tailOf_lt Field.write Field.tail (fun f _ => field_tail_lt f) hempty).le
  rw [List.append_nil] at hall
  rw [encode_eq]
  refine hall.trans ?_
  simp only [P9Message.tail, Write.u32, Write.u8, Write.u16, List.length_append, leBytes_length,
    Option.some.injEq, Span.mk.injEq] at hlt ⊢
  refine ⟨trivial, ?_⟩
  by_cases hempty : (m.body.fields.flatMap Field.write).length -
      tailOf Field.tail m.body.fields = 0
  · have hnone : m.body.fields = [] := by
      by_contra hne
      have := tailOf_lt Field.write Field.tail (fun f _ => field_tail_lt f) hne
      omega
    simp [hnone, tailOf]
  · rw [if_neg hempty, if_neg (by omega)]
    omega

instance : (f : Field) → Decidable f.Fits
  | .str s => inferInstanceAs (Decidable ((utf8Encode s).length < 2 ^ 16))
  | .data b => inferInstanceAs (Decidable (b.length < 2 ^ 32))
  | .wnames v => inferInstanceAs (Decidable
      (v.length < 2 ^ 16 ∧ ∀ s ∈ v, (utf8Encode s).length < 2 ^ 16))
  | .qids v => inferInstanceAs (Decidable (v.length < 2 ^ 16))
  | .u8 _ | .u16 _ | .u32 _ | .u64 _ | .qid _ => inferInstanceAs (Decidable True)

instance (m : P9Message) : Decidable m.Fits :=
  inferInstanceAs (Decidable (∀ f ∈ m.body.fields, f.Fits))

/-- A prefix of a message is refused exactly up to the content that ends the message, and so is
every cut of a frame. A frame that does not hold what it announces is refused exactly when it is
not only the content at its end that is cut short. -/
theorem decode_truncated (input : List UInt8) (k : ℕ) :
    (∀ m : P9Message, m.Fits → k < (encode m).length →
      (decode ((encode m).take k) = none ↔ k < (encode m).length - m.tail)) ∧
    (decode (input.take k) = none ↔ ∀ x, frame input = some x → k < x.need) ∧
    (Overruns input → (decode input = none ↔ frame input = none)) := by
  refine ⟨?_, decode_take input k, fun _ => decode_eq_none_iff input⟩
  intro m hfits _
  rw [decode_take, frame_encode hfits]
  simp

/-- A walk is refused when it is cut before the second of its names. -/
theorem decode_truncated_twalk :
    let walk : P9Message := ⟨some 1, .twalk 3 4 [[0x61], [0x62, 0x63]]⟩
    decode ((encode walk).take 21) = none ∧ decode ((encode walk).take 22) ≠ none ∧
      Overruns ((encode walk).take 22) := by
  intro walk
  have hfits : walk.Fits := by decide
  refine ⟨((decode_truncated [] 21).1 walk hfits (by decide +kernel)).mpr (by decide +kernel),
    ((decode_truncated [] 22).1 walk hfits (by decide +kernel)).not.mpr (by decide +kernel), ?_⟩
  intro x hx
  have hframe : frame ((encode walk).take 22) = some ⟨24, 22⟩ := by decide +kernel
  rw [hframe, Option.some.injEq] at hx
  rw [← hx]
  decide +kernel

/-- The data of a write, its last byte missing, is read as shorter data. -/
theorem decode_shortened :
    let write : P9Message := ⟨some 1, .twrite 3 0 [1, 2, 3]⟩
    write.Fits ∧ (encode write).length = 26 ∧
      decode ((encode write).take 25) = some ⟨some 1, .twrite 3 0 [1, 2]⟩ := by
  refine ⟨by decide, by decide +kernel, by decide +kernel⟩

end NixWasm.NinepCodec
