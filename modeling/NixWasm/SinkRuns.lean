import NixWasm.ByteSink
import NixWasm.SoftmmuRewrite

/-!
What a run of the sink's operations keeps. A field that was reserved is written by no
append, by no patch of another field and by no rewinding behind it, so that the number
that is filled in is read back after any such run. The numbers are written as those of the emitted
instructions are.
-/
namespace NixWasm.SoftmmuLeb

open ByteStore Cursor

section Digits

theorem bytes_prepend (d : Fin 128) (l : Leb) :
    (Leb.prepend d l).bytes = UInt8.ofNat (d.val + 128) :: l.bytes := rfl

theorem byte_low_eq (v : BitVec 32) (d : Fin 128) (h : d.val = v.toNat % 128) :
    toByte (v &&& 0x7f#32) = UInt8.ofNat d.val := by
  apply UInt8.toNat_inj.mp
  rw [toNat_byte_low, Leb.toNat_final, h]

theorem byte_flagged_eq (v : BitVec 32) (d : Fin 128) (h : d.val = v.toNat % 128) :
    toByte (v &&& 0x7f#32 ||| 0x80#32) = UInt8.ofNat (d.val + 128) := by
  apply UInt8.toNat_inj.mp
  rw [toNat_byte_flagged, Leb.toNat_continued, h]

/-- The unsigned numbers are those of the emitted instructions. -/
theorem uLoop_eq_digits (v : BitVec 32) (fuel : ℕ) (h : v.toNat ≤ fuel) :
    uLoop v = (Leb.digits fuel v.toNat).bytes := by
  induction v using uLoop.induct generalizing fuel with
  | case1 v hlast =>
    have hsmall : v.toNat < 128 := by
      have hzero := congrArg BitVec.toNat hlast
      rw [BitVec.toNat_ushiftRight, Nat.shiftRight_eq_div_pow] at hzero
      simp only [BitVec.toNat_ofNat, Nat.zero_mod] at hzero
      omega
    have hdigits : Leb.digits fuel v.toNat = ⟨[], Fin.ofNat 128 v.toNat⟩ := by
      cases fuel with
      | zero => rfl
      | succ fuel => rw [Leb.digits, if_pos hsmall]
    rw [uLoop, if_pos hlast, hdigits, byte_low_eq v (Fin.ofNat 128 v.toNat) rfl]
    rfl
  | case2 v hmore ih =>
    have hshift : (v >>> 7).toNat = v.toNat / 128 := by
      rw [BitVec.toNat_ushiftRight, Nat.shiftRight_eq_div_pow]
    have hlarge : ¬ v.toNat < 128 := by
      intro hsmall
      apply hmore
      apply BitVec.eq_of_toNat_eq
      rw [hshift]
      exact Nat.div_eq_of_lt hsmall
    obtain ⟨fuel, rfl⟩ : ∃ k, fuel = k + 1 := ⟨fuel - 1, by omega⟩
    rw [uLoop, if_neg hmore, Leb.digits, if_neg hlarge, bytes_prepend, ih fuel (by omega), hshift,
      byte_flagged_eq v (Fin.ofNat 128 v.toNat) rfl]

theorem u_eq (n : ℕ) : u (some n) = (SoftmmuRewrite.u n).bytes := by
  have hword : (BitVec.ofInt 32 (n : ℤ)).toNat = n % 2 ^ 32 := by
    rw [BitVec.ofInt_natCast, BitVec.toNat_ofNat]
  rw [u, Option.getD_some, uLoop_eq_digits _ _ (Nat.le_refl _), hword]
  rfl

theorem toInt_emod (v : BitVec 32) : (v.toInt % 128).toNat = v.toNat % 128 := by
  have hcond := BitVec.toInt_eq_toNat_cond v
  split at hcond <;> omega

theorem lastSigned_iff (v : BitVec 32) : lastSigned v = true ↔
    v.toInt / 128 = 0 ∧ v.toNat % 128 < 64 ∨ v.toInt / 128 = -1 ∧ 64 ≤ v.toNat % 128 := by
  have hzero : v.sshiftRight 7 = 0#32 ↔ v.toInt / 128 = 0 := by
    rw [← BitVec.toInt_inj, toInt_sshiftRight_seven]
    rfl
  have hones : v.sshiftRight 7 = BitVec.allOnes 32 ↔ v.toInt / 128 = -1 := by
    rw [← BitVec.toInt_inj, toInt_sshiftRight_seven]
    rfl
  rw [lastSigned, decide_eq_true_eq, hzero, hones, ne_eq, signBit_eq_zero, Nat.not_lt]

/-- So are the signed ones, which have no more digits than the emitters allow. -/
theorem sLoop_eq_digits (v : BitVec 32) (fuel : ℕ)
    (hlow : -2 ^ (7 * fuel + 6) ≤ v.toInt) (hhigh : v.toInt < 2 ^ (7 * fuel + 6)) :
    sLoop v = (SoftmmuRewrite.sDigits fuel v.toInt).bytes := by
  have hdigit : (Fin.ofNat 128 (v.toInt % 128).toNat).val = v.toNat % 128 := by
    rw [Fin.val_ofNat, toInt_emod, Nat.mod_mod]
  have hcond := BitVec.toInt_eq_toNat_cond v
  induction fuel generalizing v with
  | zero =>
    have hlast : lastSigned v = true := by
      rw [lastSigned_iff]
      split at hcond <;> omega
    rw [sLoop, if_pos hlast, byte_low_eq v _ hdigit]
    rfl
  | succ fuel ih =>
    rw [sLoop, SoftmmuRewrite.sDigits, hdigit]
    by_cases hlast : lastSigned v = true
    · rw [if_pos hlast, if_pos ((lastSigned_iff v).mp hlast), byte_low_eq v _ hdigit]
      rfl
    · have hshift := toInt_sshiftRight_seven v
      have hpow : (2 : ℤ) ^ (7 * (fuel + 1) + 6) = 128 * 2 ^ (7 * fuel + 6) := by ring
      rw [hpow] at hlow hhigh
      rw [if_neg hlast, if_neg fun h => hlast ((lastSigned_iff v).mpr h), bytes_prepend,
        byte_flagged_eq v _ hdigit, ← hshift]
      have hnext := BitVec.toInt_eq_toNat_cond (v.sshiftRight 7)
      rw [ih (v.sshiftRight 7) (by omega) (by omega)
        (by rw [Fin.val_ofNat, toInt_emod, Nat.mod_mod])
        hnext]

theorem s_eq (n : ℤ) : s (some n) = (SoftmmuRewrite.s n).bytes := by
  have hlow := BitVec.le_toInt (BitVec.ofInt 32 n)
  have hhigh := @BitVec.toInt_lt 32 (BitVec.ofInt 32 n)
  rw [s, Option.getD_some]
  exact sLoop_eq_digits _ 5 (by omega) (by omega)

end Digits

/-- The operations that the pass calls between reserving a field and the end. -/
inductive Op where
  | push (byteArgs : List UInt8)
  | pushBytes (src : List UInt8)
  | byte (x : UInt8)
  | u (n : Option ℤ)
  | s (n : Option ℤ)
  | bytes (src : List UInt8)
  | reserve (n : ℕ)
  | patch5 (offset : ℕ) (value : ℤ)
  | pushPadded5 (value : ℤ)
  | rewind (bodyStart : ℕ)

def Op.step (sink : ByteSink) : Op → ByteSink
  | .push byteArgs => sink.push byteArgs
  | .pushBytes src => sink.pushBytes src
  | .byte x => sink.byte x
  | .u n => sink.u n
  | .s n => sink.s n
  | .bytes src => sink.bytes src
  | .reserve n => (sink.reserve n).2
  | .patch5 offset value => sink.patch5 offset value
  | .pushPadded5 value => sink.pushPadded5 value
  | .rewind bodyStart => sink.rewind bodyStart

def run (sink : ByteSink) (ops : List Op) : ByteSink := ops.foldl Op.step sink

/-- The operation is not about the field: appends never are. -/
def Op.Avoids (off : ℕ) : Op → Prop
  | .patch5 offset _ => offset + 5 ≤ off ∨ off + 5 ≤ offset
  | .rewind bodyStart => off + 5 ≤ bodyStart
  | _ => True

instance (off : ℕ) (op : Op) : Decidable (op.Avoids off) := by
  cases op <;> unfold Op.Avoids <;> infer_instance

/-- The field is still among the written bytes, and unchanged. -/
structure Kept (off : ℕ) (sink later : ByteSink) : Prop where
  inside : off + 5 ≤ later.len
  same : ∀ j, off ≤ j → j < off + 5 → later.buf[j]? = sink.buf[j]?

theorem Kept.trans {off : ℕ} {a b c : ByteSink} (hab : Kept off a b) (hbc : Kept off b c) :
    Kept off a c :=
  ⟨hbc.inside, fun j hlow hhigh => (hbc.same j hlow hhigh).trans (hab.same j hlow hhigh)⟩

theorem getElem?_written {sink : ByteSink} {j : ℕ} (h : j < sink.len) :
    sink.written[j]? = sink.buf[j]? := by
  rw [ByteSink.written, List.getElem?_take, if_pos h]

/-- What is appended leaves every field alone. -/
theorem kept_of_append {off : ℕ} {sink later : ByteSink} {more : List UInt8}
    (h : later.written = sink.written ++ more) (hinside : off + 5 ≤ sink.len) :
    Kept off sink later := by
  have hlength := congrArg List.length h
  rw [List.length_append, later.written_length, sink.written_length] at hlength
  refine ⟨by omega, fun j _ hhigh => ?_⟩
  rw [← getElem?_written (show j < later.len by omega), h, List.getElem?_append_left
    (by rw [sink.written_length]; omega), getElem?_written (by omega)]

theorem reserve_written (sink : ByteSink) (n : ℕ) :
    ∃ more, (sink.reserve n).2.written = sink.written ++ more := by
  refine ⟨((sink.ensure n).buf.drop sink.len).take n, ?_⟩
  have hkept := sink.ensure_written n
  rw [ByteSink.written, ByteSink.ensure_len] at hkept
  rw [← hkept, ← List.take_add]
  simp [ByteSink.written, ByteSink.reserve]

theorem reserve_inside (sink : ByteSink) :
    (sink.reserve 5).1 = sink.len ∧ (sink.reserve 5).2.len = sink.len + 5 := by
  simp [ByteSink.reserve]

/-- A patch changes the five bytes of its field only. -/
theorem getElem?_patchFrom_outside (k off : ℕ) (v : BitVec 32) (buf : List UInt8) {j : ℕ}
    (hout : j < off ∨ off + (k + 1) ≤ j) : (ByteSink.patchFrom k off v buf)[j]? = buf[j]? := by
  induction k generalizing off v buf with
  | zero => rw [ByteSink.patchFrom, List.getElem?_set_ne (by omega)]
  | succ k ih => rw [ByteSink.patchFrom, ih _ _ _ (by omega), List.getElem?_set_ne (by omega)]

theorem getElem?_patch5_outside (sink : ByteSink) (off : ℕ) (value : ℤ) {j : ℕ}
    (hout : j < off ∨ off + 5 ≤ j) : (sink.patch5 off value).buf[j]? = sink.buf[j]? :=
  getElem?_patchFrom_outside 4 off _ sink.buf hout

theorem kept_patch5 {off offset : ℕ} {sink : ByteSink} (value : ℤ) (hinside : off + 5 ≤ sink.len)
    (hapart : offset + 5 ≤ off ∨ off + 5 ≤ offset) : Kept off sink (sink.patch5 offset value) :=
  ⟨hinside, fun _ _ _ => getElem?_patch5_outside sink offset value (by omega)⟩

theorem kept_step {off : ℕ} {sink : ByteSink} {op : Op} (havoids : op.Avoids off)
    (hinside : off + 5 ≤ sink.len) : Kept off sink (op.step sink) := by
  cases op with
  | push byteArgs => exact kept_of_append (sink.pushBytes_written byteArgs) hinside
  | pushBytes src => exact kept_of_append (sink.pushBytes_written src) hinside
  | byte x => exact kept_of_append (sink.byte_written x) hinside
  | u n => exact kept_of_append (sink.u_written n) hinside
  | s n => exact kept_of_append (sink.s_written n) hinside
  | bytes src => exact kept_of_append (sink.pushBytes_written src) hinside
  | reserve n =>
    obtain ⟨more, hmore⟩ := reserve_written sink n
    exact kept_of_append hmore hinside
  | patch5 offset value => exact kept_patch5 value hinside havoids
  | pushPadded5 value =>
    obtain ⟨more, hmore⟩ := reserve_written sink 5
    have hreserved : Kept off sink (sink.reserve 5).2 := kept_of_append hmore hinside
    have hbehind : off + 5 ≤ (sink.reserve 5).1 := by
      rw [(reserve_inside sink).1]
      exact hinside
    exact hreserved.trans (kept_patch5 value hreserved.inside (Or.inr hbehind))
  | rewind bodyStart =>
    have hbehind : off + 5 ≤ bodyStart := havoids
    exact ⟨by simp only [Op.step, ByteSink.rewind]; omega, fun _ _ _ => rfl⟩

theorem kept_run {off : ℕ} (ops : List Op) {sink : ByteSink}
    (havoids : ∀ op ∈ ops, op.Avoids off) (hinside : off + 5 ≤ sink.len) :
    Kept off sink (run sink ops) := by
  induction ops generalizing sink with
  | nil => exact ⟨hinside, fun _ _ _ => rfl⟩
  | cons op ops ih =>
    have hstep := kept_step (havoids op (List.mem_cons_self ..)) hinside
    exact hstep.trans (ih (fun o ho => havoids o (List.mem_cons_of_mem op ho)) hstep.inside)

/-- A field that was filled in and kept is read as its number, in five bytes. -/
theorem readU_kept {off : ℕ} {sink later : ByteSink} (value : BitVec 32)
    (hinside : off + 5 ≤ sink.len) (hkept : Kept off (sink.patch5 off value.toNat) later) :
    readU later.written off = (value.toNat, off + 5) := by
  have hfits : off + (padded 4 value).length ≤ sink.buf.length := by
    have := sink.fits
    rw [padded_length]
    omega
  have hfield : (later.written.drop off).take 5 = padded 4 value := by
    apply List.ext_getElem?
    intro i
    by_cases hi : i < 5
    · have hpatched : (sink.patch5 off value.toNat).buf = splice sink.buf off (padded 4 value) := by
        have hfits' : off + (4 + 1) ≤ sink.buf.length := by rwa [padded_length] at hfits
        have hword : BitVec.ofInt 32 (value.toNat : ℤ) = value := by
          rw [BitVec.ofInt_natCast, BitVec.ofNat_toNat, BitVec.setWidth_eq]
        exact (patchFrom_eq 4 off _ sink.buf hfits').trans (by rw [hword])
      rw [List.getElem?_take, if_pos hi, List.getElem?_drop,
        getElem?_written (show off + i < later.len by have := hkept.inside; omega),
        hkept.same _ (by omega) (by omega), hpatched,
        getElem?_splice_inside hfits (by omega) (by rw [padded_length]; omega)]
      congr 1
      omega
    · rw [List.getElem?_eq_none (by simp; omega), List.getElem?_eq_none (by simp; omega)]
  have hsmall : value.toNat < 128 ^ (4 + 1) := by
    have := value.isLt
    omega
  rw [readU_eq, ← List.take_append_drop 5 (later.written.drop off), hfield,
    ulebAt_padded 4 value _ hsmall]

/-- Both codecs read back what they wrote, the sink appends the same bytes, and a reserved
field holds the number that was filled in, whatever is appended around it. -/
theorem leb_codecs :
    (∀ (n : BitVec 32) (pre rest : List UInt8),
      readU (pre ++ (u (some n.toNat) ++ rest)) pre.length =
        (n.toNat, pre.length + (u (some n.toNat)).length)) ∧
    (∀ (n : BitVec 32) (pre rest : List UInt8),
      readS (pre ++ (s (some n.toInt) ++ rest)) pre.length =
        (n.toInt, pre.length + (s (some n.toInt)).length)) ∧
    (∀ (l : Leb) (pre rest : List UInt8),
      (readS (pre ++ (l.bytes ++ rest)) pre.length).2 = pre.length + l.bytes.length) ∧
    (∀ (sink : ByteSink) (n : Option ℤ),
      (sink.u n).written = sink.written ++ u n ∧ (sink.s n).written = sink.written ++ s n) ∧
    ∀ (sink : ByteSink) (between after : List Op) (value : BitVec 32),
      (∀ op ∈ between ++ after, op.Avoids (sink.reserve 5).1) →
      readU (run ((run (sink.reserve 5).2 between).patch5 (sink.reserve 5).1 value.toNat)
          after).written (sink.reserve 5).1 = (value.toNat, (sink.reserve 5).1 + 5) ∧
        ((run (sink.reserve 5).2 between).patch5 (sink.reserve 5).1 value.toNat).len =
          (run (sink.reserve 5).2 between).len ∧
        ∀ j, j < (sink.reserve 5).1 ∨ (sink.reserve 5).1 + 5 ≤ j →
          ((run (sink.reserve 5).2 between).patch5 (sink.reserve 5).1 value.toNat).buf[j]? =
            (run (sink.reserve 5).2 between).buf[j]? := by
  refine ⟨readU_u, readS_s, readS_stops, fun sink n => ⟨sink.u_written n, sink.s_written n⟩,
    fun sink between after value havoids => ?_⟩
  obtain ⟨hoff, hlen⟩ := reserve_inside sink
  have hbetween : Kept (sink.reserve 5).1 (sink.reserve 5).2 (run (sink.reserve 5).2 between) :=
    kept_run between (fun op hop => havoids op (List.mem_append_left after hop)) (by omega)
  have hafter := kept_run after (fun op hop => havoids op (List.mem_append_right between hop))
    (show (sink.reserve 5).1 + 5 ≤
      ((run (sink.reserve 5).2 between).patch5 (sink.reserve 5).1 value.toNat).len from
      hbetween.inside)
  exact ⟨readU_kept value hbetween.inside hafter, rfl,
    fun j hout => getElem?_patch5_outside _ _ _ hout⟩

/-- A function body's size that is filled in after one retry of an emission. -/
theorem leb_codecs_retry :
    readU (run ((run ((ByteSink.new 0).reserve 5).2 [.byte 0x0b, .rewind 5, .s (some (-3))]).patch5
        ((ByteSink.new 0).reserve 5).1 (0xffffffff#32).toNat) [.u (some 300)]).written
      ((ByteSink.new 0).reserve 5).1 =
        ((0xffffffff#32).toNat, ((ByteSink.new 0).reserve 5).1 + 5) := by
  have hoff : ((ByteSink.new 0).reserve 5).1 = 0 := (reserve_inside (ByteSink.new 0)).1
  refine (leb_codecs.2.2.2.2 (ByteSink.new 0) [.byte 0x0b, .rewind 5, .s (some (-3))]
    [.u (some 300)] (0xffffffff#32) ?_).1
  rw [hoff]
  decide

end NixWasm.SoftmmuLeb
