import NixWasm.ByteStore
import NixWasm.SoftmmuLeb

/-!
The growing buffer that the pass streams a module into. Only the first `len` bytes are
written; what lies behind them is left over from growing or from a section that was taken
back. A field of five bytes can be reserved and its number filled in later.
-/
namespace NixWasm.SoftmmuLeb

open ByteStore Cursor

/-- The constructor leaves room in the buffer, and no operation writes past it. -/
structure ByteSink where
  buf : List UInt8
  len : ℕ
  fits : len ≤ buf.length
  roomy : 0 < buf.length

/-- The doubling of `_ensure`, until the capacity is enough. -/
def grownCap (need cap : ℕ) (hcap : 0 < cap) : ℕ :=
  if cap < need then grownCap need (cap * 2) (by omega) else cap
termination_by need - cap

theorem le_grownCap (need cap : ℕ) (hcap : 0 < cap) :
    need ≤ grownCap need cap hcap ∧ cap ≤ grownCap need cap hcap := by
  induction cap, hcap using grownCap.induct need with
  | case1 cap hcap hsmall ih =>
    rw [grownCap, if_pos hsmall]
    exact ⟨ih.1, by omega⟩
  | case2 cap hcap hlarge =>
    rw [grownCap, if_neg hlarge]
    omega

namespace ByteSink

def new (initialCapacity : ℕ) : ByteSink where
  buf := List.replicate (max initialCapacity 64) 0
  len := 0
  fits := Nat.zero_le _
  roomy := by simp

/-- `toUint8Array`. -/
def written (sink : ByteSink) : List UInt8 := sink.buf.take sink.len

theorem written_length (sink : ByteSink) : sink.written.length = sink.len :=
  List.length_take_of_le sink.fits

theorem splice_zeros (cap : ℕ) (src : List UInt8) :
    splice (List.replicate cap 0) 0 src = src ++ List.replicate (cap - src.length) 0 := by
  simp [splice]

/-- `_ensure`: the bytes written so far, in a larger buffer. -/
def ensure (sink : ByteSink) (extra : ℕ) : ByteSink :=
  if sink.len + extra ≤ sink.buf.length then sink
  else
    have hcap : 0 < sink.buf.length * 2 := by have := sink.roomy; omega
    { buf := splice (List.replicate (grownCap (sink.len + extra) (sink.buf.length * 2) hcap) 0) 0
        sink.written
      len := sink.len
      fits := by
        have hgrown := (le_grownCap (sink.len + extra) (sink.buf.length * 2) hcap).1
        have hlen := sink.written_length
        rw [splice_length (by rw [List.length_replicate]; omega), List.length_replicate]
        omega
      roomy := by
        have hgrown := (le_grownCap (sink.len + extra) (sink.buf.length * 2) hcap)
        have hlen := sink.written_length
        rw [splice_length (by rw [List.length_replicate]; omega), List.length_replicate]
        omega }

@[simp] theorem ensure_len (sink : ByteSink) (extra : ℕ) : (sink.ensure extra).len = sink.len := by
  unfold ensure
  split <;> rfl

theorem ensure_room (sink : ByteSink) (extra : ℕ) :
    sink.len + extra ≤ (sink.ensure extra).buf.length := by
  unfold ensure
  split
  · assumption
  · have hcap : 0 < sink.buf.length * 2 := by have := sink.roomy; omega
    have hgrown := (le_grownCap (sink.len + extra) (sink.buf.length * 2) hcap).1
    have hlen := sink.written_length
    rw [splice_length (by rw [List.length_replicate]; omega), List.length_replicate]
    exact hgrown

/-- Growing keeps what was written. -/
@[simp] theorem ensure_written (sink : ByteSink) (extra : ℕ) :
    (sink.ensure extra).written = sink.written := by
  unfold ensure
  split
  · rfl
  · have hcap : 0 < sink.buf.length * 2 := by have := sink.roomy; omega
    have hgrown := (le_grownCap (sink.len + extra) (sink.buf.length * 2) hcap).1
    have hlen := sink.written_length
    rw [written]
    dsimp only
    rw [splice_zeros, List.take_left' hlen]

/-- `pushBytes`. -/
def pushBytes (sink : ByteSink) (src : List UInt8) : ByteSink where
  buf := splice (sink.ensure src.length).buf (sink.ensure src.length).len src
  len := (sink.ensure src.length).len + src.length
  fits := by
    have hroom := sink.ensure_room src.length
    rw [splice_length (by rw [ensure_len]; exact hroom), ensure_len]
    exact hroom
  roomy := by
    have hroom := sink.ensure_room src.length
    rw [splice_length (by rw [ensure_len]; exact hroom)]
    exact (sink.ensure src.length).roomy

/-- `push`, whose arguments are an array. -/
def push (sink : ByteSink) (byteArgs : List UInt8) : ByteSink := sink.pushBytes byteArgs

def bytes (sink : ByteSink) (src : List UInt8) : ByteSink := sink.pushBytes src

/-- `byte`, which grows the buffer only when it is full. -/
def byte (sink : ByteSink) (x : UInt8) : ByteSink :=
  let grown := if sink.buf.length ≤ sink.len then sink.ensure 1 else sink
  have hroom : grown.len + 1 ≤ grown.buf.length := by
    by_cases hfull : sink.buf.length ≤ sink.len
    · simpa [grown, hfull] using sink.ensure_room 1
    · simp only [grown, hfull, if_false]
      omega
  { buf := grown.buf.set grown.len x
    len := grown.len + 1
    fits := by rw [List.length_set]; exact hroom
    roomy := by rw [List.length_set]; exact grown.roomy }

/-- Writing at the end of what was written. -/
theorem take_splice_end {buf src : List UInt8} {len : ℕ} (h : len + src.length ≤ buf.length) :
    (splice buf len src).take (len + src.length) = buf.take len ++ src := by
  have hfront : (buf.take len ++ src).length = len + src.length := by
    rw [List.length_append, List.length_take]
    omega
  rw [splice, List.take_left' hfront]

@[simp] theorem pushBytes_written (sink : ByteSink) (src : List UInt8) :
    (sink.pushBytes src).written = sink.written ++ src := by
  have hroom := sink.ensure_room src.length
  have hkept := sink.ensure_written src.length
  rw [written, ensure_len] at hkept
  simp only [written, pushBytes, ensure_len]
  rw [take_splice_end hroom, hkept, written]

theorem set_eq_splice {buf : List UInt8} {i : ℕ} (x : UInt8) (h : i < buf.length) :
    buf.set i x = splice buf i [x] := by
  rw [splice, List.set_eq_take_append_cons_drop, if_pos h]
  simp

theorem take_set_end {buf : List UInt8} {len : ℕ} (x : UInt8) (h : len + 1 ≤ buf.length) :
    (buf.set len x).take (len + 1) = buf.take len ++ [x] := by
  rw [set_eq_splice x (by omega)]
  exact @take_splice_end buf [x] len h

@[simp] theorem byte_written (sink : ByteSink) (x : UInt8) :
    (sink.byte x).written = sink.written ++ [x] := by
  unfold byte
  by_cases hfull : sink.buf.length ≤ sink.len
  · have hroom := sink.ensure_room 1
    have hkept := sink.ensure_written 1
    rw [written, ensure_len] at hkept
    simp only [written, hfull, if_true, ensure_len]
    rw [take_set_end x hroom, hkept, written]
  · simp only [written, hfull, if_false]
    exact take_set_end x (by omega)

/-- The loop of the sink's `u`, which writes the bytes of the plain one. -/
def uFrom (sink : ByteSink) (v : BitVec 32) : ByteSink :=
  if v >>> 7 = 0#32 then sink.byte (toByte (v &&& 0x7f#32))
  else uFrom (sink.byte (toByte (v &&& 0x7f#32 ||| 0x80#32))) (v >>> 7)
termination_by v.toNat
decreasing_by exact ushiftRight_lt ‹_›

def u (sink : ByteSink) (n : Option ℤ) : ByteSink := sink.uFrom (BitVec.ofInt 32 (n.getD 0))

/-- The loop of the sink's `s`. -/
def sFrom (sink : ByteSink) (v : BitVec 32) : ByteSink :=
  if lastSigned v then sink.byte (toByte (v &&& 0x7f#32))
  else sFrom (sink.byte (toByte (v &&& 0x7f#32 ||| 0x80#32))) (v.sshiftRight 7)
termination_by magnitude v
decreasing_by exact magnitude_lt ‹_›

def s (sink : ByteSink) (n : Option ℤ) : ByteSink := sink.sFrom (BitVec.ofInt 32 (n.getD 0))

theorem uFrom_eq (sink : ByteSink) (v : BitVec 32) : sink.uFrom v = (uLoop v).foldl byte sink := by
  induction sink, v using uFrom.induct with
  | case1 sink v hlast =>
    rw [uFrom, uLoop, if_pos hlast, if_pos hlast]
    rfl
  | case2 sink v hmore ih =>
    rw [uFrom, uLoop, if_neg hmore, if_neg hmore, ih]
    rfl

theorem sFrom_eq (sink : ByteSink) (v : BitVec 32) : sink.sFrom v = (sLoop v).foldl byte sink := by
  induction sink, v using sFrom.induct with
  | case1 sink v hlast =>
    rw [sFrom, sLoop, if_pos hlast, if_pos hlast]
    rfl
  | case2 sink v hmore ih =>
    rw [sFrom, sLoop, if_neg hmore, if_neg hmore, ih]
    rfl

theorem foldl_byte_written (src : List UInt8) (sink : ByteSink) :
    (src.foldl byte sink).written = sink.written ++ src := by
  induction src generalizing sink with
  | nil => simp
  | cons x src ih => simp [ih]

theorem u_written (sink : ByteSink) (n : Option ℤ) :
    (sink.u n).written = sink.written ++ SoftmmuLeb.u n := by
  rw [u, uFrom_eq, foldl_byte_written, SoftmmuLeb.u]

theorem s_written (sink : ByteSink) (n : Option ℤ) :
    (sink.s n).written = sink.written ++ SoftmmuLeb.s n := by
  rw [s, sFrom_eq, foldl_byte_written, SoftmmuLeb.s]

/-- `reserve`: the offset of the field, and the sink behind it. -/
def reserve (sink : ByteSink) (n : ℕ) : ℕ × ByteSink :=
  ((sink.ensure n).len,
    { buf := (sink.ensure n).buf
      len := (sink.ensure n).len + n
      fits := by rw [ensure_len]; exact sink.ensure_room n
      roomy := (sink.ensure n).roomy })

/-- The rounds of `patch5`: `k` bytes with a flag and one without. -/
def patchFrom : ℕ → ℕ → BitVec 32 → List UInt8 → List UInt8
  | 0, off, v, buf => buf.set off (toByte (v &&& 0x7f#32))
  | k + 1, off, v, buf =>
    patchFrom k (off + 1) (v >>> 7) (buf.set off (toByte (v &&& 0x7f#32 ||| 0x80#32)))

@[simp] theorem patchFrom_length (k off : ℕ) (v : BitVec 32) (buf : List UInt8) :
    (patchFrom k off v buf).length = buf.length := by
  induction k generalizing off v buf with
  | zero => simp [patchFrom]
  | succ k ih => simp [patchFrom, ih]

def patch5 (sink : ByteSink) (offset : ℕ) (value : ℤ) : ByteSink where
  buf := patchFrom 4 offset (BitVec.ofInt 32 value) sink.buf
  len := sink.len
  fits := by rw [patchFrom_length]; exact sink.fits
  roomy := by rw [patchFrom_length]; exact sink.roomy

def pushPadded5 (sink : ByteSink) (value : ℤ) : ByteSink :=
  (sink.reserve 5).2.patch5 (sink.reserve 5).1 value

/-- Taking back what was written behind `bodyStart`: the pass assigns the length. -/
def rewind (sink : ByteSink) (bodyStart : ℕ) : ByteSink :=
  { sink with len := min bodyStart sink.len, fits := by have := sink.fits; omega }

end ByteSink

/-- The bytes of a padded number, `k` of them with a flag. -/
def padded : ℕ → BitVec 32 → List UInt8
  | 0, v => [toByte (v &&& 0x7f#32)]
  | k + 1, v => toByte (v &&& 0x7f#32 ||| 0x80#32) :: padded k (v >>> 7)

@[simp] theorem padded_length (k : ℕ) (v : BitVec 32) : (padded k v).length = k + 1 := by
  induction k generalizing v with
  | zero => rfl
  | succ k ih => simp [padded, ih]

theorem patchFrom_eq (k off : ℕ) (v : BitVec 32) (buf : List UInt8)
    (hfits : off + (k + 1) ≤ buf.length) :
    ByteSink.patchFrom k off v buf = splice buf off (padded k v) := by
  induction k generalizing off v buf with
  | zero => exact ByteSink.set_eq_splice _ hfits
  | succ k ih =>
    have happend := @splice_append buf [toByte (v &&& 0x7f#32 ||| 0x80#32)] (padded k (v >>> 7))
      off (by simp; omega)
    rw [ByteSink.patchFrom, ih _ _ _ (by rw [List.length_set]; omega),
      ByteSink.set_eq_splice _ (by omega)]
    exact happend.symm

/-- A padded number is read back from all its bytes. -/
theorem ulebAt_padded (k : ℕ) (v : BitVec 32) (rest : List UInt8)
    (hsmall : v.toNat < 128 ^ (k + 1)) : ulebAt (padded k v ++ rest) = (v.toNat, k + 1) := by
  induction k generalizing v with
  | zero =>
    rw [padded, List.cons_append, List.nil_append, ulebAt, if_pos (byte_low_lt v),
      toNat_byte_low, Nat.mod_eq_of_lt (by simpa using hsmall)]
  | succ k ih =>
    have hshift : (v >>> 7).toNat = v.toNat / 128 := by
      rw [BitVec.toNat_ushiftRight, Nat.shiftRight_eq_div_pow]
    rw [Nat.pow_succ] at hsmall
    have hnext := ih (v >>> 7) (by rw [hshift]; omega)
    rw [padded, List.cons_append, ulebAt, if_neg (byte_flagged_not_lt v), hnext,
      toNat_byte_flagged, hshift]
    simp only [Prod.mk.injEq, and_true]
    omega

end NixWasm.SoftmmuLeb
