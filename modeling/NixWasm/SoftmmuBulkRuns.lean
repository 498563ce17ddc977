import NixWasm.SoftmmuBulkRounds

/-!
Whole runs of the bulk helpers. The items are counted from the front, or in the backward copy from
the end; a round stores the next chunk of them and the loop ends with all of them stored. A copy
reads its chunk from bytes that no earlier round has overwritten: forward that is so when the
destination does not start inside the source, and the emitted test for that does not wrap for
ranges inside the address space.
-/
namespace NixWasm.SoftmmuBulk

open Bytes ByteStore Wasm SoftmmuWalk

/-- Where a bulk operation writes: every byte at a place of its own, apart from the entries that
translate it. -/
structure Destination (memory : List UInt8) (root : BitVec 32) (checked : Bool) (d : BitVec 32)
    (n : ℕ) (dst : ℕ → ℕ) : Prop where
  mapped : Mapped memory root checked 1 d n dst
  injective : ∀ i j, i < n → j < n → dst i = dst j → i = j
  apart : ∀ i j, i < n → j < n → ¬ EntryByte memory root (d + BitVec.ofNat 32 i) (dst j)

/-- Where a copy reads: a byte is at a place of the destination only as the same user byte. -/
structure Source (memory : List UInt8) (root : BitVec 32) (checked : Bool) (d s : BitVec 32)
    (n : ℕ) (dst src : ℕ → ℕ) : Prop where
  mapped : Mapped memory root checked 0 s n src
  distinct : ∀ i j, i < n → j < n → dst i = src j → d.toNat + i = s.toNat + j
  apart : ∀ i j, i < n → j < n → ¬ EntryByte memory root (s + BitVec.ofNat 32 i) (dst j)

section Locals
variable {ω : Type} {env : Env ω} {Q : Outcome ω → Prop} {rest : List Instr} {st ls : List Value}
  {σ : Store ω} {v c n : BitVec 32}

theorem wp_advance {x : ℕ} (hx : ls[x]? = some (.i32 v)) (hc : ls[3]? = some (.i32 c)) :
    Wp env (advance x ++ rest) Q ⟨st, ls, σ⟩ ↔
      Wp env rest Q ⟨st, ls.set x (.i32 (v + c)), σ⟩ := by
  simp only [advance, List.cons_append, List.nil_append, wp_localGet, hx, hc, Option.some.injEq,
    exists_eq_left', wp_num, NumOp.eval, wp_localSet]

theorem wp_consume (hn : ls[2]? = some (.i32 n)) (hc : ls[3]? = some (.i32 c)) :
    Wp env (consume ++ rest) Q ⟨st, ls, σ⟩ ↔
      Wp env rest Q ⟨st, ls.set 2 (.i32 (n - c)), σ⟩ := by
  simp only [consume, List.cons_append, List.nil_append, wp_localGet, hn, hc, Option.some.injEq,
    exists_eq_left', wp_num, NumOp.eval, wp_localSet]

theorem wp_behind {x : ℕ} (hx : ls[x]? = some (.i32 v)) (hn : ls[2]? = some (.i32 n)) :
    Wp env (behind x ++ rest) Q ⟨st, ls, σ⟩ ↔ Wp env rest Q ⟨.i32 (v + n) :: st, ls, σ⟩ := by
  simp only [behind, List.cons_append, List.nil_append, wp_localGet, hx, hn, Option.some.injEq,
    exists_eq_left', wp_num, NumOp.eval]

theorem advance_eq (a c : BitVec 32) (i : ℕ) :
    a + BitVec.ofNat 32 i + c = a + BitVec.ofNat 32 (i + c.toNat) := by
  apply BitVec.eq_of_toNat_eq
  simp only [BitVec.toNat_add, BitVec.toNat_ofNat]
  omega

theorem toNat_pos {r : BitVec 32} (hr : r ≠ 0) : 0 < r.toNat := by
  by_contra hzero
  exact hr (BitVec.eq_of_toNat_eq (by simpa using hzero))

theorem add_toNat {a : BitVec 32} {i : ℕ} (h : a.toNat + i < 2 ^ 32) :
    (a + BitVec.ofNat 32 i).toNat = a.toNat + i := by
  rw [BitVec.toNat_add, BitVec.toNat_ofNat]
  omega

theorem sub_toNat {r c : BitVec 32} (h : c.toNat ≤ r.toNat) :
    (r - c).toNat = r.toNat - c.toNat := by
  rw [BitVec.toNat_sub]
  omega

/-- A forward chunk is not empty, and stays inside what is left and the bound. -/
theorem fwdChunk {b r : BitVec 32} (hr : r ≠ 0) (hb : 0 < b.toNat) :
    0 < (minBits b r).toNat ∧ (minBits b r).toNat ≤ r.toNat ∧ (minBits b r).toNat ≤ b.toNat := by
  have hpos := toNat_pos hr
  rw [minBits_toNat]
  omega

end Locals

section Rounds
variable {ω : Type} {env : Env ω} {Q : Outcome ω → Prop} {rest : List Instr} {st ls : List Value}
  {σ : Store ω} {g translateFunc : ℕ} {ckFunc : Option ℕ} {root a : BitVec 32} {n : ℕ}
  {place dst : ℕ → ℕ} {item : ℕ → Option UInt8} {memory' : List UInt8} {done : ℕ → Prop}

/-- Translating an address of a range while the destination is being filled. -/
theorem wp_translateAt (hlinked : Linked env g translateFunc ckFunc)
    (hroot : σ.globals g = .i32 root) {kind : ℕ} (hkind : kind ≤ 1)
    (hmapped : Mapped σ.memory root ckFunc.isSome kind a n place)
    (hscattered : Scattered σ.memory memory' dst item done) {i : ℕ} (hi : i < n)
    (hapart : ∀ j, done j → ¬ EntryByte σ.memory root (a + BitVec.ofNat 32 i) (dst j))
    (hQ : ∀ x : BitVec 32, x.toNat = place i →
      Wp env rest Q ⟨.i32 x :: st, ls, { σ with memory := memory' }⟩) :
    Wp env (emitTranslateCall translateFunc ckFunc kind ++ rest) Q
      ⟨.i32 (a + BitVec.ofNat 32 i) :: st, ls, { σ with memory := memory' }⟩ := by
  obtain ⟨e, p, hwalk, hpresent, hplace⟩ := hmapped.walks i hi
  have hwalk' : walk memory' root (a + BitVec.ofNat 32 i) = some (e, p) :=
    (walk_scattered hscattered hapart).trans hwalk
  have hroot' : ({ σ with memory := memory' } : Store ω).globals g = .i32 root := hroot
  exact wp_emitTranslateCall hlinked hroot' hkind hwalk' hpresent (hQ _ hplace)

/-- A chunk of a range: consecutive places inside the memory. -/
theorem Mapped.chunk {memory : List UInt8} {a : BitVec 32} {place : ℕ → ℕ} {checked : Bool}
    {kind : ℕ} (h : Mapped memory root checked kind a n place) {i C : ℕ} (hpos : 0 < C)
    (hC : i + C ≤ n) (hpage : (a.toNat + i) % 4096 + C ≤ 4096) :
    (∀ j, j < C → place (i + j) = place i + j) ∧ place i + C ≤ memory.length := by
  have hplace : ∀ j, j < C → place (i + j) = place i + j := fun j hj =>
    h.consecutive (by omega) (by omega)
  refine ⟨hplace, ?_⟩
  have hlast := h.inside (i + (C - 1)) (by omega)
  rw [hplace (C - 1) (by omega)] at hlast
  omega

/-- The bytes of a chunk are stored behind those before it. -/
theorem Destination.store {checked : Bool} (h : Destination σ.memory root checked a n dst) {i : ℕ}
    {bytes : List UInt8} (hscattered : Scattered σ.memory memory' dst item (· < i))
    (hpos : 0 < bytes.length) (hC : i + bytes.length ≤ n)
    (hpage : (a.toNat + i) % 4096 + bytes.length ≤ 4096)
    (hitem : ∀ j, j < bytes.length → bytes[j]? = item (i + j)) :
    Scattered σ.memory (splice memory' (dst i) bytes) dst item (· < i + bytes.length) := by
  obtain ⟨hplace, hfits⟩ := h.mapped.chunk hpos hC hpage
  refine (hscattered.piece hplace hfits hitem fun j k hj hk hsame => ?_).congr fun j => by omega
  have heq := h.injective j (i + k) (by omega) (by omega) hsame
  omega

end Rounds

section Chunks
variable {ω : Type} {env : Env ω} {st : List Value} {σ : Store ω} {g translateFunc : ℕ}
  {ckFunc : Option ℕ} {root d : BitVec 32} {n : ℕ} {dst : ℕ → ℕ} {memory' : List UInt8}

theorem wp_memfillRound (hlinked : Linked env g translateFunc ckFunc)
    (hroot : σ.globals g = .i32 root) (h : Destination σ.memory root ckFunc.isSome d n dst)
    {v r : BitVec 32} {i : ℕ} (hi : i + r.toNat = n) (hr : r ≠ 0) (c₀ : Value)
    (hscattered : Scattered σ.memory memory' dst (fun _ => some (UInt8.ofNat v.toNat)) (· < i)) :
    Wp env (memfillRound translateFunc ckFunc) (fun o => ∃ (c : BitVec 32) (memory'' : List UInt8),
        0 < c.toNat ∧ c.toNat ≤ r.toNat ∧
        o = .next ⟨st, [.i32 (d + BitVec.ofNat 32 (i + c.toNat)), .i32 v, .i32 (r - c), .i32 c],
          { σ with memory := memory'' }⟩ ∧
        Scattered σ.memory memory'' dst (fun _ => some (UInt8.ofNat v.toNat)) (· < i + c.toNat))
      ⟨st, [.i32 (d + BitVec.ofNat 32 i), .i32 v, .i32 r, c₀], { σ with memory := memory' }⟩ := by
  have hin : i < n := by have := toNat_pos hr; omega
  have hx := h.mapped.address hin
  have hfwd := fwdBound_toNat (d + BitVec.ofNat 32 i)
  obtain ⟨hpos, hle, hpage⟩ := fwdChunk hr (b := fwdBound (d + BitVec.ofNat 32 i)) (by omega)
  rw [memfillRound, wp_emitFwdBound rfl]
  dsimp only [List.set]
  rw [emitMinCN, wp_emitMin rfl rfl]
  dsimp only [List.set]
  rw [wp_localGet]
  refine ⟨_, rfl, ?_⟩
  refine wp_translateAt hlinked hroot (by omega) h.mapped hscattered hin
    (fun j hj => h.apart i j hin (by omega)) fun x hplace => ?_
  generalize hc : minBits (fwdBound (d + BitVec.ofNat 32 i)) r = c at *
  have hpage' : (d.toNat + i) % 4096 + c.toNat ≤ 4096 := by omega
  obtain ⟨-, hfits⟩ := h.mapped.chunk hpos (by omega) hpage'
  obtain ⟨bytes, hfill⟩ : ∃ bytes, bytes = List.replicate c.toNat (UInt8.ofNat v.toNat) := ⟨_, rfl⟩
  have hlength : bytes.length = c.toNat := by rw [hfill, List.length_replicate]
  have hstored : Scattered σ.memory (splice memory' (dst i) bytes) dst
      (fun _ => some (UInt8.ofNat v.toNat)) (· < i + bytes.length) :=
    h.store hscattered (by omega) (by omega) (by omega) fun j hj => by
      simp [hfill, hlength ▸ hj]
  rw [hlength, hfill] at hstored
  rw [wp_localGet]
  refine ⟨_, rfl, ?_⟩
  rw [wp_localGet]
  refine ⟨_, rfl, ?_⟩
  have hlen := hscattered.length
  rw [wp_memoryFill x v c (by rw [hlen, hplace]; exact hfits), wp_advance rfl rfl]
  dsimp only [List.set]
  rw [← List.append_nil consume, wp_consume rfl rfl, wp_nil]
  refine ⟨c, _, hpos, hle, ?_, hstored⟩
  rw [advance_eq, hplace]
  rfl

theorem wp_meminitRound (hlinked : Linked env g translateFunc ckFunc)
    (hroot : σ.globals g = .i32 root) (h : Destination σ.memory root ckFunc.isSome d n dst)
    {s r : BitVec 32} {seg i : ℕ} (hs : s.toNat + n ≤ 2 ^ 32)
    (hdata : s.toNat + n ≤ (σ.datas seg).length) (hi : i + r.toNat = n) (hr : r ≠ 0) (c₀ : Value)
    (hscattered : Scattered σ.memory memory' dst (fun i => (σ.datas seg)[s.toNat + i]?) (· < i)) :
    Wp env (meminitRound translateFunc ckFunc seg)
      (fun o => ∃ (c : BitVec 32) (memory'' : List UInt8), 0 < c.toNat ∧ c.toNat ≤ r.toNat ∧
        o = .next ⟨st, [.i32 (d + BitVec.ofNat 32 (i + c.toNat)),
          .i32 (s + BitVec.ofNat 32 (i + c.toNat)), .i32 (r - c), .i32 c],
          { σ with memory := memory'' }⟩ ∧
        Scattered σ.memory memory'' dst (fun i => (σ.datas seg)[s.toNat + i]?) (· < i + c.toNat))
      ⟨st, [.i32 (d + BitVec.ofNat 32 i), .i32 (s + BitVec.ofNat 32 i), .i32 r, c₀],
        { σ with memory := memory' }⟩ := by
  have hin : i < n := by have := toNat_pos hr; omega
  have hx := h.mapped.address hin
  have hsrc : (s + BitVec.ofNat 32 i).toNat = s.toNat + i := add_toNat (by omega)
  have hfwd := fwdBound_toNat (d + BitVec.ofNat 32 i)
  obtain ⟨hpos, hle, hpage⟩ := fwdChunk hr (b := fwdBound (d + BitVec.ofNat 32 i)) (by omega)
  rw [meminitRound, wp_emitFwdBound rfl]
  dsimp only [List.set]
  rw [emitMinCN, wp_emitMin rfl rfl]
  dsimp only [List.set]
  rw [wp_localGet]
  refine ⟨_, rfl, ?_⟩
  refine wp_translateAt hlinked hroot (by omega) h.mapped hscattered hin
    (fun j hj => h.apart i j hin (by omega)) fun x hplace => ?_
  generalize hc : minBits (fwdBound (d + BitVec.ofNat 32 i)) r = c at *
  have hpage' : (d.toNat + i) % 4096 + c.toNat ≤ 4096 := by omega
  obtain ⟨-, hfits⟩ := h.mapped.chunk hpos (by omega) hpage'
  obtain ⟨bytes, hload, hlength, hbytes⟩ :=
    (Scattered.none (σ.datas seg) dst fun _ => none).load_unread
    (show (s + BitVec.ofNat 32 i).toNat + c.toNat ≤ (σ.datas seg).length by omega)
    fun _ _ hj _ => hj.elim
  have hload' : load (Store.datas { σ with memory := memory' } seg)
      (s + BitVec.ofNat 32 i).toNat c.toNat = some bytes := hload
  have hstored : Scattered σ.memory (splice memory' (dst i) bytes) dst
      (fun i => (σ.datas seg)[s.toNat + i]?) (· < i + bytes.length) :=
    h.store hscattered (by omega) (by omega) (by omega) fun j hj => by
      rw [hbytes j (by omega), hsrc, Nat.add_assoc]
  rw [hlength] at hstored
  rw [wp_localGet]
  refine ⟨_, rfl, ?_⟩
  rw [wp_localGet]
  refine ⟨_, rfl, ?_⟩
  have hlen := hscattered.length
  rw [wp_memoryInit seg x _ c hload' (by rw [hlen, hplace, hlength]; exact hfits),
    wp_advance rfl rfl]
  dsimp only [List.set]
  rw [wp_advance rfl rfl]
  dsimp only [List.set]
  rw [← List.append_nil consume, wp_consume rfl rfl, wp_nil]
  refine ⟨c, _, hpos, hle, ?_, hstored⟩
  rw [advance_eq, advance_eq, hplace]
  rfl

/-- A round of the forward copy. Its source chunk is unread when the destination is not inside the
source. -/
theorem wp_memcpyForward {s : BitVec 32} {src : ℕ → ℕ}
    (hlinked : Linked env g translateFunc ckFunc) (hroot : σ.globals g = .i32 root)
    (h : Destination σ.memory root ckFunc.isSome d n dst)
    (h' : Source σ.memory root ckFunc.isSome d s n dst src)
    (horder : d.toNat ≤ s.toNat ∨ s.toNat + n ≤ d.toNat) {r : BitVec 32} {i : ℕ}
    (hi : i + r.toNat = n) (hr : r ≠ 0) (c₀ t₀ : Value)
    (hscattered : Scattered σ.memory memory' dst (fun i => σ.memory[src i]?) (· < i)) :
    Wp env (memcpyForward translateFunc ckFunc)
      (fun o => ∃ (c t : BitVec 32) (memory'' : List UInt8), 0 < c.toNat ∧ c.toNat ≤ r.toNat ∧
        o = .next ⟨st, [.i32 (d + BitVec.ofNat 32 (i + c.toNat)),
          .i32 (s + BitVec.ofNat 32 (i + c.toNat)), .i32 (r - c), .i32 c, .i32 t],
          { σ with memory := memory'' }⟩ ∧
        Scattered σ.memory memory'' dst (fun i => σ.memory[src i]?) (· < i + c.toNat))
      ⟨st, [.i32 (d + BitVec.ofNat 32 i), .i32 (s + BitVec.ofNat 32 i), .i32 r, c₀, t₀],
        { σ with memory := memory' }⟩ := by
  have hin : i < n := by have := toNat_pos hr; omega
  have hx := h.mapped.address hin
  have hy := h'.mapped.address hin
  have hfwd := fwdBound_toNat (d + BitVec.ofNat 32 i)
  have hfwd' := fwdBound_toNat (s + BitVec.ofNat 32 i)
  have hmin := minBits_toNat (fwdBound (d + BitVec.ofNat 32 i)) (fwdBound (s + BitVec.ofNat 32 i))
  obtain ⟨hpos, hle, hpage⟩ := fwdChunk hr (b := minBits (fwdBound (d + BitVec.ofNat 32 i))
    (fwdBound (s + BitVec.ofNat 32 i))) (by omega)
  rw [memcpyForward, wp_emitFwdBound rfl]
  dsimp only [List.set]
  rw [wp_emitFwdBound rfl]
  dsimp only [List.set]
  rw [emitMinCT, wp_emitMin rfl rfl]
  dsimp only [List.set]
  rw [emitMinCN, wp_emitMin rfl rfl]
  dsimp only [List.set]
  rw [wp_localGet]
  refine ⟨_, rfl, ?_⟩
  refine wp_translateAt hlinked hroot (by omega) h.mapped hscattered hin
    (fun j hj => h.apart i j hin (by omega)) fun x hplace => ?_
  rw [wp_localGet]
  refine ⟨_, rfl, ?_⟩
  refine wp_translateAt hlinked hroot (by omega) h'.mapped hscattered hin
    (fun j hj => h'.apart i j hin (by omega)) fun y hplace' => ?_
  generalize hc : minBits (minBits (fwdBound (d + BitVec.ofNat 32 i))
    (fwdBound (s + BitVec.ofNat 32 i))) r = c at *
  have hpage' : (d.toNat + i) % 4096 + c.toNat ≤ 4096 := by omega
  obtain ⟨-, hfits⟩ := h.mapped.chunk hpos (by omega) hpage'
  obtain ⟨hsrc, hfits'⟩ := h'.mapped.chunk (i := i) (C := c.toNat) hpos (by omega) (by omega)
  obtain ⟨bytes, hload, hlength, hbytes⟩ := hscattered.load_unread hfits' fun j k hj hk hsame => by
    have heq := h'.distinct j (i + k) (by omega) (by omega) (by rw [hsame, hsrc k hk])
    omega
  have hstored : Scattered σ.memory (splice memory' (dst i) bytes) dst
      (fun i => σ.memory[src i]?) (· < i + bytes.length) :=
    h.store hscattered (by omega) (by omega) (by omega) fun j hj => by
      rw [hbytes j (by omega), hsrc j (by omega)]
  rw [hlength] at hstored
  rw [← hplace'] at hload
  rw [wp_localGet]
  refine ⟨_, rfl, ?_⟩
  have hlen := hscattered.length
  rw [wp_memoryCopy x y c hload (by rw [hlen, hplace, hlength]; exact hfits),
    wp_advance rfl rfl]
  dsimp only [List.set]
  rw [wp_advance rfl rfl]
  dsimp only [List.set]
  rw [← List.append_nil consume, wp_consume rfl rfl, wp_nil]
  refine ⟨c, fwdBound (s + BitVec.ofNat 32 i), _, hpos, hle, ?_, hstored⟩
  rw [advance_eq, advance_eq, hplace]
  rfl

/-- A round of the backward copy: the last chunk of the `r` bytes left, whose source no chunk behind
it has overwritten. -/
theorem wp_memcpyBackward {s : BitVec 32} {src : ℕ → ℕ}
    (hlinked : Linked env g translateFunc ckFunc) (hroot : σ.globals g = .i32 root)
    (h : Destination σ.memory root ckFunc.isSome d n dst)
    (h' : Source σ.memory root ckFunc.isSome d s n dst src) (horder : s.toNat < d.toNat)
    {r : BitVec 32} (hn : r.toNat ≤ n) (hr : r ≠ 0) (c₀ t₀ : Value)
    (hscattered : Scattered σ.memory memory' dst (fun i => σ.memory[src i]?)
      fun i => r.toNat ≤ i ∧ i < n) :
    Wp env (memcpyBackward translateFunc ckFunc)
      (fun o => ∃ (c t : BitVec 32) (memory'' : List UInt8), 0 < c.toNat ∧ c.toNat ≤ r.toNat ∧
        o = .next ⟨st, [.i32 d, .i32 s, .i32 (r - c), .i32 c, .i32 t],
          { σ with memory := memory'' }⟩ ∧
        Scattered σ.memory memory'' dst (fun i => σ.memory[src i]?)
          fun i => r.toNat - c.toNat ≤ i ∧ i < n)
      ⟨st, [.i32 d, .i32 s, .i32 r, c₀, t₀], { σ with memory := memory' }⟩ := by
  have hrpos := toNat_pos hr
  have hdbound := h.mapped.bound
  have hsbound := h'.mapped.bound
  have hbwd := bwdBound_toNat (x := d) hr (by omega)
  have hbwd' := bwdBound_toNat (x := s) hr (by omega)
  have hmin := minBits_toNat (bwdBound d r) (bwdBound s r)
  obtain ⟨hpos, hle, hpage⟩ := fwdChunk hr (b := minBits (bwdBound d r) (bwdBound s r)) (by omega)
  rw [memcpyBackward, wp_emitBwdBound rfl rfl]
  dsimp only [List.set]
  rw [wp_emitBwdBound rfl rfl]
  dsimp only [List.set]
  rw [emitMinCT, wp_emitMin rfl rfl]
  dsimp only [List.set]
  rw [emitMinCN, wp_emitMin rfl rfl]
  dsimp only [List.set]
  rw [wp_consume rfl rfl]
  dsimp only [List.set]
  generalize hc : minBits (minBits (bwdBound d r) (bwdBound s r)) r = c at *
  -- the chunk starts at `i`, and the local that is left holds it already
  obtain ⟨i, hi⟩ : ∃ i, i = r.toNat - c.toNat := ⟨_, rfl⟩
  have hleft : r - c = BitVec.ofNat 32 i := by
    apply BitVec.eq_of_toNat_eq
    rw [sub_toNat hle, BitVec.toNat_ofNat]
    omega
  have hin : i < n := by omega
  rw [wp_behind rfl rfl, hleft]
  refine wp_translateAt hlinked hroot (by omega) h.mapped hscattered hin
    (fun j hj => h.apart i j hin hj.2) fun x hplace => ?_
  rw [wp_behind rfl rfl]
  refine wp_translateAt hlinked hroot (by omega) h'.mapped hscattered hin
    (fun j hj => h'.apart i j hin hj.2) fun y hplace' => ?_
  obtain ⟨hdst, hfits⟩ := h.mapped.chunk (i := i) hpos (by omega) (by omega)
  obtain ⟨hsrc, hfits'⟩ := h'.mapped.chunk (i := i) hpos (by omega) (by omega)
  obtain ⟨bytes, hload, hlength, hbytes⟩ := hscattered.load_unread hfits' fun j k hj hk hsame => by
    have heq := h'.distinct j (i + k) hj.2 (by omega) (by rw [hsame, hsrc k hk])
    omega
  have hstored : Scattered σ.memory (splice memory' (dst i) bytes) dst
      (fun i => σ.memory[src i]?) fun j => i ≤ j ∧ j < n := by
    refine (hscattered.piece (k := i) (by rwa [hlength]) (by omega) (fun j hj => ?_)
      fun j k hj hk hsame => ?_).congr fun j => by omega
    · rw [hbytes j (by omega), hsrc j (by omega)]
    · have heq := h.injective j (i + k) hj.2 (by omega) hsame
      omega
  rw [← hplace'] at hload
  rw [wp_localGet]
  refine ⟨_, rfl, ?_⟩
  have hlen := hscattered.length
  rw [wp_memoryCopy x y c hload (by rw [hlen, hplace, hlength]; exact hfits), wp_nil]
  refine ⟨c, bwdBound s r, splice memory' (dst i) bytes, hpos, hle, ?_, by rwa [← hi]⟩
  rw [hplace, hleft]

end Chunks

end NixWasm.SoftmmuBulk
