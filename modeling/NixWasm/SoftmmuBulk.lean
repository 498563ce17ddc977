import NixWasm.SoftmmuWalk
import NixWasm.WasmLoops

/-!
The appended helpers for memory.copy, memory.fill and memory.init. Their ranges are user addresses,
so each works in chunks that stay inside a page of every translated operand, and translates once
a chunk. A chunk's bound is computed as the emitted code does, in 32-bit arithmetic.
-/
namespace NixWasm.SoftmmuBulk

open Bytes ByteStore Wasm SoftmmuWalk

section Emit

/-- `c = min(c, t)`, with select. -/
def emitMin (c t : ℕ) : List Instr :=
  [.localGet c, .localGet t, .localGet c, .localGet t, .num .i32LtU, .select, .localSet c]

def emitMinCT (c t : ℕ) : List Instr := emitMin c t

def emitMinCN (c n : ℕ) : List Instr := emitMin c n

/-- `PAGE - (x & 0xfff)`. -/
def emitFwdBound (x dst : ℕ) : List Instr :=
  [i32c 4096, .localGet x, i32c 0xfff, .num .i32And, .num .i32Sub, .localSet dst]

/-- `((x + n - 1) & 0xfff) + 1`. -/
def emitBwdBound (x n dst : ℕ) : List Instr :=
  [.localGet x, .localGet n, .num .i32Add, i32c 1, .num .i32Sub, i32c 0xfff, .num .i32And, i32c 1,
    .num .i32Add, .localSet dst]

/-- The translation of the address on the stack; checked mode has `ckFunc`. -/
def emitTranslateCall (translateFunc : ℕ) (ckFunc : Option ℕ) (kind : ℕ) : List Instr :=
  match ckFunc with
  | some ck => [i32c kind, .call ck]
  | none => [.call translateFunc]

/-- `n -= c`, in locals 2 and 3. -/
def consume : List Instr := [.localGet 2, .localGet 3, .num .i32Sub, .localSet 2]

/-- `x += c`. -/
def advance (x : ℕ) : List Instr := [.localGet x, .localGet 3, .num .i32Add, .localSet x]

/-- `x + n`, on the stack. -/
def behind (x : ℕ) : List Instr := [.localGet x, .localGet 2, .num .i32Add]

variable (translateFunc : ℕ) (ckFunc : Option ℕ)

/-- A round of the backward loop: the last chunk of what is left. -/
def memcpyBackward : List Instr :=
  emitBwdBound 0 2 3 ++ (emitBwdBound 1 2 4 ++ (emitMinCT 3 4 ++ (emitMinCN 3 2 ++ (consume ++
    (behind 0 ++ (emitTranslateCall translateFunc ckFunc 1 ++ (behind 1 ++
      (emitTranslateCall translateFunc ckFunc 0 ++ [.localGet 3, .memoryCopy]))))))))

/-- A round of the forward loop. -/
def memcpyForward : List Instr :=
  emitFwdBound 0 3 ++ (emitFwdBound 1 4 ++ (emitMinCT 3 4 ++ (emitMinCN 3 2 ++ (.localGet 0 ::
    (emitTranslateCall translateFunc ckFunc 1 ++ (.localGet 1 ::
      (emitTranslateCall translateFunc ckFunc 0 ++ (.localGet 3 :: .memoryCopy ::
        (advance 0 ++ (advance 1 ++ consume))))))))))

/-- `__mmu_memcpy(d, s, n)`, with its locals c and t. -/
def memcpyHelperBody : List Instr :=
  [.block none
    [.localGet 0, .localGet 1, .num .i32LeU, .brIf 0,
      .localGet 0, .localGet 1, .localGet 2, .num .i32Add, .num .i32GeU, .brIf 0,
      whileNonzero 2 (memcpyBackward translateFunc ckFunc), .ret],
    whileNonzero 2 (memcpyForward translateFunc ckFunc)]

def memfillRound : List Instr :=
  emitFwdBound 0 3 ++ (emitMinCN 3 2 ++ (.localGet 0 ::
    (emitTranslateCall translateFunc ckFunc 1 ++ (.localGet 1 :: .localGet 3 :: .memoryFill ::
      (advance 0 ++ consume)))))

/-- `__mmu_memfill(d, v, n)`, with its local c. -/
def memfillHelperBody : List Instr := [whileNonzero 2 (memfillRound translateFunc ckFunc)]

def meminitRound (seg : ℕ) : List Instr :=
  emitFwdBound 0 3 ++ (emitMinCN 3 2 ++ (.localGet 0 ::
    (emitTranslateCall translateFunc ckFunc 1 ++ (.localGet 1 :: .localGet 3 :: .memoryInit seg ::
      (advance 0 ++ (advance 1 ++ consume))))))

/-- `__mmu_meminit_<seg>(d, s, n)`. -/
def meminitHelperBody (seg : ℕ) : List Instr :=
  [whileNonzero 2 (meminitRound translateFunc ckFunc seg)]

end Emit

section Pages
variable {memory : List UInt8} {root va va' : BitVec 32}

theorem frame_toNat_le (p : BitVec 32) : (p &&& ~~~0xfff#32).toNat ≤ 0xfffff000 := by
  rw [BitVec.toNat_and]
  exact Nat.and_le_right

theorem phys_toNat (p va : BitVec 32) :
    (phys p va).toNat = (p &&& ~~~0xfff#32).toNat + va.toNat % 4096 := by
  have hoffset : (va &&& 0xfff#32).toNat = va.toNat % 4096 := by
    rw [BitVec.toNat_and]
    exact Nat.and_two_pow_sub_one_eq_mod va.toNat 12
  have hle := frame_toNat_le p
  have hlt : va.toNat % 4096 < 4096 := Nat.mod_lt _ (by decide)
  rw [phys, BitVec.toNat_add, hoffset, Nat.mod_eq_of_lt]
  omega

/-- Addresses of one page have one walk. -/
theorem walk_page (h : va.toNat / 4096 = va'.toNat / 4096) :
    walk memory root va = walk memory root va' := by
  have hpage : va >>> 12 = va' >>> 12 := by
    apply BitVec.eq_of_toNat_eq
    rw [BitVec.toNat_ushiftRight, BitVec.toNat_ushiftRight, Nat.shiftRight_eq_div_pow,
      Nat.shiftRight_eq_div_pow]
    exact h
  have hindex : va >>> 22 = va' >>> 22 := by
    have hsplit : ∀ x : BitVec 32, x >>> 22 = (x >>> 12) >>> 10 := fun x =>
      (BitVec.shiftRight_add x 12 10)
    rw [hsplit va, hsplit va', hpage]
  rw [walk, walk, pgdAddr, pgdAddr, hindex]
  congr 1
  funext e
  rw [pteAddr, pteAddr, hpage]

/-- The positions of the entries that a walk reads. -/
def EntryByte (memory : List UInt8) (root va : BitVec 32) (q : ℕ) : Prop :=
  ((pgdAddr root va).toNat ≤ q ∧ q < (pgdAddr root va).toNat + 4) ∨
  ∃ e, read32 memory (pgdAddr root va) = some e ∧
    (pteAddr e va).toNat ≤ q ∧ q < (pteAddr e va).toNat + 4

theorem walk_congr {memory' : List UInt8} (hlen : memory'.length = memory.length)
    (hentry : ∀ q, EntryByte memory root va q → memory'[q]? = memory[q]?) :
    walk memory' root va = walk memory root va := by
  have hpgd : read32 memory' (pgdAddr root va) = read32 memory (pgdAddr root va) := by
    rw [read32, read32, load_congr hlen fun q hlow hhigh => hentry q (Or.inl ⟨hlow, hhigh⟩)]
  rw [walk, walk, hpgd]
  refine Option.bind_congr fun e he => ?_
  rw [read32, read32, load_congr hlen fun q hlow hhigh =>
    hentry q (Or.inr ⟨e, he, hlow, hhigh⟩)]

end Pages

end NixWasm.SoftmmuBulk
