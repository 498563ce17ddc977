import NixWasm.SoftmmuBulk
import NixWasm.Scatter

/-!
A round of the bulk helpers. The translation functions are called with pages that are there, so they
return the address of the walk; the walks stay those of the memory before the operation, because
its destination is apart from the page tables; and a round's chunk has consecutive places.
-/
namespace NixWasm.SoftmmuBulk

open Bytes ByteStore Wasm SoftmmuWalk

section Translators
variable {ω : Type} {env : Env ω} {g : ℕ} {σ : Store ω} {root va e p : BitVec 32}

theorem loopFree_translateBody (g : ℕ) : LoopFree (translateBody g) := by
  simp [translateBody, readPgd, readPte, framePlus, i32c, LoopFree, LoopFreeInstr]

theorem loopFree_emitFault (fault : FaultCall) : LoopFree (emitFault fault ++ [.br 1]) := by
  cases fault <;> simp [emitFault, i32c, LoopFree, LoopFreeInstr]

theorem loopFree_checkedRound (g : ℕ) (fault : FaultCall) : LoopFree (checkedRound g fault) := by
  have hfault := loopFree_emitFault fault
  simp [checkedRound, readPgd, readPte, framePlus, i32c, LoopFree, LoopFreeInstr, hfault]

/-- `__mmu_translate` with any fuel. -/
theorem translateBody_run (fuel : ℕ) (hroot : σ.globals g = .i32 root)
    (hwalk : walk σ.memory root va = some (e, p)) :
    (Func.ofBody env fuel 1 1 [] (translateBody g)).run [.i32 va] σ =
      some (.values [.i32 (phys p va)] σ) := by
  obtain ⟨hpgd, hpte⟩ : read32 σ.memory (pgdAddr root va) = some e ∧
      read32 σ.memory (pteAddr e va) = some p := by
    simp only [walk, Option.bind_eq_some_iff, Option.map_eq_some_iff, Prod.mk.injEq] at hwalk
    obtain ⟨e', he', p', hp', rfl, rfl⟩ := hwalk
    exact ⟨he', hp'⟩
  have hwp : Wp env (translateBody g) (fun o => o = .next ⟨[.i32 (phys p va)], [.i32 va], σ⟩)
      ⟨[], [.i32 va], σ⟩ := by
    rw [translateBody, List.append_assoc, wp_readPgd hroot rfl, hpgd]
    dsimp only
    rw [wp_readPte e rfl, hpte]
    dsimp only
    rw [← List.append_nil (framePlus 0), wp_framePlus p rfl, wp_nil]
  obtain ⟨o, ho, rfl⟩ := hwp.loopFree (loopFree_translateBody g) fuel
  simp only [Func.ofBody, List.append_nil]
  rw [ho]
  rfl

/-- `__mmu_translate_ck` with fuel for one round. -/
theorem checkedTranslateBody_run (fuel : ℕ) (fault : FaultCall) (hroot : σ.globals g = .i32 root)
    {kind : ℕ} (hkind : kind ≤ 1) (hwalk : walk σ.memory root va = some (e, p))
    (hpresent : Present kind e p) :
    (Func.ofBody env (fuel + 1) 2 1 [.i32 0, .i32 0, .i32 0] (checkedTranslateBody g fault)).run
        [.i32 va, .i32 (BitVec.ofNat 32 kind)] σ =
      some (.values [.i32 (phys p va)] σ) := by
  have hwp : Wp env (checkedRound g fault) (fun o => o = .br 1 ⟨[.i32 (phys p va)],
      [.i32 va, .i32 (BitVec.ofNat 32 kind), .i32 e, .i32 p, .i32 (need kind)], σ⟩)
      ⟨[], [.i32 va, .i32 (BitVec.ofNat 32 kind), .i32 0, .i32 0, .i32 0], σ⟩ :=
    wp_checkedRound_present fault hroot hkind hwalk hpresent _ _ _ rfl
  obtain ⟨o, ho, rfl⟩ := hwp.loopFree (loopFree_checkedRound g fault) (fuel + 1)
  simp only [Func.ofBody, checkedTranslateBody, exec, step, iterate, List.cons_append,
    List.nil_append, ho]
  rfl

/-- The helpers call the appended translation function of their mode. -/
def Linked (env : Env ω) (g translateFunc : ℕ) : Option ℕ → Prop
  | none => ∃ (envT : Env ω) (fuel : ℕ),
    env.funcs translateFunc = Func.ofBody envT fuel 1 1 [] (translateBody g)
  | some ck => ∃ (envT : Env ω) (fuel : ℕ) (fault : FaultCall),
    env.funcs ck = Func.ofBody envT (fuel + 1) 2 1 [.i32 0, .i32 0, .i32 0]
      (checkedTranslateBody g fault)

variable {Q : Outcome ω → Prop} {rest : List Instr} {st ls : List Value}

theorem wp_emitTranslateCall {translateFunc : ℕ} {ckFunc : Option ℕ}
    (hlinked : Linked env g translateFunc ckFunc) (hroot : σ.globals g = .i32 root) {kind : ℕ}
    (hkind : kind ≤ 1) (hwalk : walk σ.memory root va = some (e, p))
    (hpresent : ckFunc.isSome → Present kind e p)
    (hQ : Wp env rest Q ⟨.i32 (phys p va) :: st, ls, σ⟩) :
    Wp env (emitTranslateCall translateFunc ckFunc kind ++ rest) Q ⟨.i32 va :: st, ls, σ⟩ := by
  cases ckFunc with
  | none =>
    obtain ⟨envT, fuel, hfunc⟩ := hlinked
    have hargs : [Value.i32 va].length = (env.funcs translateFunc).params := by
      rw [hfunc]
      rfl
    refine (wp_call translateFunc hargs).mpr ⟨.values [.i32 (phys p va)] σ, ?_, hQ⟩
    rw [hfunc]
    exact translateBody_run fuel hroot hwalk
  | some ck =>
    obtain ⟨envT, fuel, fault, hfunc⟩ := hlinked
    have hargs : [Value.i32 va, .i32 (BitVec.ofInt 32 kind)].length = (env.funcs ck).params := by
      rw [hfunc]
      rfl
    simp only [emitTranslateCall, List.cons_append, List.nil_append, wp_i32c]
    refine (wp_call ck hargs).mpr ⟨.values [.i32 (phys p va)] σ, ?_, hQ⟩
    rw [hfunc]
    exact checkedTranslateBody_run fuel fault hroot hkind hwalk (hpresent rfl)

end Translators

section Bounds
variable {ω : Type} {env : Env ω} {Q : Outcome ω → Prop} {rest : List Instr} {st ls : List Value}
  {σ : Store ω}

def minBits (x y : BitVec 32) : BitVec 32 := if x.toNat < y.toNat then x else y

def fwdBound (x : BitVec 32) : BitVec 32 := 4096#32 - (x &&& 0xfff#32)

def bwdBound (x n : BitVec 32) : BitVec 32 := (((x + n) - 1#32) &&& 0xfff#32) + 1#32

theorem minBits_toNat (x y : BitVec 32) : (minBits x y).toNat = min x.toNat y.toNat := by
  unfold minBits
  split <;> omega

theorem and_fff_toNat (x : BitVec 32) : (x &&& 0xfff#32).toNat = x.toNat % 4096 := by
  rw [BitVec.toNat_and]
  exact Nat.and_two_pow_sub_one_eq_mod x.toNat 12

theorem fwdBound_toNat (x : BitVec 32) : (fwdBound x).toNat = 4096 - x.toNat % 4096 := by
  have hlt : x.toNat % 4096 < 4096 := Nat.mod_lt _ (by decide)
  rw [fwdBound, BitVec.toNat_sub, and_fff_toNat]
  simp only [BitVec.toNat_ofNat]
  omega

theorem bwdBound_toNat {x n : BitVec 32} (hn : n ≠ 0) (hbound : x.toNat + n.toNat ≤ 2 ^ 32) :
    (bwdBound x n).toNat = (x.toNat + n.toNat - 1) % 4096 + 1 := by
  have hpos : 0 < n.toNat := by
    by_contra hzero
    exact hn (BitVec.eq_of_toNat_eq (by simpa using hzero))
  have hlast : (x + n - 1#32).toNat = x.toNat + n.toNat - 1 := by
    rw [BitVec.toNat_sub, BitVec.toNat_add]
    simp only [BitVec.toNat_ofNat]
    omega
  have hlt : (x.toNat + n.toNat - 1) % 4096 < 4096 := Nat.mod_lt _ (by decide)
  rw [bwdBound, BitVec.toNat_add, and_fff_toNat, hlast]
  simp only [BitVec.toNat_ofNat]
  omega

theorem wp_emitMin {c t : ℕ} {x y : BitVec 32} (hc : ls[c]? = some (.i32 x))
    (ht : ls[t]? = some (.i32 y)) :
    Wp env (emitMin c t ++ rest) Q ⟨st, ls, σ⟩ ↔
      Wp env rest Q ⟨st, ls.set c (.i32 (minBits x y)), σ⟩ := by
  simp only [emitMin, List.cons_append, List.nil_append, wp_localGet, hc, ht, Option.some.injEq,
    exists_eq_left', wp_num, NumOp.eval, boolBits, wp_select, wp_localSet]
  by_cases hlt : x.toNat < y.toNat
  · simp [minBits, hlt]
  · simp [minBits, hlt]

theorem wp_emitFwdBound {x dst : ℕ} {v : BitVec 32} (hx : ls[x]? = some (.i32 v)) :
    Wp env (emitFwdBound x dst ++ rest) Q ⟨st, ls, σ⟩ ↔
      Wp env rest Q ⟨st, ls.set dst (.i32 (fwdBound v)), σ⟩ := by
  simp only [emitFwdBound, List.cons_append, List.nil_append, wp_i32c, wp_localGet, hx,
    Option.some.injEq, exists_eq_left', wp_num, NumOp.eval, wp_localSet]
  rfl

theorem wp_emitBwdBound {x n dst : ℕ} {v w : BitVec 32} (hx : ls[x]? = some (.i32 v))
    (hn : ls[n]? = some (.i32 w)) :
    Wp env (emitBwdBound x n dst ++ rest) Q ⟨st, ls, σ⟩ ↔
      Wp env rest Q ⟨st, ls.set dst (.i32 (bwdBound v w)), σ⟩ := by
  simp only [emitBwdBound, List.cons_append, List.nil_append, wp_i32c, wp_localGet, hx, hn,
    Option.some.injEq, exists_eq_left', wp_num, NumOp.eval, wp_localSet]
  rfl

end Bounds

section Ranges
variable {memory memory' : List UInt8} {root a : BitVec 32} {checked : Bool} {kind n : ℕ}
  {place : ℕ → ℕ}

/-- A range of user addresses whose pages are there for the access; byte `i` is at `place i`. -/
structure Mapped (memory : List UInt8) (root : BitVec 32) (checked : Bool) (kind : ℕ)
    (a : BitVec 32) (n : ℕ) (place : ℕ → ℕ) : Prop where
  bound : a.toNat + n ≤ 2 ^ 32
  walks : ∀ i, i < n → ∃ e p, walk memory root (a + BitVec.ofNat 32 i) = some (e, p) ∧
    (checked = true → Present kind e p) ∧ (phys p (a + BitVec.ofNat 32 i)).toNat = place i
  inside : ∀ i, i < n → place i < memory.length

theorem Mapped.address (h : Mapped memory root checked kind a n place) {i : ℕ} (hi : i < n) :
    (a + BitVec.ofNat 32 i).toNat = a.toNat + i := by
  have hbound := h.bound
  rw [BitVec.toNat_add, BitVec.toNat_ofNat]
  omega

/-- In a page the places are consecutive. -/
theorem Mapped.consecutive (h : Mapped memory root checked kind a n place) {i j : ℕ}
    (hij : i + j < n) (hpage : (a.toNat + i) % 4096 + j < 4096) : place (i + j) = place i + j := by
  obtain ⟨e, p, hwalk, -, hplace⟩ := h.walks i (by omega)
  obtain ⟨e', p', hwalk', -, hplace'⟩ := h.walks (i + j) hij
  have hi := h.address (show i < n by omega)
  have hij' := h.address hij
  have hsame : walk memory root (a + BitVec.ofNat 32 (i + j)) =
      walk memory root (a + BitVec.ofNat 32 i) := by
    refine walk_page ?_
    rw [hi, hij']
    omega
  rw [hwalk, hwalk', Option.some.injEq, Prod.mk.injEq] at hsame
  obtain ⟨-, rfl⟩ := hsame
  rw [← hplace, ← hplace', phys_toNat, phys_toNat, hi, hij']
  omega

/-- Stores that are apart from the entries of a range leave its pages as they are. -/
theorem walk_scattered {dst : ℕ → ℕ} {item : ℕ → Option UInt8} {done : ℕ → Prop}
    (h : Scattered memory memory' dst item done) {va : BitVec 32}
    (hapart : ∀ j, done j → ¬ EntryByte memory root va (dst j)) :
    walk memory' root va = walk memory root va :=
  walk_congr h.length fun q hq => h.frame q fun j hj hplace => hapart j hj (hplace ▸ hq)

end Ranges

end NixWasm.SoftmmuBulk
