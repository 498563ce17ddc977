import NixWasm.SoftmmuWalk
import NixWasm.UserAccess
import NixWasm.WordFlags

/-!
The host's walk against the walk that the pass emits. Both read the same two words as long as
the address of the level-1 entry does not run past 4 GiB, where the emitted addition wraps and
the host reports a fault.
-/
namespace NixWasm.UserAccess

open Bytes ByteStore Wasm SoftmmuWalk WordFlags

section Words

theorem toNat_ofInt (x : ℤ) : (BitVec.ofInt 32 x).toNat = toUint32 x := by
  rw [BitVec.toNat_ofInt]
  rfl

theorem frameOf_toNat (x : BitVec 32) : (x &&& ~~~0xfff#32).toNat = frameOf x.toNat :=
  BitVec.toNat_and ..

theorem frameOf_le (x : ℕ) : frameOf x ≤ 0xfffff000 := Nat.and_le_right

theorem index_toNat (va : BitVec 32) :
    (((va >>> 12) &&& 0x3ff#32) <<< 2).toNat = ((va.toNat >>> 12) &&& 0x3ff) <<< 2 := by
  have hle : (va.toNat >>> 12) &&& 0x3ff ≤ 0x3ff := Nat.and_le_right
  have hand : ((va >>> 12) &&& 0x3ff#32).toNat = (va.toNat >>> 12) &&& 0x3ff := by
    rw [BitVec.toNat_and]
    rfl
  rw [BitVec.toNat_shiftLeft, hand, Nat.shiftLeft_eq]
  omega

theorem pteAddr_toNat (e va : BitVec 32) :
    (pteAddr e va).toNat = frameOf e.toNat + ((va.toNat >>> 12) &&& 0x3ff) <<< 2 := by
  have hle : (va.toNat >>> 12) &&& 0x3ff ≤ 0x3ff := Nat.and_le_right
  have hframe := frameOf_le e.toNat
  rw [pteAddr, BitVec.toNat_add, frameOf_toNat, index_toNat, Nat.shiftLeft_eq, Nat.mod_eq_of_lt]
  omega

theorem phys_toNat (p va : BitVec 32) :
    (phys p va).toNat = frameOf p.toNat + (va.toNat &&& pageMask) := by
  have hle : va.toNat &&& pageMask ≤ 0xfff := Nat.and_le_right
  have hframe := frameOf_le p.toNat
  have hand : (va &&& 0xfff#32).toNat = va.toNat &&& pageMask := by
    rw [BitVec.toNat_and]
    rfl
  rw [phys, BitVec.toNat_add, frameOf_toNat, hand, Nat.mod_eq_of_lt]
  omega

theorem pgdAddr_toNat {root va : BitVec 32}
    (hwrap : root.toNat + (va.toNat >>> 22) <<< 2 < 2 ^ 32) :
    (pgdAddr root va).toNat = root.toNat + (va.toNat >>> 22) <<< 2 := by
  have hindex : ((va >>> 22) <<< 2).toNat = (va.toNat >>> 22) <<< 2 := by
    rw [BitVec.toNat_shiftLeft, BitVec.toNat_ushiftRight]
    omega
  rw [pgdAddr, BitVec.toNat_add, hindex, Nat.mod_eq_of_lt hwrap]

theorem read32_eq_none {memory : List UInt8} {a : BitVec 32} (h : memory.length < a.toNat + 4) :
    read32 memory a = none := by
  rw [read32, load, if_neg (by omega)]
  rfl

/-- The two reads of one word. -/
theorem read32_eq_some {memory : List UInt8} {a : BitVec 32} (h : ¬ memory.length < a.toNat + 4) :
    ∃ v, read32 memory a = some v ∧ getUint32 memory a.toNat = .ok v.toNat := by
  have hload : load memory a.toNat 4 = some ((memory.drop a.toNat).take 4) := if_pos (by omega)
  have hlen := load_length hload
  have hlt := leValue_lt ((memory.drop a.toNat).take 4)
  rw [hlen, show (256 : ℕ) ^ 4 = 2 ^ 32 by norm_num] at hlt
  refine ⟨_, by rw [read32, hload]; rfl, ?_⟩
  rw [getUint32, field, hload, Option.map_some]
  simp only [BitVec.toNat_ofNat]
  rw [Nat.mod_eq_of_lt hlt]

/-- The host's two tests of the leaf are the emitted one. -/
theorem present_iff (write : Bool) (p : BitVec 32) :
    p &&& need (if write then 1 else 0) = need (if write then 1 else 0) ↔
      ¬ p.toNat &&& 1 = 0 ∧ ¬ (write = true ∧ p.toNat &&& 2 = 0) := by
  have hbit : ∀ i, i < 32 → (p &&& BitVec.twoPow 32 i ≠ 0 ↔ p.getLsbD i = true) :=
    fun i hi => and_twoPow_ne_zero_iff p hi
  have hone : p.toNat &&& 1 = 0 ↔ ¬ p.getLsbD 0 = true := by
    rw [← hbit 0 (by decide), not_not, ← BitVec.toNat_inj, BitVec.toNat_and]
    rfl
  have htwo : p.toNat &&& 2 = 0 ↔ ¬ p.getLsbD 1 = true := by
    rw [← hbit 1 (by decide), not_not, ← BitVec.toNat_inj, BitVec.toNat_and]
    rfl
  have hmask : ∀ k i : ℕ, k ≤ 32 →
      ((BitVec.ofNat 32 (2 ^ k - 1)).getLsbD i = true ↔ i < k) := by
    intro k i hk
    rw [BitVec.getLsbD_ofNat, Nat.testBit_two_pow_sub_one, Bool.and_eq_true, decide_eq_true_iff,
      decide_eq_true_iff]
    omega
  rw [and_eq_mask_iff, hone, htwo, not_not]
  cases write with
  | false =>
    have hneed : ∀ i, (need 0).getLsbD i = true ↔ i < 1 := fun i => hmask 1 i (by decide)
    constructor
    · intro h
      exact ⟨h 0 ((hneed 0).mpr (by decide)), by simp⟩
    · rintro ⟨h₀, -⟩ i hi
      have hi' := (hneed i).mp hi
      obtain rfl : i = 0 := by omega
      exact h₀
  | true =>
    have hneed : ∀ i, (need 1).getLsbD i = true ↔ i < 2 := fun i => hmask 2 i (by decide)
    simp only [true_and, not_not]
    constructor
    · intro h
      exact ⟨h 0 ((hneed 0).mpr (by decide)), h 1 ((hneed 1).mpr (by decide))⟩
    · rintro ⟨h₀, h₁⟩ i hi
      have hi' := (hneed i).mp hi
      obtain rfl | rfl : i = 0 ∨ i = 1 := by omega
      · exact h₀
      · exact h₁

end Words

section Agree
variable {memory : List UInt8} {ptBase va : ℤ} {write : Bool}

/-- The address that both walks take. -/
abbrev userAddr (va : ℤ) : BitVec 32 := BitVec.ofInt 32 va

abbrev kindOf (write : Bool) : ℕ := if write then 1 else 0

/-- The access kind of a reported fault. -/
abbrev faultKind (write : Bool) : AccessKind := if write then .store else .load

/-- The level-1 entry's address does not run past 4 GiB. -/
def Straight (ptBase va : ℤ) : Prop := toUint32 ptBase + (toUint32 va >>> 22) <<< 2 < 2 ^ 32

theorem translateUser_identity (h : toUint32 ptBase = 0) :
    translateUser memory ptBase va write = .ok (toUint32 va) := by
  simp [translateUser, h, pure, Except.pure]

/-- The tests of `translateUser`, one after the other. -/
theorem translateUser_table (hroot : toUint32 ptBase ≠ 0) :
    translateUser memory ptBase va write =
      let fault : String → Except Failure ℕ := fun detail =>
        .error (.userFault (toUint32 va) (faultKind write) detail)
      let pgdOff := toUint32 ptBase + (toUint32 va >>> 22) <<< 2
      if pgdOff + 4 > memory.length then fault "pgd entry out of memory bounds" else
        (getUint32 memory pgdOff).bind fun pgdE =>
          if pgdE = 0 then fault "pgd entry not present" else
            let pteOff := frameOf pgdE + ((toUint32 va >>> 12) &&& 0x3ff) <<< 2
            if pteOff + 4 > memory.length then fault "pte entry out of memory bounds" else
              (getUint32 memory pteOff).bind fun pte =>
                if pte &&& 1 = 0 then fault "pte not present"
                else if write ∧ pte &&& 2 = 0 then fault "pte not writable (COW/RO page)"
                else .ok (frameOf pte + (toUint32 va &&& pageMask)) := by
  unfold translateUser
  simp only [hroot, if_false]
  rfl

/-- With a page table the host translates, or reports a fault, as the emitted walk says. -/
theorem translateUser_walk (hroot : toUint32 ptBase ≠ 0) (hstraight : Straight ptBase va) :
    (∃ e p, walk memory (userAddr ptBase) (userAddr va) = some (e, p) ∧
      Present (kindOf write) e p ∧
      translateUser memory ptBase va write = .ok (phys p (userAddr va)).toNat) ∨
    (¬ (∃ e p, walk memory (userAddr ptBase) (userAddr va) = some (e, p) ∧
      Present (kindOf write) e p) ∧
      ∃ detail, translateUser memory ptBase va write =
        .error (.userFault (toUint32 va) (faultKind write) detail)) := by
  have hpgdAddr : (pgdAddr (userAddr ptBase) (userAddr va)).toNat =
      toUint32 ptBase + (toUint32 va >>> 22) <<< 2 := by
    rw [pgdAddr_toNat] <;> simp only [toNat_ofInt]
    exact hstraight
  rw [translateUser_table hroot, ← hpgdAddr]
  dsimp only
  by_cases hpgd : memory.length < (pgdAddr (userAddr ptBase) (userAddr va)).toNat + 4
  · rw [if_pos hpgd]
    refine Or.inr ⟨?_, _, rfl⟩
    rintro ⟨e, p, hwalk, -⟩
    rw [walk, read32_eq_none hpgd] at hwalk
    cases hwalk
  obtain ⟨e, he, hget⟩ := read32_eq_some hpgd
  have hpteAddr := pteAddr_toNat e (userAddr va)
  rw [toNat_ofInt] at hpteAddr
  rw [if_neg hpgd, hget]
  simp only [Except.bind, ← hpteAddr]
  have hzero : e.toNat = 0 ↔ e = 0 := by
    rw [← BitVec.toNat_inj]
    rfl
  by_cases hnone : e = 0
  · rw [if_pos (hzero.mpr hnone)]
    refine Or.inr ⟨?_, _, rfl⟩
    rintro ⟨e', p, hwalk, hpresent, -⟩
    simp only [walk, he, Option.bind_some, Option.map_eq_some_iff, Prod.mk.injEq] at hwalk
    obtain ⟨p', -, rfl, -⟩ := hwalk
    exact hpresent hnone
  rw [if_neg (hzero.not.mpr hnone)]
  by_cases hpte : memory.length < (pteAddr e (userAddr va)).toNat + 4
  · rw [if_pos hpte]
    refine Or.inr ⟨?_, _, rfl⟩
    rintro ⟨e', p, hwalk, -⟩
    simp only [walk, he, Option.bind_some, read32_eq_none hpte, Option.map_none] at hwalk
    cases hwalk
  obtain ⟨p, hp, hgetPte⟩ := read32_eq_some hpte
  have hwalk : walk memory (userAddr ptBase) (userAddr va) = some (e, p) := by
    simp only [walk, he, hp, Option.bind_some, Option.map_some]
  rw [if_neg hpte, hgetPte]
  simp only []
  have hleaf := present_iff write p
  by_cases hone : p.toNat &&& 1 = 0
  · rw [if_pos hone]
    refine Or.inr ⟨?_, _, rfl⟩
    rintro ⟨e', p', hwalk', hpresent⟩
    rw [hwalk, Option.some.injEq, Prod.mk.injEq] at hwalk'
    obtain ⟨rfl, rfl⟩ := hwalk'
    exact (hleaf.mp hpresent.2).1 hone
  rw [if_neg hone]
  by_cases hwrite : write = true ∧ p.toNat &&& 2 = 0
  · rw [if_pos hwrite]
    refine Or.inr ⟨?_, _, rfl⟩
    rintro ⟨e', p', hwalk', hpresent⟩
    rw [hwalk, Option.some.injEq, Prod.mk.injEq] at hwalk'
    obtain ⟨rfl, rfl⟩ := hwalk'
    exact (hleaf.mp hpresent.2).2 hwrite
  rw [if_neg hwrite]
  refine Or.inl ⟨e, p, hwalk, ⟨hnone, hleaf.mpr ⟨hone, hwrite⟩⟩, ?_⟩
  rw [phys_toNat, toNat_ofInt]

/-- The emitted address wraps there, and no memory reaches so far. -/
theorem translateUser_wrapped (hroot : toUint32 ptBase ≠ 0) (hstraight : ¬ Straight ptBase va)
    (hmem : memory.length ≤ 2 ^ 32) :
    translateUser memory ptBase va write =
      .error (.userFault (toUint32 va) (faultKind write) "pgd entry out of memory bounds") := by
  have hout : memory.length < toUint32 ptBase + (toUint32 va >>> 22) <<< 2 + 4 := by
    unfold Straight at hstraight
    omega
  rw [translateUser_table hroot]
  exact if_pos hout

end Agree

section Emitted
variable {ω : Type}

/-- The code ends with this value on top of the stack and the store as it was. -/
def Leaves (env : Env ω) (p : List Instr) (v : Value) (st ls : List Value) (σ : Store ω) : Prop :=
  Wp env p (fun o => ∃ ls', o = .next ⟨v :: st, ls', σ⟩) ⟨st, ls, σ⟩

theorem leaves_predicate (env : Env ω) {g : ℕ} {l : Scratch} {ls : List Value} {σ : Store ω}
    {root va : BitVec 32} (hl : l.Fits ls.length) (hroot : σ.globals g = .i32 root)
    (hva : ls[l.ea]? = some (.i32 va)) (kind : ℕ) (st : List Value) :
    Leaves env (emitCheckedPresentPredicate g l kind) (.i32 1) st ls σ ↔
      ∃ e p, walk σ.memory root va = some (e, p) ∧ Present kind e p := by
  unfold Leaves
  rw [← List.append_nil (emitCheckedPresentPredicate g l kind), wp_predicate hl hroot hva]
  cases walk σ.memory root va with
  | none => simp
  | some entries =>
    obtain ⟨e, p⟩ := entries
    by_cases hpresent : Present kind e p
    · simp [wp_nil, boolBits, hpresent]
    · simp [wp_nil, boolBits, hpresent]

/-- Where the host translates, so does the emitted code, to the same address. -/
theorem leaves_translation (env : Env ω) {g : ℕ} {l : Scratch} {st ls : List Value} {σ : Store ω}
    {root va : BitVec 32} (hl : l.Fits ls.length) (hroot : σ.globals g = .i32 root)
    (hva : ls[l.ea]? = some (.i32 va)) (fns : Translators) (fault : FaultCall) {kind : ℕ}
    (hkind : kind ≤ 1) {e p : BitVec 32} (hwalk : walk σ.memory root va = some (e, p))
    (hpresent : Present kind e p) :
    Leaves env (emitTranslate g l fns false true kind) (.i32 (phys p va)) st ls σ ∧
    ∀ a b c, Leaves env (checkedTranslateBody g fault) (.i32 (phys p va)) []
      [.i32 va, .i32 (BitVec.ofNat 32 kind), a, b, c] σ := by
  constructor
  · unfold Leaves
    rw [← List.append_nil (emitTranslate g l fns false true kind),
      wp_emitTranslate_present hl hroot hva fns hwalk hpresent, wp_nil]
    exact ⟨_, rfl⟩
  · intro a b c
    exact wp_checkedTranslateBody_present fault hroot hkind hwalk hpresent a b c ⟨_, rfl⟩

/-- The host translates a user address exactly where the emitted predicate holds, and to the
address that the emitted code computes; everywhere else it reports a fault. Without a page table
it takes the address as it is. -/
theorem translateUser_emitted (env : Env ω) (g : ℕ) (l : Scratch) (fns : Translators)
    (fault : FaultCall) (st ls : List Value) (σ : Store ω) (ptBase va : ℤ) (write : Bool)
    (hl : l.Fits ls.length) (hroot : σ.globals g = .i32 (userAddr ptBase))
    (hva : ls[l.ea]? = some (.i32 (userAddr va))) (hmem : σ.memory.length ≤ 2 ^ 32) :
    (toUint32 ptBase = 0 → translateUser σ.memory ptBase va write = .ok (toUint32 va)) ∧
    (toUint32 ptBase ≠ 0 → Straight ptBase va →
      ((∃ q, translateUser σ.memory ptBase va write = .ok q) ↔
        Leaves env (emitCheckedPresentPredicate g l (kindOf write)) (.i32 1) st ls σ) ∧
      ∀ q, translateUser σ.memory ptBase va write = .ok q → ∃ a : BitVec 32, a.toNat = q ∧
        Leaves env (emitTranslate g l fns false true (kindOf write)) (.i32 a) st ls σ ∧
        ∀ x y z, Leaves env (checkedTranslateBody g fault) (.i32 a) []
          [.i32 (userAddr va), .i32 (BitVec.ofNat 32 (kindOf write)), x, y, z] σ) ∧
    (toUint32 ptBase ≠ 0 → ¬ Straight ptBase va →
      ∃ detail, translateUser σ.memory ptBase va write =
        .error (.userFault (toUint32 va) (faultKind write) detail)) ∧
    ∀ e, translateUser σ.memory ptBase va write = .error e →
      ∃ detail, e = .userFault (toUint32 va) (faultKind write) detail := by
  have hkind : kindOf write ≤ 1 := by cases write <;> decide
  refine ⟨translateUser_identity, ?_, ?_, ?_⟩
  · intro hzero hstraight
    have hpredicate := leaves_predicate env hl hroot hva (kindOf write) st
    obtain ⟨e, p, hwalk, hpresent, hok⟩ | ⟨hnot, detail, herr⟩ :=
      translateUser_walk hzero hstraight
    · refine ⟨⟨fun _ => hpredicate.mpr ⟨e, p, hwalk, hpresent⟩, fun _ => ⟨_, hok⟩⟩, ?_⟩
      intro q hq
      rw [hok, Except.ok.injEq] at hq
      exact ⟨_, hq, leaves_translation env hl hroot hva fns fault hkind hwalk hpresent⟩
    · refine ⟨⟨?_, fun h => absurd (hpredicate.mp h) hnot⟩, ?_⟩
      · rintro ⟨q, hq⟩
        rw [herr] at hq
        cases hq
      · intro q hq
        rw [herr] at hq
        cases hq
  · intro hzero hstraight
    exact ⟨_, translateUser_wrapped hzero hstraight hmem⟩
  · intro e he
    by_cases hzero : toUint32 ptBase = 0
    · rw [translateUser_identity hzero] at he
      cases he
    by_cases hstraight : Straight ptBase va
    · obtain ⟨_, _, -, -, hok⟩ | ⟨-, detail, herr⟩ :=
        translateUser_walk hzero hstraight
      · rw [hok] at he
        cases he
      · rw [herr, Except.error.injEq] at he
        exact ⟨detail, he.symm⟩
    · rw [translateUser_wrapped hzero hstraight hmem, Except.error.injEq] at he
      exact ⟨_, he.symm⟩

section Runs

def idleEnv : Env Unit where
  funcs _ := ⟨0, fun _ _ => none⟩
  table _ _ := ⟨0, fun _ _ => none⟩
  atomicOps _ := 0
  atomic _ _ _ _ _ := none

/-- A store of one page of memory whose page-table root is in global 0. -/
def rooted (memory : List UInt8) (root : BitVec 32) : Store Unit where
  memory := memory
  globals _ := .i32 root
  datas _ := []
  host := ()

def smallTable : List UInt8 := [3, 0, 0, 0, 1, 0, 0, 0] ++ List.replicate 65528 0

theorem smallTable_length : smallTable.length = 65536 := by
  have hwords : ([3, 0, 0, 0, 1, 0, 0, 0] : List UInt8).length = 8 := rfl
  rw [smallTable, List.length_append, List.length_replicate, hwords]

theorem translateUser_emitted_small :
    (∃ q, translateUser smallTable 4 5 true = .ok q) ↔
      Leaves idleEnv (emitCheckedPresentPredicate 0 ⟨0, 1, 2⟩ 1) (.i32 1) []
        [.i32 (userAddr 5), .i32 0, .i32 0] (rooted smallTable 4) :=
  ((translateUser_emitted idleEnv 0 ⟨0, 1, 2⟩ ⟨0, 0⟩ (.bridge 0 0) []
    [.i32 (userAddr 5), .i32 0, .i32 0] (rooted smallTable 4) 4 5 true
    ⟨by decide, by decide, by decide, by decide, by decide, by decide⟩ rfl rfl
    (smallTable_length.trans_le (by decide))).2.1 (by decide) (by unfold Straight; decide)).1

theorem not_leaves_predicate {memory : List UInt8}
    (hzero : read32 memory (pgdAddr 0 0) = some 0) :
    ¬ Leaves idleEnv (emitCheckedPresentPredicate 0 ⟨0, 1, 2⟩ 0) (.i32 1) []
      [.i32 0, .i32 0, .i32 0] (rooted memory 0) := by
  rw [leaves_predicate idleEnv ⟨by decide, by decide, by decide, by decide, by decide, by decide⟩
    rfl rfl]
  rintro ⟨e, p, hwalk, hpresent, -⟩
  simp only [walk, rooted, hzero, Option.bind_some, Option.map_eq_some_iff, Prod.mk.injEq] at hwalk
  obtain ⟨_, -, rfl, -⟩ := hwalk
  exact hpresent rfl

theorem read32_zeros : read32 (List.replicate 65536 0) (pgdAddr 0 0) = some 0 := by
  have haddr : (pgdAddr 0 0).toNat = 0 := rfl
  rw [read32, load, haddr, List.length_replicate, if_pos (by decide), List.drop_zero,
    List.take_replicate]
  rfl

theorem read32_smallTable :
    read32 smallTable 4 = some 1 ∧ read32 smallTable 0 = some 3 := by
  constructor
  · rw [read32, load, smallTable_length, if_pos (by decide)]
    rfl
  · rw [read32, load, smallTable_length, if_pos (by decide)]
    rfl

/-- The level-1 address of this root and address is 4 once it is cut to 32 bits. -/
theorem leaves_predicate_wrapped :
    Leaves idleEnv (emitCheckedPresentPredicate 0 ⟨0, 1, 2⟩ 0) (.i32 1) []
      [.i32 (userAddr (2 ^ 23)), .i32 0, .i32 0] (rooted smallTable (userAddr (2 ^ 32 - 4))) := by
  rw [leaves_predicate idleEnv ⟨by decide, by decide, by decide, by decide, by decide, by decide⟩
    rfl rfl]
  refine ⟨1, 3, ?_, by decide, by decide⟩
  have hpgd : pgdAddr (userAddr (2 ^ 32 - 4)) (userAddr (2 ^ 23)) = 4 := by decide
  have hpte : pteAddr 1 (userAddr (2 ^ 23)) = 0 := by decide
  rw [walk, hpgd, rooted, read32_smallTable.1, Option.bind_some, hpte, read32_smallTable.2]
  rfl

/-- Without a page table the host translates where the emitted predicate is false; a level-1
address past 2^32 is a fault for the host, and cut to 32 bits by the emitted code. -/
theorem predicate_disagrees :
    (translateUser (List.replicate 65536 0) 0 0 false = .ok 0 ∧
      ¬ Leaves idleEnv (emitCheckedPresentPredicate 0 ⟨0, 1, 2⟩ 0) (.i32 1) []
        [.i32 (userAddr 0), .i32 0, .i32 0] (rooted (List.replicate 65536 0) (userAddr 0))) ∧
    translateUser smallTable (2 ^ 32 - 4) (2 ^ 23) false =
      .error (.userFault (2 ^ 23) .load "pgd entry out of memory bounds") ∧
    Leaves idleEnv (emitCheckedPresentPredicate 0 ⟨0, 1, 2⟩ 0) (.i32 1) []
      [.i32 (userAddr (2 ^ 23)), .i32 0, .i32 0] (rooted smallTable (userAddr (2 ^ 32 - 4))) :=
  ⟨⟨translateUser_identity rfl, not_leaves_predicate read32_zeros⟩,
    translateUser_wrapped (by decide) (by unfold Straight; decide)
      (smallTable_length.trans_le (by decide)), leaves_predicate_wrapped⟩

end Runs

end Emitted

end NixWasm.UserAccess
