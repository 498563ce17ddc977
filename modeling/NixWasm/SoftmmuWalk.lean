import NixWasm.Wasm

/-!
The two-level page-table walk that softmmu-pass.ts emits: inline before an access, as the
appended function `__mmu_translate`, and as `__mmu_translate_ck`, which asks the kernel for a
page that is not there and walks again. The instructions are listed as the pass pushes them.
-/
namespace NixWasm.SoftmmuWalk

open Bytes ByteStore Wasm

/-- `i32.const`, with the immediate as the pass writes it. -/
def i32c (n : ℤ) : Instr := .const (.i32 (BitVec.ofInt 32 n))

/-- Scratch locals of a rewritten function. -/
structure Scratch where
  ea : ℕ
  pgdE : ℕ
  pte : ℕ
deriving DecidableEq

/-- From the address in a local, the raw level-1 entry. -/
def readPgd (ptBaseGlobal va : ℕ) : List Instr :=
  [.globalGet ptBaseGlobal, .localGet va, i32c 22, .num .i32ShrU, i32c 2, .num .i32Shl,
  .num .i32Add,
    .load .i32 0]

/-- From the level-1 entry on the stack, the raw level-2 entry. -/
def readPte (va : ℕ) : List Instr :=
  [i32c (-4096), .num .i32And, .localGet va, i32c 12, .num .i32ShrU, i32c 0x3ff,
  .num .i32And, i32c 2,
    .num .i32Shl, .num .i32Add, .load .i32 0]

/-- From the level-2 entry on the stack, the physical address. -/
def framePlus (va : ℕ) : List Instr :=
  [i32c (-4096), .num .i32And, .localGet va, i32c 0xfff, .num .i32And, .num .i32Add]

/-- `__mmu_translate(va)`. -/
def translateBody (ptBaseGlobal : ℕ) : List Instr :=
  readPgd ptBaseGlobal 0 ++ readPte 0 ++ framePlus 0

def emitCheckedPresentPredicate (ptBaseGlobal : ℕ) (l : Scratch) (kind : ℕ) : List Instr :=
  readPgd ptBaseGlobal l.ea ++
  [.localTee l.pgdE, i32c 0, .num .i32Ne, .localGet l.pgdE] ++ readPte l.ea ++ [.localTee l.pte] ++
  (if kind = 1 then [i32c 3, .num .i32And, i32c 3, .num .i32Eq]
    else [i32c 1, .num .i32And, i32c 1, .num .i32Eq]) ++
  [.num .i32And]

/-- How a function calls for a translation: inline or through the appended functions. -/
structure Translators where
  translateFunc : ℕ
  checkedTranslateFunc : ℕ

/-- The physical address of `ea`, left on the stack. -/
def emitTranslate (ptBaseGlobal : ℕ) (l : Scratch) (fns : Translators) (helper checked : Bool)
    (kind : ℕ) : List Instr :=
  if helper then
    if checked then [.localGet l.ea, i32c kind, .call fns.checkedTranslateFunc]
    else [.localGet l.ea, .call fns.translateFunc]
  else if checked then
    emitCheckedPresentPredicate ptBaseGlobal l kind ++
    [.ite (some .i32) (.localGet l.pte :: framePlus l.ea)
      [.localGet l.ea, i32c kind, .call fns.checkedTranslateFunc]]
  else readPgd ptBaseGlobal l.ea ++ readPte l.ea ++ framePlus l.ea

/-- The fault call of `__mmu_translate_ck`, by the bridge in the table or by the syscall. -/
inductive FaultCall
  | bridge (faultTableIndex faultTypeIdx : ℕ)
  | syscall (spGlobalIdx tlsFuncIdx syscallFuncIdx : ℕ)

def nrMmuFault : ℤ := 244

def emitFault : FaultCall → List Instr
  | .bridge faultTableIndex faultTypeIdx =>
    [.localGet 0, .localGet 1, i32c faultTableIndex, .callIndirect faultTypeIdx, .drop]
  | .syscall spGlobalIdx tlsFuncIdx syscallFuncIdx =>
    [.globalGet spGlobalIdx, .call tlsFuncIdx, i32c nrMmuFault, .localGet 0, .localGet 1,
      .call syscallFuncIdx, .drop]

/-- A round of `__mmu_translate_ck`: it leaves the block with the address, or asks for the page and
starts again. -/
def checkedRound (ptBaseGlobal : ℕ) (fault : FaultCall) : List Instr :=
  readPgd ptBaseGlobal 0 ++ [.localTee 2, .num .i32Eqz,
    .ite none (emitFault fault ++ [.br 1]) [],
    .localGet 2] ++ readPte 0 ++ [.localSet 3,
    .localGet 1, i32c 1, .num .i32Shl, i32c 1, .num .i32Or, .localSet 4,
    .localGet 3, .localGet 4, .num .i32And, .localGet 4, .num .i32Ne,
    .ite none (emitFault fault ++ [.br 1]) [],
    .localGet 3] ++ framePlus 0 ++ [.br 1]

/-- `__mmu_translate_ck(va, kind)`, with its locals pgd_e, pte and need. -/
def checkedTranslateBody (ptBaseGlobal : ℕ) (fault : FaultCall) : List Instr :=
  [.block (some .i32) [.loop (checkedRound ptBaseGlobal fault), .unreachable]]

section Walk

/-- The word at an address of the memory. -/
def read32 (memory : List UInt8) (a : BitVec 32) : Option (BitVec 32) :=
  (load memory a.toNat 4).map fun bytes => BitVec.ofNat 32 (leValue bytes)

def pgdAddr (root va : BitVec 32) : BitVec 32 := root + (va >>> 22) <<< 2

def pteAddr (e va : BitVec 32) : BitVec 32 := (e &&& ~~~0xfff#32) + ((va >>> 12) &&& 0x3ff#32) <<< 2

def phys (p va : BitVec 32) : BitVec 32 := (p &&& ~~~0xfff#32) + (va &&& 0xfff#32)

variable {ω : Type} {env : Env ω} {Q : Outcome ω → Prop} {rest : List Instr} {st ls : List Value}
  {σ : Store ω} {root va : BitVec 32} {i g : ℕ}

theorem wp_i32c (n : ℤ) :
    Wp env (i32c n :: rest) Q ⟨st, ls, σ⟩ ↔ Wp env rest Q ⟨.i32 (BitVec.ofInt 32 n) :: st, ls, σ⟩ :=
  wp_const _

theorem wp_load32 (a : BitVec 32) :
    Wp env (.load .i32 0 :: rest) Q ⟨.i32 a :: st, ls, σ⟩ ↔
      match read32 σ.memory a with
      | some v => Wp env rest Q ⟨.i32 v :: st, ls, σ⟩
      | none => Q (.trap σ) := by
  rw [wp_load, read32, Nat.add_zero]
  cases h : load σ.memory a.toNat 4 <;> simp [ValType.width, ValType.ofBytes, h]

theorem wp_readPgd (hroot : σ.globals g = .i32 root) (hva : ls[i]? = some (.i32 va)) :
    Wp env (readPgd g i ++ rest) Q ⟨st, ls, σ⟩ ↔
      match read32 σ.memory (pgdAddr root va) with
      | some e => Wp env rest Q ⟨.i32 e :: st, ls, σ⟩
      | none => Q (.trap σ) := by
  simp only [readPgd, List.cons_append, List.nil_append, wp_globalGet, wp_localGet, hroot, hva,
    Option.some.injEq, exists_eq_left', wp_i32c, wp_num, NumOp.eval, wp_load32]
  rfl

theorem wp_readPte (e : BitVec 32) (hva : ls[i]? = some (.i32 va)) :
    Wp env (readPte i ++ rest) Q ⟨.i32 e :: st, ls, σ⟩ ↔
      match read32 σ.memory (pteAddr e va) with
      | some p => Wp env rest Q ⟨.i32 p :: st, ls, σ⟩
      | none => Q (.trap σ) := by
  simp only [readPte, List.cons_append, List.nil_append, wp_localGet, hva,
    Option.some.injEq, exists_eq_left', wp_i32c, wp_num, NumOp.eval, wp_load32]
  rfl

theorem wp_framePlus (p : BitVec 32) (hva : ls[i]? = some (.i32 va)) :
    Wp env (framePlus i ++ rest) Q ⟨.i32 p :: st, ls, σ⟩ ↔
      Wp env rest Q ⟨.i32 (phys p va) :: st, ls, σ⟩ := by
  simp only [framePlus, List.cons_append, List.nil_append, wp_localGet, hva,
    Option.some.injEq, exists_eq_left', wp_i32c, wp_num, NumOp.eval]
  rfl

/-- The page-table bits an access needs. -/
def need (kind : ℕ) : BitVec 32 := if kind = 1 then 3#32 else 1#32

/-- Both levels are present, and the leaf allows the access. -/
def Present (kind : ℕ) (e p : BitVec 32) : Prop := e ≠ 0 ∧ p &&& need kind = need kind

instance (kind : ℕ) (e p : BitVec 32) : Decidable (Present kind e p) :=
  inferInstanceAs (Decidable (_ ∧ _))

/-- The two entries of the walk, whether present or not. -/
def walk (memory : List UInt8) (root va : BitVec 32) : Option (BitVec 32 × BitVec 32) :=
  (read32 memory (pgdAddr root va)).bind fun e => (read32 memory (pteAddr e va)).map (e, ·)

/-- The scratch locals are there and are three. -/
structure Scratch.Fits (l : Scratch) (n : ℕ) : Prop where
  ea_lt : l.ea < n
  pgdE_lt : l.pgdE < n
  pte_lt : l.pte < n
  ea_ne_pgdE : l.ea ≠ l.pgdE
  ea_ne_pte : l.ea ≠ l.pte
  pgdE_ne_pte : l.pgdE ≠ l.pte

/-- The locals after a walk that read these entries. -/
def walked (ls : List Value) (l : Scratch) (e p : BitVec 32) : List Value :=
  (ls.set l.pgdE (.i32 e)).set l.pte (.i32 p)

theorem bool_and_bool (p q : Prop) [Decidable p] [Decidable q] :
    (if p then 1#32 else 0#32) &&& (if q then 1#32 else 0#32) = if p ∧ q then 1#32 else 0#32 := by
  by_cases hp : p <;> by_cases hq : q <;> simp [hp, hq]

theorem wp_predicate {l : Scratch} (hl : l.Fits ls.length) (hroot : σ.globals g = .i32 root)
    (hva : ls[l.ea]? = some (.i32 va)) (kind : ℕ) :
    Wp env (emitCheckedPresentPredicate g l kind ++ rest) Q ⟨st, ls, σ⟩ ↔
      match walk σ.memory root va with
      | some (e, p) => Wp env rest Q ⟨boolBits (Present kind e p) :: st, walked ls l e p, σ⟩
      | none => Q (.trap σ) := by
  simp only [emitCheckedPresentPredicate, List.append_assoc]
  rw [wp_readPgd hroot hva, walk]
  cases hpgd : read32 σ.memory (pgdAddr root va) with
  | none => rfl
  | some e =>
    have hva₁ : (ls.set l.pgdE (.i32 e))[l.ea]? = some (.i32 va) := by
      rw [List.getElem?_set_ne hl.ea_ne_pgdE.symm, hva]
    have hpgd₁ : (ls.set l.pgdE (.i32 e))[l.pgdE]? = some (.i32 e) := by
      simp [hl.pgdE_lt]
    simp only [List.cons_append, List.nil_append, wp_localTee, wp_i32c, wp_num, NumOp.eval,
      Option.some.injEq, exists_eq_left', wp_localGet, hpgd₁, Option.bind_some]
    rw [wp_readPte e hva₁]
    cases hpte : read32 σ.memory (pteAddr e va) with
    | none => rfl
    | some p =>
      simp only [wp_localTee, Option.map_some]
      have hbits : ∀ k : ℕ, need kind = BitVec.ofNat 32 k → boolBits (Present kind e p) =
          .i32 ((if e ≠ 0 then 1#32 else 0#32) &&&
            if p &&& BitVec.ofNat 32 k = BitVec.ofNat 32 k then 1#32 else 0#32) := by
        intro k hk
        rw [bool_and_bool, ← hk]
        rfl
      by_cases hkind : kind = 1
      · have hneed := hbits 3 (by simp [need, hkind])
        simp only [hkind, if_true, List.cons_append, List.nil_append, wp_i32c, wp_num, NumOp.eval,
          Option.some.injEq, exists_eq_left', boolBits] at hneed ⊢
        rw [hneed]
        rfl
      · have hneed := hbits 1 (by simp [need, hkind])
        simp only [hkind, if_false, List.cons_append, List.nil_append, wp_i32c, wp_num, NumOp.eval,
          Option.some.injEq, exists_eq_left', boolBits] at hneed ⊢
        rw [hneed]
        rfl

/-- Where the access is allowed, the inline walk needs no call. -/
theorem wp_emitTranslate_present {l : Scratch} (hl : l.Fits ls.length)
    (hroot : σ.globals g = .i32 root) (hva : ls[l.ea]? = some (.i32 va)) (fns : Translators)
    {kind : ℕ} {e p : BitVec 32} (hwalk : walk σ.memory root va = some (e, p))
    (hpresent : Present kind e p) :
    Wp env (emitTranslate g l fns false true kind ++ rest) Q ⟨st, ls, σ⟩ ↔
      Wp env rest Q ⟨.i32 (phys p va) :: st, walked ls l e p, σ⟩ := by
  have hva₁ : (walked ls l e p)[l.ea]? = some (.i32 va) := by
    rw [walked, List.getElem?_set_ne hl.ea_ne_pte.symm,
      List.getElem?_set_ne hl.ea_ne_pgdE.symm, hva]
  have hpte : (walked ls l e p)[l.pte]? = some (.i32 p) := by
    simp [walked, hl.pte_lt]
  simp only [emitTranslate, if_true, if_false, Bool.false_eq_true, List.append_assoc,
    List.cons_append, List.nil_append]
  rw [wp_predicate hl hroot hva, hwalk]
  dsimp only
  rw [wp_iteBool, if_pos hpresent, wp_localGet]
  simp only [hpte, Option.some.injEq, exists_eq_left']
  rw [← List.append_nil (framePlus l.ea), wp_framePlus p hva₁, wp_nil]
  rfl

/-- Where the access is allowed, a round leaves with the address and does not call the kernel. -/
theorem wp_checkedRound_present (fault : FaultCall) (hroot : σ.globals g = .i32 root)
    {kind : ℕ} (hkind : kind ≤ 1) {e p : BitVec 32} (hwalk : walk σ.memory root va = some (e, p))
    (hpresent : Present kind e p) (a b c : Value)
    (hQ : Q (.br 1 ⟨[.i32 (phys p va)],
      [.i32 va, .i32 (BitVec.ofNat 32 kind), .i32 e, .i32 p, .i32 (need kind)], σ⟩)) :
    Wp env (checkedRound g fault) Q ⟨[], [.i32 va, .i32 (BitVec.ofNat 32 kind), a, b, c], σ⟩ := by
  obtain ⟨he, hp⟩ := hpresent
  obtain ⟨hpgd, hpte⟩ : read32 σ.memory (pgdAddr root va) = some e ∧
      read32 σ.memory (pteAddr e va) = some p := by
    simp only [walk, Option.bind_eq_some_iff, Option.map_eq_some_iff, Prod.mk.injEq] at hwalk
    obtain ⟨e', he', p', hp', rfl, rfl⟩ := hwalk
    exact ⟨he', hp'⟩
  have hneed : BitVec.ofNat 32 kind <<< ((BitVec.ofInt 32 1).toNat % 32) ||| BitVec.ofInt 32 1 =
      need kind := by
    obtain rfl | rfl : kind = 0 ∨ kind = 1 := by omega
    · rfl
    · rfl
  simp only [checkedRound, List.append_assoc]
  rw [wp_readPgd hroot rfl, hpgd]
  simp only [List.cons_append, List.nil_append, wp_localTee, wp_num, NumOp.eval, Option.some.injEq,
    exists_eq_left']
  rw [wp_iteBool, if_neg he, wp_nil]
  change Wp env (.localGet 2 :: _) _ ⟨[], _, σ⟩
  simp only [wp_localGet, List.set, List.getElem?_cons_succ, List.getElem?_cons_zero,
    Option.some.injEq, exists_eq_left']
  rw [wp_readPte e rfl, hpte]
  simp only [wp_localSet, wp_localGet, wp_i32c, wp_num, NumOp.eval, List.set,
    List.getElem?_cons_succ, List.getElem?_cons_zero, Option.some.injEq, exists_eq_left']
  rw [hneed, wp_iteBool, if_neg (not_not.mpr hp), wp_nil]
  change Wp env (.localGet 3 :: _) _ ⟨[], _, σ⟩
  simp only [wp_localGet, List.getElem?_cons_succ, List.getElem?_cons_zero, Option.some.injEq,
    exists_eq_left']
  rw [wp_framePlus p rfl, wp_br]
  exact hQ

/-- `__mmu_translate_ck` gives the address that the inline walk gives. -/
theorem wp_checkedTranslateBody_present (fault : FaultCall) (hroot : σ.globals g = .i32 root)
    {kind : ℕ} (hkind : kind ≤ 1) {e p : BitVec 32} (hwalk : walk σ.memory root va = some (e, p))
    (hpresent : Present kind e p) (a b c : Value)
    (hQ : Q (.next ⟨[.i32 (phys p va)],
      [.i32 va, .i32 (BitVec.ofNat 32 kind), .i32 e, .i32 p, .i32 (need kind)], σ⟩)) :
    Wp env (checkedTranslateBody g fault) Q
      ⟨[], [.i32 va, .i32 (BitVec.ofNat 32 kind), a, b, c], σ⟩ := by
  rw [checkedTranslateBody, wp_block]
  exact wp_loop_once (wp_checkedRound_present fault hroot hkind hwalk hpresent a b c
    (wp_nil.mpr hQ))

end Walk

end NixWasm.SoftmmuWalk
