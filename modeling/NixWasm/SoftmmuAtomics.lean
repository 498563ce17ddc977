import NixWasm.SoftmmuWalk
import Mathlib.Data.List.Nodup

/-!
Atomic instructions under the pass. Their address stands under the value operands, so the emitted
code saves these in typed scratch locals, translates, and restores them. Code with atomics among
its instructions runs over user addresses with its own locals alone; the rewritten code does the
same with the scratch locals behind them.
-/
namespace NixWasm.SoftmmuAtomics

open Bytes ByteStore Wasm SoftmmuWalk

/-- The widths of atomic accesses in the order of their opcodes. -/
inductive Width
  | i32 | i64 | i32x8 | i32x16 | i64x8 | i64x16 | i64x32
deriving DecidableEq

inductive RmwOp
  | add | sub | and | or | xor | xchg
deriving DecidableEq

/-- The instructions of the 0xFE prefix that take a memory argument. -/
inductive Atomic
  | notify | wait32 | wait64
  | load (w : Width)
  | store (w : Width)
  | rmw (op : RmwOp) (w : Width)
  | cmpxchg (w : Width)
deriving DecidableEq

def Width.index : Width → ℕ
  | .i32 => 0
  | .i64 => 1
  | .i32x8 => 2
  | .i32x16 => 3
  | .i64x8 => 4
  | .i64x16 => 5
  | .i64x32 => 6

def Width.type : Width → ValType
  | .i32 | .i32x8 | .i32x16 => .i32
  | .i64 | .i64x8 | .i64x16 | .i64x32 => .i64

def RmwOp.index : RmwOp → ℕ
  | .add => 0
  | .sub => 1
  | .and => 2
  | .or => 3
  | .xor => 4
  | .xchg => 5

namespace Atomic

def opcode : Atomic → ℕ
  | notify => 0x00
  | wait32 => 0x01
  | wait64 => 0x02
  | load w => 0x10 + w.index
  | store w => 0x17 + w.index
  | rmw op w => 0x1e + 7 * op.index + w.index
  | cmpxchg w => 0x48 + w.index

/-- The operands above the address, the last one on top. -/
def operands : Atomic → List ValType
  | notify => [.i32]
  | wait32 => [.i32, .i64]
  | wait64 => [.i64, .i64]
  | load _ => []
  | store w => [w.type]
  | rmw _ w => [w.type]
  | cmpxchg w => [w.type, w.type]

def result : Atomic → Option ValType
  | notify | wait32 | wait64 => some .i32
  | load w | rmw _ w | cmpxchg w => some w.type
  | store _ => none

def writes : Atomic → Bool
  | notify | wait32 | wait64 | load _ => false
  | store _ | rmw _ _ | cmpxchg _ => true

end Atomic

section Table

/-- A row of the pass's table. -/
structure AtomicOp where
  opsAbove : List ValType
  result : Bool
deriving DecidableEq

/-- The width-to-type pattern that the groups share. -/
def widthTypes : List ValType := [.i32, .i64, .i32, .i32, .i64, .i64, .i64]

def widthType (k : ℕ) : ValType := widthTypes.getD k .i32

/-- `ATOMIC_OPS[sub]`. -/
def atomicOps (sub : ℕ) : Option AtomicOp :=
  if sub = 0x00 then some ⟨[.i32], true⟩
  else if sub = 0x01 then some ⟨[.i32, .i64], true⟩
  else if sub = 0x02 then some ⟨[.i64, .i64], true⟩
  else if 0x10 ≤ sub ∧ sub ≤ 0x16 then some ⟨[], true⟩
  else if 0x17 ≤ sub ∧ sub < 0x17 + 7 then some ⟨[widthType (sub - 0x17)], false⟩
  else if 0x1e ≤ sub ∧ sub < 0x1e + 6 * 7 then some ⟨[widthType ((sub - 0x1e) % 7)], true⟩
  else if 0x48 ≤ sub ∧ sub < 0x48 + 7 then
    some ⟨[widthType (sub - 0x48), widthType (sub - 0x48)], true⟩
  else none

def atomicFaultKind (sub : ℕ) : ℕ := if sub ≥ 0x17 then 1 else 0

end Table

section Emit

/-- How the pass translates in a function whose scratch locals start at `base`. -/
structure Mode where
  ptBaseGlobal : ℕ
  base : ℕ
  fns : Translators
  helper : Bool
  checked : Bool

variable (m : Mode)

def Mode.ea : ℕ := m.base

/-- Operand slot A, by type. -/
def Mode.val : ValType → ℕ
  | .i32 => m.base + 1
  | .i64 => m.base + 2
  | .f32 => m.base + 3
  | .f64 => m.base + 4

/-- Operand slot B; no atomic has a second operand of another type. -/
def Mode.b : ValType → ℕ
  | .i32 => m.base + 5
  | .i64 => m.base + 6
  | _ => 0

def Mode.scratch : Scratch := ⟨m.ea, m.base + 7, m.base + 8⟩

/-- The declared types of the scratch locals. -/
def Mode.scratchTypes : List ValType :=
  [.i32, .i32, .i64, .f32, .f64, .i32, .i64] ++ if m.checked then [.i32, .i32] else []

/-- The locals that save the operands of an atomic. -/
def Mode.operandSlots (opsAbove : List ValType) : List ℕ :=
  opsAbove.zipIdx.map fun p => if p.2 = 0 then m.val p.1 else m.b p.1

/-- What the pass emits for an atomic with a memory argument. -/
def emitAtomic (a : AtomicOp) (sub align offset : ℕ) : List Instr :=
  (m.operandSlots a.opsAbove).reverse.map Instr.localSet ++
  (if offset ≠ 0 then [i32c offset, .num .i32Add] else []) ++
  [.localSet m.ea] ++
  emitTranslate m.ptBaseGlobal m.scratch m.fns m.helper m.checked (atomicFaultKind sub) ++
  (m.operandSlots a.opsAbove).map Instr.localGet ++
  [.atomic sub align 0]

/-- An instruction of the function as it was: an atomic, or one that is copied. -/
inductive Piece
  | atomic (a : Atomic) (align offset : ℕ)
  | plain (i : Instr)

def rewritePiece : Piece → List Instr
  | .atomic a align offset =>
    match atomicOps a.opcode with
    | some op => emitAtomic m op a.opcode align offset
    | none => [.atomic a.opcode align offset]
  | .plain i => [i]

def rewriteAll (pieces : List Piece) : List Instr := pieces.flatMap (rewritePiece m)

end Emit

section Virtual
variable {ω : Type} (env : Env ω) (m : Mode)

/-- The translation of an address as the mode does it. -/
def translation (kind : ℕ) (va : BitVec 32) (σ : Store ω) : Option (Return ω) :=
  let checkedCall := (env.funcs m.fns.checkedTranslateFunc).run
    [.i32 va, .i32 (BitVec.ofInt 32 kind)] σ
  if m.helper then
    if m.checked then checkedCall else (env.funcs m.fns.translateFunc).run [.i32 va] σ
  else
    match σ.globals m.ptBaseGlobal with
    | .i32 root =>
      match walk σ.memory root va with
      | none => some (.trap σ)
      | some (e, p) =>
        if m.checked = true ∧ ¬ Present kind e p then checkedCall
        else some (.values [.i32 (phys p va)] σ)
    | _ => none

/-- The function as it was, with every atomic at the translation of its address. The address is
base and offset added in 32 bits, as the rewritten code adds them; the instruction itself traps
where the sum is 2^32 or more. -/
def VirtualWp : List Piece → (Outcome ω → Prop) → Frame ω → Prop
  | [], Q, s => Q (.next s)
  | .plain i :: rest, Q, s => WpStep env i (andThen (VirtualWp rest Q) Q) s
  | .atomic a align offset :: rest, Q, s =>
    ∃ vs va st, s.stack = vs.reverse ++ .i32 va :: st ∧ vs.map Value.type = a.operands ∧
      ∃ t, translation env m (if a.writes then 1 else 0) (va + BitVec.ofInt 32 offset) s.store =
          some t ∧
        match t with
        | .trap σ => Q (.trap σ)
        | .values ps σ => ∃ p r, ps = [.i32 p] ∧
          env.atomic a.opcode align p.toNat vs σ = some r ∧
          match r with
          | .trap σ => Q (.trap σ)
          | .values rs σ => VirtualWp rest Q ⟨rs.reverse ++ st, s.locals, σ⟩

end Virtual

section TableFacts

/-- The table has every instruction with the operands that it takes. -/
theorem atomicOps_opcode (a : Atomic) :
    atomicOps a.opcode = some ⟨a.operands, a.result.isSome⟩ := by
  cases a with
  | notify => rfl
  | wait32 => rfl
  | wait64 => rfl
  | load w => cases w <;> rfl
  | store w => cases w <;> rfl
  | rmw op w => cases op <;> cases w <;> rfl
  | cmpxchg w => cases w <;> rfl

theorem atomicFaultKind_opcode (a : Atomic) :
    atomicFaultKind a.opcode = if a.writes then 1 else 0 := by
  cases a with
  | notify => rfl
  | wait32 => rfl
  | wait64 => rfl
  | load w => cases w <;> rfl
  | store w => cases w <;> rfl
  | rmw op w => cases op <;> cases w <;> rfl
  | cmpxchg w => cases w <;> rfl

/-- No atomic takes floats, and none takes more than two operands. -/
theorem operands_shape (a : Atomic) : a.operands = [] ∨ (∃ t, a.operands = [t]) ∨
    ∃ t u, a.operands = [t, u] := by
  cases a with
  | notify => exact Or.inr (Or.inl ⟨_, rfl⟩)
  | wait32 => exact Or.inr (Or.inr ⟨_, _, rfl⟩)
  | wait64 => exact Or.inr (Or.inr ⟨_, _, rfl⟩)
  | load w => exact Or.inl rfl
  | store w => exact Or.inr (Or.inl ⟨_, rfl⟩)
  | rmw op w => exact Or.inr (Or.inl ⟨_, rfl⟩)
  | cmpxchg w => exact Or.inr (Or.inr ⟨_, _, rfl⟩)

theorem operand_int {a : Atomic} {t : ValType} (h : t ∈ a.operands) : t = .i32 ∨ t = .i64 := by
  have hwidth : ∀ w : Width, w.type = .i32 ∨ w.type = .i64 := by
    intro w
    cases w <;> simp [Width.type]
  cases a with
  | notify => exact Or.inl (by simpa [Atomic.operands] using h)
  | wait32 => simpa [Atomic.operands] using h
  | wait64 => exact Or.inr (by simpa [Atomic.operands] using h)
  | load w => cases h
  | store w =>
    obtain rfl : t = w.type := by simpa [Atomic.operands] using h
    exact hwidth w
  | rmw op w =>
    obtain rfl : t = w.type := by simpa [Atomic.operands] using h
    exact hwidth w
  | cmpxchg w =>
    obtain rfl : t = w.type := by simpa [Atomic.operands] using h
    exact hwidth w

/-- The slots of an atomic's operands: distinct operand locals of the operands' types. -/
structure SlotsFit (m : Mode) (slots : List ℕ) (types : List ValType) : Prop where
  length : slots.length = types.length
  nodup : slots.Nodup
  range : ∀ i ∈ slots, m.base < i ∧ i < m.base + 7
  typed : ∀ p ∈ slots.zip types, m.scratchTypes[p.1 - m.base]? = some p.2

theorem operandSlots_fit (m : Mode) (a : Atomic) :
    SlotsFit m (m.operandSlots a.operands) a.operands := by
  have htypes : ∀ k, k < 7 → m.scratchTypes[k]? =
      ([.i32, .i32, .i64, .f32, .f64, .i32, .i64] : List ValType)[k]? := by
    intro k hk
    rw [Mode.scratchTypes, List.getElem?_append_left hk]
  have hval : ∀ t, t = .i32 ∨ t = .i64 → (m.base < m.val t ∧ m.val t < m.base + 5) ∧
      m.scratchTypes[m.val t - m.base]? = some t := by
    rintro t (rfl | rfl)
    · simp only [Mode.val, Nat.add_sub_cancel_left]
      exact ⟨by omega, htypes 1 (by decide)⟩
    · simp only [Mode.val, Nat.add_sub_cancel_left]
      exact ⟨by omega, htypes 2 (by decide)⟩
  have hb : ∀ t, t = .i32 ∨ t = .i64 → (m.base + 5 ≤ m.b t ∧ m.b t < m.base + 7) ∧
      m.scratchTypes[m.b t - m.base]? = some t := by
    rintro t (rfl | rfl)
    · simp only [Mode.b, Nat.add_sub_cancel_left]
      exact ⟨by omega, htypes 5 (by decide)⟩
    · simp only [Mode.b, Nat.add_sub_cancel_left]
      exact ⟨by omega, htypes 6 (by decide)⟩
  obtain h | ⟨t, h⟩ | ⟨t, u, h⟩ := operands_shape a
  · rw [h]
    exact ⟨rfl, List.nodup_nil, by simp [Mode.operandSlots], by simp [Mode.operandSlots]⟩
  · have ht := hval t (operand_int (by rw [h]; simp))
    have hslots : m.operandSlots [t] = [m.val t] := rfl
    rw [h, hslots]
    refine ⟨rfl, List.nodup_singleton _, ?_, ?_⟩
    · intro i hi
      obtain rfl := List.mem_singleton.mp hi
      omega
    · intro p hp
      obtain rfl : p = (m.val t, t) := by simpa using hp
      exact ht.2
  · have ht := hval t (operand_int (by rw [h]; simp))
    have hu := hb u (operand_int (by rw [h]; simp))
    have hslots : m.operandSlots [t, u] = [m.val t, m.b u] := rfl
    rw [h, hslots]
    refine ⟨rfl, ?_, ?_, ?_⟩
    · rw [List.nodup_cons]
      refine ⟨?_, List.nodup_singleton _⟩
      rw [List.mem_singleton]
      omega
    · intro i hi
      rcases List.mem_cons.mp hi with rfl | hi
      · omega
      · obtain rfl := List.mem_singleton.mp hi
        omega
    · intro p hp
      obtain rfl | rfl : p = (m.val t, t) ∨ p = (m.b u, u) := by simpa using hp
      · exact ht.2
      · exact hu.2

end TableFacts

section Frames

/-- The function's own locals with the scratch locals behind them. -/
def Behind (m : Mode) (ls locals : List Value) : Prop :=
  ls.length = m.base ∧ ∃ sc : List Value, sc.length = m.scratchTypes.length ∧ locals = ls ++ sc

variable {m : Mode} {ls locals : List Value}

theorem Behind.set {i : ℕ} (h : Behind m ls locals) (hi : m.base ≤ i) (v : Value) :
    Behind m ls (locals.set i v) := by
  obtain ⟨hls, sc, hsc, rfl⟩ := h
  refine ⟨hls, sc.set (i - m.base) v, by rw [List.length_set, hsc], ?_⟩
  rw [List.set_append_right _ _ (by omega), hls]

theorem Behind.length (h : Behind m ls locals) :
    locals.length = m.base + m.scratchTypes.length := by
  obtain ⟨hls, sc, hsc, rfl⟩ := h
  rw [List.length_append, hls, hsc]

theorem Behind.foldl_set (h : Behind m ls locals) {pairs : List (ℕ × Value)}
    (hpairs : ∀ p ∈ pairs, m.base ≤ p.1) :
    Behind m ls (pairs.foldl (fun ls p => ls.set p.1 p.2) locals) := by
  induction pairs generalizing locals with
  | nil => exact h
  | cons p pairs ih =>
    rw [List.foldl_cons]
    exact ih (h.set (hpairs p (by simp)) p.2) fun q hq => hpairs q (by simp [hq])

theorem getElem?_foldl_set {pairs : List (ℕ × Value)} (hnodup : (pairs.map Prod.fst).Nodup)
    (hlt : ∀ p ∈ pairs, p.1 < locals.length) {p : ℕ × Value} (hp : p ∈ pairs) :
    (pairs.foldl (fun ls p => ls.set p.1 p.2) locals)[p.1]? = some p.2 := by
  have hkeep : ∀ {pairs : List (ℕ × Value)} {locals : List Value} {i : ℕ},
      (∀ q ∈ pairs, q.1 ≠ i) →
      (pairs.foldl (fun ls p => ls.set p.1 p.2) locals)[i]? = locals[i]? := by
    intro pairs
    induction pairs with
    | nil => exact fun _ => rfl
    | cons q pairs ih =>
      intro locals i hne
      rw [List.foldl_cons, ih fun r hr => hne r (by simp [hr]),
        List.getElem?_set_ne (hne q (by simp))]
  induction pairs generalizing locals with
  | nil => cases hp
  | cons q pairs ih =>
    rw [List.map_cons, List.nodup_cons] at hnodup
    rw [List.foldl_cons]
    rcases List.mem_cons.mp hp with rfl | hp
    · have hne : ∀ r ∈ pairs, r.1 ≠ p.1 := fun r hr h =>
        hnodup.1 (h ▸ List.mem_map_of_mem hr)
      rw [hkeep hne]
      exact List.getElem?_set_self (hlt p (by simp))
    · exact ih hnodup.2 (fun r hr => by
        rw [List.length_set]
        exact hlt r (by simp [hr])) hp

/-- The outcomes of the rewritten code, seen without the scratch locals. -/
def Unscratched {ω : Type} (m : Mode) (Q : Outcome ω → Prop) : Outcome ω → Prop
  | .next s => ∃ ls, Behind m ls s.locals ∧ Q (.next { s with locals := ls })
  | .trap σ => Q (.trap σ)
  | _ => False

end Frames

section Emitted
variable {ω : Type} {env : Env ω} {m : Mode} {Q : Outcome ω → Prop} {rest : List Instr}
  {st ls locals : List Value} {σ : Store ω}

/-- The appended translation functions take the address, and the kind of access. -/
structure Linked (env : Env ω) (m : Mode) : Prop where
  translate : (env.funcs m.fns.translateFunc).params = 1
  checked : (env.funcs m.fns.checkedTranslateFunc).params = 2

theorem scratch_fits (h : Behind m ls locals) (hchecked : m.checked = true) :
    m.scratch.Fits locals.length := by
  have hlen : m.scratchTypes.length = 9 := by
    rw [Mode.scratchTypes, hchecked]
    rfl
  have hlength := h.length
  constructor <;> simp only [Mode.scratch, Mode.ea] <;> omega

/-- What is left to show once the translation has ended. -/
def AfterTranslation (env : Env ω) (m : Mode) (rest : List Instr) (Q : Outcome ω → Prop)
    (st ls : List Value) (saved : List (ℕ × Value)) : Return ω → Prop
  | .trap σ => Q (.trap σ)
  | .values ps σ => ∃ p, ps = [.i32 p] ∧ ∀ locals', Behind m ls locals' →
      (∀ q ∈ saved, locals'[q.1]? = some q.2) → Wp env rest Q ⟨.i32 p :: st, locals', σ⟩

theorem wp_translateCall {f : ℕ} {args : List Value} (hargs : args.length = (env.funcs f).params)
    {saved : List (ℕ × Value)} (h : Behind m ls locals)
    (hsaved : ∀ q ∈ saved, locals[q.1]? = some q.2) {t : Return ω}
    (ht : (env.funcs f).run args σ = some t) (hQ : AfterTranslation env m rest Q st ls saved t) :
    Wp env (.call f :: rest) Q ⟨args.reverse ++ st, locals, σ⟩ := by
  rw [wp_call f hargs]
  refine ⟨t, ht, ?_⟩
  cases t with
  | trap σ' => exact hQ
  | values ps σ' =>
    obtain ⟨p, rfl, hrest⟩ := hQ
    exact hrest locals h hsaved

theorem wp_uncheckedInline {fns : Translators} {l : Scratch} {g kind : ℕ} {va root : BitVec 32}
    {saved : List (ℕ × Value)} (h : Behind m ls locals)
    (hsaved : ∀ q ∈ saved, locals[q.1]? = some q.2) (hva : locals[l.ea]? = some (.i32 va))
    (hroot : σ.globals g = .i32 root) {t : Return ω}
    (ht : (match walk σ.memory root va with
      | none => some (.trap σ)
      | some (_, p) => some (.values [.i32 (phys p va)] σ)) = some t)
    (hQ : AfterTranslation env m rest Q st ls saved t) :
    Wp env (emitTranslate g l fns false false kind ++ rest) Q ⟨st, locals, σ⟩ := by
  simp only [emitTranslate, Bool.false_eq_true, if_false, List.append_assoc]
  rw [wp_readPgd hroot hva]
  unfold walk at ht
  cases hpgd : read32 σ.memory (pgdAddr root va) with
  | none =>
    rw [hpgd] at ht
    obtain rfl := Option.some.inj ht
    exact hQ
  | some e =>
    rw [hpgd] at ht
    dsimp only
    rw [wp_readPte e hva]
    cases hpte : read32 σ.memory (pteAddr e va) with
    | none =>
      rw [Option.bind_some, hpte] at ht
      obtain rfl := Option.some.inj ht
      exact hQ
    | some p =>
      rw [Option.bind_some, hpte] at ht
      obtain rfl := Option.some.inj ht
      obtain ⟨q, hq, hrest⟩ := hQ
      obtain rfl : phys p va = q := by simpa using hq
      dsimp only
      rw [wp_framePlus p hva]
      exact hrest locals h hsaved

theorem wp_checkedInline (hlinked : Linked env m) (hchecked : m.checked = true) {kind g : ℕ}
    {va root : BitVec 32} {saved : List (ℕ × Value)} (h : Behind m ls locals)
    (hsaved : ∀ q ∈ saved, locals[q.1]? = some q.2) (hrange : ∀ q ∈ saved, q.1 < m.base + 7)
    (hva : locals[m.scratch.ea]? = some (.i32 va)) (hroot : σ.globals g = .i32 root)
    {t : Return ω}
    (ht : (match walk σ.memory root va with
      | none => some (.trap σ)
      | some (e, p) => if true = true ∧ ¬ Present kind e p then
          (env.funcs m.fns.checkedTranslateFunc).run [.i32 va, .i32 (BitVec.ofInt 32 kind)] σ
        else some (.values [.i32 (phys p va)] σ)) = some t)
    (hQ : AfterTranslation env m rest Q st ls saved t) :
    Wp env (emitTranslate g m.scratch m.fns false true kind ++ rest) Q ⟨st, locals, σ⟩ := by
  have hfits := scratch_fits h hchecked
  cases hwalk : walk σ.memory root va with
  | none =>
    rw [hwalk] at ht
    obtain rfl := Option.some.inj ht
    simp only [emitTranslate, if_true, Bool.false_eq_true, if_false, List.append_assoc]
    rw [wp_predicate hfits hroot hva, hwalk]
    exact hQ
  | some entries =>
    obtain ⟨e, p⟩ := entries
    rw [hwalk] at ht
    dsimp only at ht
    have hbehind : Behind m ls (walked locals m.scratch e p) :=
      (h.set (show m.base ≤ m.scratch.pgdE from Nat.le_add_right ..) _).set
        (show m.base ≤ m.scratch.pte from Nat.le_add_right ..) _
    have hkept : ∀ i, i < m.base + 7 → (walked locals m.scratch e p)[i]? = locals[i]? := by
      intro i hi
      rw [walked, List.getElem?_set_ne (show m.scratch.pte ≠ i by simp only [Mode.scratch]; omega),
        List.getElem?_set_ne (show m.scratch.pgdE ≠ i by simp only [Mode.scratch]; omega)]
    have hsaved' : ∀ q ∈ saved, (walked locals m.scratch e p)[q.1]? = some q.2 := fun q hq => by
      rw [hkept q.1 (hrange q hq)]
      exact hsaved q hq
    by_cases hpresent : Present kind e p
    · rw [if_neg (by simp [hpresent])] at ht
      obtain rfl := Option.some.inj ht
      obtain ⟨q, hq, hrest⟩ := hQ
      obtain rfl : phys p va = q := by simpa using hq
      rw [wp_emitTranslate_present hfits hroot hva m.fns hwalk hpresent]
      exact hrest _ hbehind hsaved'
    · rw [if_pos ⟨rfl, hpresent⟩] at ht
      have hva' : (walked locals m.scratch e p)[m.scratch.ea]? = some (.i32 va) := by
        rw [hkept m.scratch.ea (show m.base < m.base + 7 by omega), hva]
      simp only [emitTranslate, if_true, Bool.false_eq_true, if_false, List.append_assoc,
        List.cons_append, List.nil_append]
      rw [wp_predicate hfits hroot hva, hwalk]
      dsimp only
      rw [wp_iteBool, if_neg hpresent, wp_localGet]
      simp only [hva', Option.some.injEq, exists_eq_left', wp_i32c]
      have hargs : [Value.i32 va, .i32 (BitVec.ofInt 32 kind)].length =
          (env.funcs m.fns.checkedTranslateFunc).params := hlinked.checked.symm
      refine wp_translateCall hargs hbehind hsaved' ht ?_
      cases t with
      | trap σ' => exact hQ
      | values ps σ' =>
        obtain ⟨q, rfl, hrest⟩ := hQ
        exact ⟨q, rfl, fun locals' hlocals hkeeps => wp_nil.mpr (hrest locals' hlocals hkeeps)⟩

/-- The emitted translation, in each of its forms. -/
theorem wp_translation (hlinked : Linked env m) {kind : ℕ} {va : BitVec 32}
    {saved : List (ℕ × Value)} (h : Behind m ls locals)
    (hsaved : ∀ q ∈ saved, locals[q.1]? = some q.2)
    (hrange : ∀ q ∈ saved, q.1 < m.base + 7)
    (hva : locals[m.scratch.ea]? = some (.i32 va)) {t : Return ω}
    (ht : translation env m kind va σ = some t) (hQ : AfterTranslation env m rest Q st ls saved t) :
    Wp env (emitTranslate m.ptBaseGlobal m.scratch m.fns m.helper m.checked kind ++ rest) Q
      ⟨st, locals, σ⟩ := by
  unfold translation at ht
  cases hhelper : m.helper with
  | true =>
    rw [hhelper] at ht
    cases hchecked : m.checked with
    | true =>
      rw [hchecked] at ht
      simp only [emitTranslate, if_true, List.cons_append, List.nil_append, wp_localGet, hva,
        Option.some.injEq, exists_eq_left', wp_i32c]
      have hargs : [Value.i32 va, .i32 (BitVec.ofInt 32 kind)].length =
          (env.funcs m.fns.checkedTranslateFunc).params := hlinked.checked.symm
      exact wp_translateCall hargs h hsaved ht hQ
    | false =>
      rw [hchecked] at ht
      simp only [emitTranslate, if_true, Bool.false_eq_true, if_false, List.cons_append,
        List.nil_append, wp_localGet, hva, Option.some.injEq, exists_eq_left']
      have hargs : [Value.i32 va].length = (env.funcs m.fns.translateFunc).params :=
        hlinked.translate.symm
      exact wp_translateCall hargs h hsaved ht hQ
  | false =>
    rw [hhelper] at ht
    simp only [Bool.false_eq_true, if_false] at ht
    cases hroot : σ.globals m.ptBaseGlobal with
    | i32 root =>
      rw [hroot] at ht
      dsimp only at ht
      cases hchecked : m.checked with
      | true =>
        rw [hchecked] at ht
        exact wp_checkedInline hlinked hchecked h hsaved hrange hva hroot ht hQ
      | false =>
        rw [hchecked] at ht
        exact wp_uncheckedInline h hsaved hva hroot ht hQ
    | _ =>
      rw [hroot] at ht
      cases ht

theorem mem_zip_reverse {slots : List ℕ} {vs : List Value} (hlen : slots.length = vs.length)
    (p : ℕ × Value) : p ∈ slots.reverse.zip vs.reverse ↔ p ∈ slots.zip vs := by
  have hzip : slots.reverse.zip vs.reverse = (slots.zip vs).reverse := by
    rw [List.zip_eq_zipWith, List.zip_eq_zipWith, List.reverse_zipWith hlen]
  rw [hzip, List.mem_reverse]

/-- An atomic of the rewritten code: its operands, at the translation of its address. -/
theorem wp_emitAtomic (hlinked : Linked env m) (a : Atomic) (align offset : ℕ)
    (harity : env.atomicOps a.opcode = a.operands.length) {vs : List Value}
    (htypes : vs.map Value.type = a.operands) (h : Behind m ls locals) {va : BitVec 32}
    {t : Return ω}
    (ht : translation env m (if a.writes then 1 else 0) (va + BitVec.ofInt 32 offset) σ = some t)
    (hQ : match t with
      | .trap σ' => Q (.trap σ')
      | .values ps σ' => ∃ p r, ps = [.i32 p] ∧ env.atomic a.opcode align p.toNat vs σ' = some r ∧
        match r with
        | .trap σ'' => Q (.trap σ'')
        | .values rs σ'' => ∀ locals', Behind m ls locals' →
          Wp env rest Q ⟨rs.reverse ++ st, locals', σ''⟩) (result : Bool) :
    Wp env (emitAtomic m ⟨a.operands, result⟩ a.opcode align offset ++ rest) Q
      ⟨vs.reverse ++ .i32 va :: st, locals, σ⟩ := by
  have hslots := operandSlots_fit m a
  have hlen : (m.operandSlots a.operands).length = vs.length := by
    rw [hslots.length, ← htypes, List.length_map]
  have hmem := mem_zip_reverse hlen
  have hslot : ∀ p ∈ (m.operandSlots a.operands).zip vs, m.base < p.1 ∧ p.1 < m.base + 7 :=
    fun p hp => hslots.range p.1 (List.of_mem_zip hp).1
  have hseven : m.base + 7 ≤ locals.length := by
    rw [h.length, Mode.scratchTypes, List.length_append]
    simp only [List.length_cons, List.length_nil]
    omega
  simp only [emitAtomic, List.append_assoc]
  rw [wp_saves _ (show (m.operandSlots a.operands).reverse.length = vs.reverse.length by
    rw [List.length_reverse, List.length_reverse, hlen])]
  have hsaved : ∀ p ∈ (m.operandSlots a.operands).zip vs,
      (((m.operandSlots a.operands).reverse.zip vs.reverse).foldl
        (fun ls p => ls.set p.1 p.2) locals)[p.1]? = some p.2 := by
    intro p hp
    refine getElem?_foldl_set ?_ (fun q hq => ?_) ((hmem p).mpr hp)
    · rw [List.map_fst_zip (by rw [List.length_reverse, List.length_reverse, hlen]),
        List.nodup_reverse]
      exact hslots.nodup
    · have hq' := hslot q ((hmem q).mp hq)
      omega
  have hbehind : Behind m ls (((m.operandSlots a.operands).reverse.zip vs.reverse).foldl
      (fun ls p => ls.set p.1 p.2) locals) :=
    h.foldl_set fun q hq => (hslot q ((hmem q).mp hq)).1.le
  generalize ((m.operandSlots a.operands).reverse.zip vs.reverse).foldl
    (fun ls p => ls.set p.1 p.2) locals = saved at hsaved hbehind
  have hadd : ∀ code, Wp env ((if offset ≠ 0 then [i32c offset, .num .i32Add] else []) ++ code) Q
      ⟨.i32 va :: st, saved, σ⟩ ↔
      Wp env code Q ⟨.i32 (va + BitVec.ofInt 32 offset) :: st, saved, σ⟩ := by
    intro code
    by_cases hoffset : offset = 0
    · rw [if_neg (not_not.mpr hoffset), hoffset]
      simp
    · rw [if_pos hoffset]
      simp only [List.cons_append, List.nil_append, wp_i32c, wp_num, NumOp.eval, Option.some.injEq,
        exists_eq_left']
  rw [hadd, List.singleton_append, wp_localSet, atomicFaultKind_opcode]
  have hea : ∀ p ∈ (m.operandSlots a.operands).zip vs,
      (saved.set m.ea (.i32 (va + BitVec.ofInt 32 offset)))[p.1]? = some p.2 := by
    intro p hp
    have hne : m.ea ≠ p.1 := (hslot p hp).1.ne
    rw [List.getElem?_set_ne hne, hsaved p hp]
  have hlength := hbehind.length
  rw [h.length.symm] at hlength
  refine wp_translation hlinked (hbehind.set (le_refl m.base) _) hea (fun p hp => (hslot p hp).2)
    (List.getElem?_set_self (show m.base < saved.length by omega)) ht ?_
  cases t with
  | trap σ' => exact hQ
  | values ps σ' =>
    obtain ⟨p, r, rfl, hr, hrest⟩ := hQ
    refine ⟨p, rfl, fun locals' hlocals hkeeps => ?_⟩
    rw [wp_restores _ hlen hkeeps, List.singleton_append,
      wp_atomic _ _ _ (by rw [harity, ← htypes, List.length_map])]
    refine ⟨r, hr, ?_⟩
    cases r with
    | trap σ'' => exact hrest
    | values rs σ'' => exact hrest locals' hlocals

/-- Instructions that are copied: they do not look at the scratch locals. -/
def Plain (base : ℕ) : Instr → Prop
  | .localGet i | .localSet i | .localTee i => i < base
  | .const _ | .globalGet _ | .num _ | .drop | .select | .call _ => True
  | _ => False

/-- What a copied instruction does with its own locals, it does with more behind them. -/
theorem plain_step {i : Instr} {fuel : ℕ} {o : Outcome ω} (sc : List Value)
    (hplain : Plain ls.length i) (hstep : step env fuel i ⟨st, ls, σ⟩ = some o) :
    (∃ st' ls' σ', o = .next ⟨st', ls', σ'⟩ ∧ ls'.length = ls.length ∧
      step env fuel i ⟨st, ls ++ sc, σ⟩ = some (.next ⟨st', ls' ++ sc, σ'⟩)) ∨
    ∃ σ', o = .trap σ' ∧ step env fuel i ⟨st, ls ++ sc, σ⟩ = some (.trap σ') := by
  cases i with
  | const v =>
    cases hstep
    exact Or.inl ⟨_, _, _, rfl, rfl, rfl⟩
  | globalGet g =>
    cases hstep
    exact Or.inl ⟨_, _, _, rfl, rfl, rfl⟩
  | localGet k =>
    obtain ⟨v, hv, rfl⟩ := Option.map_eq_some_iff.mp hstep
    refine Or.inl ⟨_, _, _, rfl, rfl, ?_⟩
    have hbehind : (ls ++ sc)[k]? = some v := by
      rw [List.getElem?_append_left hplain]
      exact hv
    simp only [step, hbehind, Option.map_some]
  | localSet k =>
    cases st with
    | nil => cases hstep
    | cons v st =>
      cases hstep
      refine Or.inl ⟨_, _, _, rfl, List.length_set .., ?_⟩
      simp only [step, List.set_append_left _ _ hplain]
  | localTee k =>
    cases st with
    | nil => cases hstep
    | cons v st =>
      cases hstep
      refine Or.inl ⟨_, _, _, rfl, List.length_set .., ?_⟩
      simp only [step, List.set_append_left _ _ hplain]
  | num op =>
    obtain ⟨st', hst', rfl⟩ := Option.map_eq_some_iff.mp hstep
    refine Or.inl ⟨_, _, _, rfl, rfl, ?_⟩
    simp only at hst'
    simp only [step, hst', Option.map_some]
  | drop =>
    cases st with
    | nil => cases hstep
    | cons v st =>
      cases hstep
      exact Or.inl ⟨_, _, _, rfl, rfl, rfl⟩
  | select =>
    simp only [step] at hstep ⊢
    split at hstep
    · cases hstep
      exact Or.inl ⟨_, _, _, rfl, rfl, rfl⟩
    · cases hstep
  | call f =>
    simp only [step, invoke] at hstep ⊢
    split at hstep
    · cases hstep
    · next henough =>
      rw [if_neg henough]
      obtain ⟨r, hr, rfl⟩ := Option.map_eq_some_iff.mp hstep
      rw [hr, Option.map_some]
      cases r with
      | trap σ' => exact Or.inr ⟨σ', rfl, rfl⟩
      | values vs σ' => exact Or.inl ⟨_, _, _, rfl, rfl, rfl⟩
  | _ => exact hplain.elim

/-- Code with atomics does over user addresses what it did, whatever other atomics it has: the
rewritten code ends as the function did, with its own locals and stack. -/
theorem wp_rewriteAll (hlinked : Linked env m)
    (harity : ∀ a : Atomic, env.atomicOps a.opcode = a.operands.length) (pieces : List Piece)
    (hplain : ∀ i, .plain i ∈ pieces → Plain m.base i) (h : Behind m ls locals)
    (hwp : VirtualWp env m pieces Q ⟨st, ls, σ⟩) :
    Wp env (rewriteAll m pieces) (Unscratched m Q) ⟨st, locals, σ⟩ := by
  induction pieces generalizing st ls locals σ with
  | nil => exact wp_nil.mpr ⟨ls, h, hwp⟩
  | cons piece pieces ih =>
    have hrest : ∀ i, .plain i ∈ pieces → Plain m.base i := fun i hi =>
      hplain i (List.mem_cons_of_mem _ hi)
    rw [rewriteAll, List.flatMap_cons]
    cases piece with
    | plain i =>
      obtain ⟨fuel, o, hstep, hQ⟩ := hwp
      obtain ⟨hls, sc, hsc, rfl⟩ := h
      rw [rewritePiece, List.singleton_append, wp_cons]
      have hi : Plain ls.length i := by
        rw [hls]
        exact hplain i List.mem_cons_self
      obtain ⟨st', ls', σ', rfl, hlen, hstep'⟩ | ⟨σ', rfl, hstep'⟩ := plain_step sc hi hstep
      · exact ⟨fuel, _, hstep', ih hrest ⟨hlen.trans hls, sc, hsc, rfl⟩ hQ⟩
      · exact ⟨fuel, _, hstep', hQ⟩
    | atomic a align offset =>
      obtain ⟨vs, va, st', hstack, htypes, t, ht, hQ⟩ := hwp
      obtain rfl : st = vs.reverse ++ .i32 va :: st' := hstack
      have hpiece : rewritePiece m (.atomic a align offset) =
          emitAtomic m ⟨a.operands, a.result.isSome⟩ a.opcode align offset := by
        rw [rewritePiece, atomicOps_opcode]
      rw [hpiece]
      refine wp_emitAtomic hlinked a align offset (harity a) htypes h ht ?_ _
      cases t with
      | trap σ' => exact hQ
      | values ps σ' =>
        obtain ⟨p, r, hp, hr, hQ⟩ := hQ
        refine ⟨p, r, hp, hr, ?_⟩
        cases r with
        | trap σ'' => exact hQ
        | values rs σ'' => exact fun locals' hlocals => ih hrest hlocals hQ

end Emitted

/-- The atomics of the pass: the table has every instruction with the operands and the kind of
access that it has, the scratch locals have the operands' types, and code with any number of them
runs as it did, each at the translation of its address. -/
theorem atomics_preserved {ω : Type} (env : Env ω) (m : Mode) (hlinked : Linked env m)
    (harity : ∀ a : Atomic, env.atomicOps a.opcode = a.operands.length) :
    (∀ a : Atomic, atomicOps a.opcode = some ⟨a.operands, a.result.isSome⟩ ∧
      (atomicFaultKind a.opcode = if a.writes then 1 else 0) ∧
      SlotsFit m (m.operandSlots a.operands) a.operands) ∧
    ∀ (pieces : List Piece) (Q : Outcome ω → Prop) (st ls locals : List Value) (σ : Store ω),
      (∀ i, .plain i ∈ pieces → Plain m.base i) → Behind m ls locals →
      VirtualWp env m pieces Q ⟨st, ls, σ⟩ →
      Wp env (rewriteAll m pieces) (Unscratched m Q) ⟨st, locals, σ⟩ :=
  ⟨fun a => ⟨atomicOps_opcode a, atomicFaultKind_opcode a, operandSlots_fit m a⟩,
    fun pieces _ _ _ _ _ hplain h hwp => wp_rewriteAll hlinked harity pieces hplain h hwp⟩

section Runs

/-- `i64.atomic.rmw.cmpxchg`, the only atomic of the run below. -/
def cmpxchg64 : ℕ → ℕ → ℕ → List Value → Store Unit → Option (Return Unit)
  | 0x49, _, ea, [.i64 expected, .i64 replacement], σ =>
    if ea % 8 ≠ 0 then some (.trap σ)
    else match load σ.memory ea 8 with
      | none => some (.trap σ)
      | some old =>
        if leValue old = expected.toNat then
          some (.values [.i64 (BitVec.ofNat 64 (leValue old))]
            { σ with memory := splice σ.memory ea (leBytes 8 replacement.toNat) })
        else some (.values [.i64 (BitVec.ofNat 64 (leValue old))] σ)
  | _, _, _, _, _ => none

def cmpxchgEnv : Env Unit where
  funcs f := ⟨f + 1, fun _ _ => none⟩
  table _ _ := ⟨0, fun _ _ => none⟩
  atomicOps sub := ((atomicOps sub).map fun a => a.opsAbove.length).getD 0
  atomic := cmpxchg64

/-- A page table in the first two words, a counter behind it. -/
def counterStore (counter : UInt8) : Store Unit :=
  ⟨[3, 0, 0, 0, 1, 0, 0, 0, counter, 0, 0, 0, 0, 0, 0, 0], fun _ => .i32 4, fun _ => [], ()⟩

/-- Two exchanges in a row: the first one finds 5, the second one what the first one stored. -/
theorem atomics_preserved_twice :
    Wp cmpxchgEnv (rewriteAll ⟨0, 1, ⟨0, 1⟩, false, false⟩
        [.atomic (.cmpxchg .i64) 3 8, .plain .drop, .atomic (.cmpxchg .i64) 3 8])
      (Unscratched ⟨0, 1, ⟨0, 1⟩, false, false⟩
        (fun o => o = .next ⟨[.i64 6], [.i32 9], counterStore 7⟩))
      ⟨[.i64 6, .i64 5, .i32 0, .i64 7, .i64 6, .i32 0],
        [.i32 9, .i32 0, .i32 0, .i64 0, .f32 0, .f64 0, .i32 0, .i64 0], counterStore 5⟩ := by
  refine (atomics_preserved cmpxchgEnv ⟨0, 1, ⟨0, 1⟩, false, false⟩ ⟨rfl, rfl⟩ ?_).2 _ _ _
    [.i32 9] _ _ ?_ ⟨rfl, [.i32 0, .i32 0, .i64 0, .f32 0, .f64 0, .i32 0, .i64 0], rfl, rfl⟩ ?_
  · intro a
    simp only [cmpxchgEnv, atomicOps_opcode, Option.map_some, Option.getD_some]
  · intro i hi
    simp only [List.mem_cons, reduceCtorEq, Piece.plain.injEq, List.not_mem_nil, or_false,
      false_or] at hi
    rw [hi]
    trivial
  · refine ⟨[.i64 5, .i64 6], 0, [.i64 7, .i64 6, .i32 0], rfl, rfl, _, rfl, 8, _, rfl, rfl, ?_⟩
    refine ⟨0, _, rfl, ?_⟩
    exact ⟨[.i64 6, .i64 7], 0, [], rfl, rfl, _, rfl, 8, _, rfl, rfl, rfl⟩

end Runs

end NixWasm.SoftmmuAtomics
