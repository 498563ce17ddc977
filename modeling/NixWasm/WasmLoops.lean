import NixWasm.Wasm

/-!
Loops and bulk memory. Code without loops runs the same with any fuel; a loop that counts a local
down to zero has an invariant with less to do after every round; the bulk instructions move whole
ranges or trap.
-/
namespace NixWasm.Wasm

open ByteStore

variable {ω : Type} {env : Env ω}

section LoopFree

mutual

def LoopFree : List Instr → Prop
  | [] => True
  | i :: rest => LoopFreeInstr i ∧ LoopFree rest

def LoopFreeInstr : Instr → Prop
  | .loop _ => False
  | .block _ body => LoopFree body
  | .ite _ thenBody elseBody => LoopFree thenBody ∧ LoopFree elseBody
  | _ => True

end

mutual

theorem exec_loopFree (fuel fuel' : ℕ) : (p : List Instr) → LoopFree p → (s : Frame ω) →
    exec env fuel p s = exec env fuel' p s
  | [], _, _ => rfl
  | i :: rest, h, s => by
    simp only [exec]
    rw [step_loopFree fuel fuel' i h.1 s]
    cases step env fuel' i s with
    | none => rfl
    | some o =>
      cases o with
      | next s' => exact exec_loopFree fuel fuel' rest h.2 s'
      | _ => rfl

theorem step_loopFree (fuel fuel' : ℕ) : (i : Instr) → LoopFreeInstr i → (s : Frame ω) →
    step env fuel i s = step env fuel' i s
  | .block result body, h, s => by
    simp only [step]
    rw [exec_loopFree fuel fuel' body h s]
  | .ite result thenBody elseBody, h, s => by
    simp only [step]
    split
    · rw [exec_loopFree fuel fuel' thenBody h.1, exec_loopFree fuel fuel' elseBody h.2]
    · rfl
  | .const v, _, s => rfl
  | .localGet i, _, s => rfl
  | .localSet i, _, s => rfl
  | .localTee i, _, s => rfl
  | .globalGet i, _, s => rfl
  | .num op, _, s => rfl
  | .load t offset, _, s => rfl
  | .store t offset, _, s => rfl
  | .loadAs op align offset, _, s => rfl
  | .storeAs op align offset, _, s => rfl
  | .atomic sub align offset, _, s => rfl
  | .memoryCopy, _, s => rfl
  | .memoryFill, _, s => rfl
  | .memoryInit seg, _, s => rfl
  | .drop, _, s => rfl
  | .select, _, s => rfl
  | .call f, _, s => rfl
  | .callIndirect type, _, s => rfl
  | .br depth, _, s => rfl
  | .brIf depth, _, s => rfl
  | .ret, _, s => rfl
  | .unreachable, _, s => rfl

end

theorem Wp.loopFree {p : List Instr} {Q : Outcome ω → Prop} {s : Frame ω} (h : Wp env p Q s)
    (hfree : LoopFree p) (fuel : ℕ) : ∃ o, exec env fuel p s = some o ∧ Q o := by
  obtain ⟨fuel', o, ho, hQ⟩ := h
  exact ⟨o, (exec_loopFree fuel fuel' p hfree s).trans ho, hQ⟩

end LoopFree

section Rules
variable {Q : Outcome ω → Prop} {rest : List Instr} {st ls : List Value} {σ : Store ω}

theorem wp_memoryCopy (dst src n : BitVec 32) {bytes : List UInt8}
    (hload : load σ.memory src.toNat n.toNat = some bytes)
    (hfits : dst.toNat + bytes.length ≤ σ.memory.length) :
    Wp env (.memoryCopy :: rest) Q ⟨.i32 n :: .i32 src :: .i32 dst :: st, ls, σ⟩ ↔
      Wp env rest Q ⟨st, ls, { σ with memory := splice σ.memory dst.toNat bytes }⟩ := by
  rw [wp_of_eq fun _ => rfl]
  simp [hload, storeBytes, store, hfits, andThen]

theorem wp_memoryFill (dst v n : BitVec 32) (hfits : dst.toNat + n.toNat ≤ σ.memory.length) :
    Wp env (.memoryFill :: rest) Q ⟨.i32 n :: .i32 v :: .i32 dst :: st, ls, σ⟩ ↔
      Wp env rest Q ⟨st, ls, { σ with
        memory := splice σ.memory dst.toNat (List.replicate n.toNat (UInt8.ofNat v.toNat)) }⟩ := by
  rw [wp_of_eq fun _ => rfl]
  simp [storeBytes, store, hfits, andThen]

theorem wp_memoryInit (seg : ℕ) (dst src n : BitVec 32) {bytes : List UInt8}
    (hload : load (σ.datas seg) src.toNat n.toNat = some bytes)
    (hfits : dst.toNat + bytes.length ≤ σ.memory.length) :
    Wp env (.memoryInit seg :: rest) Q ⟨.i32 n :: .i32 src :: .i32 dst :: st, ls, σ⟩ ↔
      Wp env rest Q ⟨st, ls, { σ with memory := splice σ.memory dst.toNat bytes }⟩ := by
  rw [wp_of_eq fun _ => rfl]
  simp [hload, storeBytes, store, hfits, andThen]

/-- `block { loop { if local n is zero, leave; body; again } }`. -/
def whileNonzero (n : ℕ) (body : List Instr) : Instr :=
  .block none [.loop ([.localGet n, .num .i32Eqz, .brIf 1] ++ body ++ [.br 0])]

/-- The rule of such a loop: a round of the body keeps the invariant with less to do. -/
theorem wp_whileNonzero (n : ℕ) (body : List Instr) (I : ℕ → List Value → Store ω → Prop)
    (hround : ∀ k ls σ, I k ls σ → ∃ x, ls[n]? = some (.i32 x) ∧
      (x = 0 → Wp env rest Q ⟨st, ls, σ⟩) ∧
      (x ≠ 0 → Wp env body (fun o => ∃ ls' σ', o = .next ⟨st, ls', σ'⟩ ∧ ∃ j, j < k ∧ I j ls' σ')
        ⟨st, ls, σ⟩)) {k : ℕ} (hI : I k ls σ) :
    Wp env (whileNonzero n body :: rest) Q ⟨st, ls, σ⟩ := by
  rw [whileNonzero, wp_block, wp_cons]
  refine wpStep_loop (fun k s => s.stack = st ∧ I k s.locals s.store) ?_ (n := k) ⟨rfl, hI⟩
  rintro k ⟨st', ls', σ'⟩ ⟨rfl, hI'⟩
  obtain ⟨x, hx, hdone, hbody⟩ := hround k ls' σ' hI'
  simp only [List.cons_append, List.nil_append, wp_localGet, hx, Option.some.injEq,
    exists_eq_left', wp_num, NumOp.eval]
  rw [wp_brIfBool]
  by_cases hzero : x = 0
  · rw [if_pos hzero]
    exact hdone hzero
  · rw [if_neg hzero, wp_append]
    refine (hbody hzero).mono ?_
    rintro o ⟨ls'', σ'', rfl, j, hj, hIj⟩
    exact (wp_br 0).mpr ⟨j, hj, rfl, hIj⟩

end Rules

end NixWasm.Wasm
