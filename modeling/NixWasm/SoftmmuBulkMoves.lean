import NixWasm.SoftmmuBulkRuns

/-!
The bulk helpers as functions on user memory.
-/
namespace NixWasm.SoftmmuBulk

open Bytes ByteStore Wasm SoftmmuWalk

section Loops
variable {ω : Type} {env : Env ω} {rest : List Instr} {st : List Value} {σ : Store ω}
  {g translateFunc : ℕ} {ckFunc : Option ℕ} {root d : BitVec 32} {dst : ℕ → ℕ}

/-- `__mmu_memfill` fills its range. -/
theorem wp_memfillHelperBody (hlinked : Linked env g translateFunc ckFunc)
    (hroot : σ.globals g = .i32 root) {v r : BitVec 32}
    (h : Destination σ.memory root ckFunc.isSome d r.toNat dst) (c₀ : Value) :
    Wp env (memfillHelperBody translateFunc ckFunc) (fun o => ∃ ls memory',
        o = .next ⟨st, ls, { σ with memory := memory' }⟩ ∧
        Scattered σ.memory memory' dst (fun _ => some (UInt8.ofNat v.toNat)) (· < r.toNat))
      ⟨st, [.i32 d, .i32 v, .i32 r, c₀], σ⟩ := by
  refine wp_whileNonzero 2 _ (fun k ls σ' => ∃ (i : ℕ) (r' : BitVec 32) (c : Value)
    (memory' : List UInt8), r'.toNat = k ∧ i + r'.toNat = r.toNat ∧
      ls = [.i32 (d + BitVec.ofNat 32 i), .i32 v, .i32 r', c] ∧
      σ' = { σ with memory := memory' } ∧
      Scattered σ.memory memory' dst (fun _ => some (UInt8.ofNat v.toNat)) (· < i)) ?_
    (k := r.toNat) ⟨0, r, c₀, σ.memory, rfl, by omega, by simp, rfl,
      (Scattered.none _ _ _).congr fun i => by simp⟩
  rintro k ls σ' ⟨i, r', c, memory', hk, hi, rfl, rfl, hscattered⟩
  refine ⟨r', rfl, ?_, ?_⟩
  · rintro rfl
    refine wp_nil.mpr ⟨_, memory', rfl, hscattered.congr fun j => ?_⟩
    simp at hi
    omega
  · intro hr
    refine (wp_memfillRound hlinked hroot h hi hr c hscattered).mono ?_
    rintro o ⟨c', memory'', hpos, hle, rfl, hscattered'⟩
    have hsub := sub_toNat hle
    exact ⟨_, _, rfl, r'.toNat - c'.toNat, by omega, i + c'.toNat, r' - c', _, memory'', hsub,
      by omega, rfl, rfl, hscattered'⟩

/-- `__mmu_meminit_<seg>` writes bytes of its segment. -/
theorem wp_meminitHelperBody (hlinked : Linked env g translateFunc ckFunc)
    (hroot : σ.globals g = .i32 root) {s r : BitVec 32} {seg : ℕ}
    (h : Destination σ.memory root ckFunc.isSome d r.toNat dst)
    (hs : s.toNat + r.toNat ≤ 2 ^ 32) (hdata : s.toNat + r.toNat ≤ (σ.datas seg).length)
    (c₀ : Value) :
    Wp env (meminitHelperBody translateFunc ckFunc seg) (fun o => ∃ ls memory',
        o = .next ⟨st, ls, { σ with memory := memory' }⟩ ∧
        Scattered σ.memory memory' dst (fun i => (σ.datas seg)[s.toNat + i]?) (· < r.toNat))
      ⟨st, [.i32 d, .i32 s, .i32 r, c₀], σ⟩ := by
  refine wp_whileNonzero 2 _ (fun k ls σ' => ∃ (i : ℕ) (r' : BitVec 32) (c : Value)
    (memory' : List UInt8), r'.toNat = k ∧ i + r'.toNat = r.toNat ∧
      ls = [.i32 (d + BitVec.ofNat 32 i), .i32 (s + BitVec.ofNat 32 i), .i32 r', c] ∧
      σ' = { σ with memory := memory' } ∧
      Scattered σ.memory memory' dst (fun i => (σ.datas seg)[s.toNat + i]?) (· < i)) ?_
    (k := r.toNat) ⟨0, r, c₀, σ.memory, rfl, by omega, by simp, rfl,
      (Scattered.none _ _ _).congr fun i => by simp⟩
  rintro k ls σ' ⟨i, r', c, memory', hk, hi, rfl, rfl, hscattered⟩
  refine ⟨r', rfl, ?_, ?_⟩
  · rintro rfl
    refine wp_nil.mpr ⟨_, memory', rfl, hscattered.congr fun j => ?_⟩
    simp at hi
    omega
  · intro hr
    refine (wp_meminitRound hlinked hroot h hs hdata hi hr c hscattered).mono ?_
    rintro o ⟨c', memory'', hpos, hle, rfl, hscattered'⟩
    have hsub := sub_toNat hle
    exact ⟨_, _, rfl, r'.toNat - c'.toNat, by omega, i + c'.toNat, r' - c', _, memory'', hsub,
      by omega, rfl, rfl, hscattered'⟩

variable {s r : BitVec 32} {src : ℕ → ℕ}

theorem wp_forwardLoop (hlinked : Linked env g translateFunc ckFunc)
    (hroot : σ.globals g = .i32 root) (h : Destination σ.memory root ckFunc.isSome d r.toNat dst)
    (h' : Source σ.memory root ckFunc.isSome d s r.toNat dst src)
    (horder : d.toNat ≤ s.toNat ∨ s.toNat + r.toNat ≤ d.toNat) (c₀ t₀ : Value)
    {Q : Outcome ω → Prop}
    (hQ : ∀ ls memory', Scattered σ.memory memory' dst (fun i => σ.memory[src i]?) (· < r.toNat) →
      Wp env rest Q ⟨st, ls, { σ with memory := memory' }⟩) :
    Wp env (whileNonzero 2 (memcpyForward translateFunc ckFunc) :: rest) Q
      ⟨st, [.i32 d, .i32 s, .i32 r, c₀, t₀], σ⟩ := by
  refine wp_whileNonzero 2 _ (fun k ls σ' => ∃ (i : ℕ) (r' : BitVec 32) (c t : Value)
    (memory' : List UInt8), r'.toNat = k ∧ i + r'.toNat = r.toNat ∧
      ls = [.i32 (d + BitVec.ofNat 32 i), .i32 (s + BitVec.ofNat 32 i), .i32 r', c, t] ∧
      σ' = { σ with memory := memory' } ∧
      Scattered σ.memory memory' dst (fun i => σ.memory[src i]?) (· < i)) ?_
    (k := r.toNat) ⟨0, r, c₀, t₀, σ.memory, rfl, by omega, by simp, rfl,
      (Scattered.none _ _ _).congr fun i => by simp⟩
  rintro k ls σ' ⟨i, r', c, t, memory', hk, hi, rfl, rfl, hscattered⟩
  refine ⟨r', rfl, ?_, ?_⟩
  · rintro rfl
    refine hQ _ memory' (hscattered.congr fun j => ?_)
    simp at hi
    omega
  · intro hr
    refine (wp_memcpyForward hlinked hroot h h' horder hi hr c t hscattered).mono ?_
    rintro o ⟨c', t', memory'', hpos, hle, rfl, hscattered'⟩
    have hsub := sub_toNat hle
    exact ⟨_, _, rfl, r'.toNat - c'.toNat, by omega, i + c'.toNat, r' - c', _, _, memory'', hsub,
      by omega, rfl, rfl, hscattered'⟩

theorem wp_backwardLoop (hlinked : Linked env g translateFunc ckFunc)
    (hroot : σ.globals g = .i32 root) (h : Destination σ.memory root ckFunc.isSome d r.toNat dst)
    (h' : Source σ.memory root ckFunc.isSome d s r.toNat dst src) (horder : s.toNat < d.toNat)
    (c₀ t₀ : Value) {Q : Outcome ω → Prop}
    (hQ : ∀ ls memory', Scattered σ.memory memory' dst (fun i => σ.memory[src i]?) (· < r.toNat) →
      Wp env rest Q ⟨st, ls, { σ with memory := memory' }⟩) :
    Wp env (whileNonzero 2 (memcpyBackward translateFunc ckFunc) :: rest) Q
      ⟨st, [.i32 d, .i32 s, .i32 r, c₀, t₀], σ⟩ := by
  refine wp_whileNonzero 2 _ (fun k ls σ' => ∃ (r' : BitVec 32) (c t : Value)
    (memory' : List UInt8), r'.toNat = k ∧ r'.toNat ≤ r.toNat ∧
      ls = [.i32 d, .i32 s, .i32 r', c, t] ∧ σ' = { σ with memory := memory' } ∧
      Scattered σ.memory memory' dst (fun i => σ.memory[src i]?)
        fun i => r'.toNat ≤ i ∧ i < r.toNat) ?_
    (k := r.toNat) ⟨r, c₀, t₀, σ.memory, rfl, by omega, rfl, rfl,
      (Scattered.none _ _ _).congr fun i => by simp⟩
  rintro k ls σ' ⟨r', c, t, memory', hk, hle', rfl, rfl, hscattered⟩
  refine ⟨r', rfl, ?_, ?_⟩
  · rintro rfl
    exact hQ _ memory' (hscattered.congr fun j => by simp)
  · intro hr
    refine (wp_memcpyBackward hlinked hroot h h' horder hle' hr c t hscattered).mono ?_
    rintro o ⟨c', t', memory'', hpos, hle, rfl, hscattered'⟩
    have hsub := sub_toNat hle
    exact ⟨_, _, rfl, r'.toNat - c'.toNat, by omega, r' - c', _, _, memory'', hsub, by omega,
      rfl, rfl, hsub ▸ hscattered'⟩

/-- `__mmu_memcpy` moves its range. The test for the direction adds `s + n` in 32 bits; where that
wraps, the destination does not start behind the source. -/
theorem wp_memcpyHelperBody (hlinked : Linked env g translateFunc ckFunc)
    (hroot : σ.globals g = .i32 root) (h : Destination σ.memory root ckFunc.isSome d r.toNat dst)
    (h' : Source σ.memory root ckFunc.isSome d s r.toNat dst src) (c₀ t₀ : Value) :
    Wp env (memcpyHelperBody translateFunc ckFunc) (fun o => ∃ ls memory',
        (o = .next ⟨[], ls, { σ with memory := memory' }⟩ ∨
          o = .ret ⟨[], ls, { σ with memory := memory' }⟩) ∧
        Scattered σ.memory memory' dst (fun i => σ.memory[src i]?) (· < r.toNat))
      ⟨[], [.i32 d, .i32 s, .i32 r, c₀, t₀], σ⟩ := by
  have hdbound := h.mapped.bound
  have hsbound := h'.mapped.bound
  have hend : (s + r).toNat = (s.toNat + r.toNat) % 2 ^ 32 := BitVec.toNat_add s r
  have hforward : (d.toNat ≤ s.toNat ∨ s.toNat + r.toNat ≤ d.toNat) →
      Wp env [whileNonzero 2 (memcpyForward translateFunc ckFunc)] (fun o => ∃ ls memory',
        (o = .next ⟨[], ls, { σ with memory := memory' }⟩ ∨
          o = .ret ⟨[], ls, { σ with memory := memory' }⟩) ∧
        Scattered σ.memory memory' dst (fun i => σ.memory[src i]?) (· < r.toNat))
        ⟨[], [.i32 d, .i32 s, .i32 r, c₀, t₀], σ⟩ := fun horder =>
    wp_forwardLoop hlinked hroot h h' horder c₀ t₀ fun ls memory' hscattered =>
      wp_nil.mpr ⟨ls, memory', Or.inl rfl, hscattered⟩
  rw [memcpyHelperBody, wp_block]
  simp only [wp_localGet, List.getElem?_cons_zero, List.getElem?_cons_succ, Option.some.injEq,
    exists_eq_left', wp_num, NumOp.eval]
  rw [wp_brIfBool]
  by_cases hbefore : d.toNat ≤ s.toNat
  · rw [if_pos hbefore]
    exact hforward (Or.inl hbefore)
  rw [if_neg hbefore]
  simp only [wp_localGet, List.getElem?_cons_zero, List.getElem?_cons_succ, Option.some.injEq,
    exists_eq_left', wp_num, NumOp.eval]
  rw [wp_brIfBool]
  by_cases hbehind : (s + r).toNat ≤ d.toNat
  · rw [if_pos hbehind]
    exact hforward (Or.inr (by omega))
  · rw [if_neg hbehind]
    refine wp_backwardLoop hlinked hroot h h' (by omega) c₀ t₀ fun ls memory' hscattered => ?_
    exact wp_ret.mpr ⟨ls, memory', Or.inr rfl, hscattered⟩

end Loops

section User
variable {ω : Type} {memory memory' : List UInt8} {root d : BitVec 32} {n : ℕ} {dst : ℕ → ℕ}

/-- The byte at a user address. -/
def userByte (memory : List UInt8) (root va : BitVec 32) : Option UInt8 :=
  (walk memory root va).bind fun ep => memory[(phys ep.2 va).toNat]?

/-- The `n` user bytes from `d` on have become `item`, and nothing else has changed: no other user
byte whose page entries and place are apart from them, and no byte behind any other place. -/
structure Moved (memory memory' : List UInt8) (root d : BitVec 32) (n : ℕ) (dst : ℕ → ℕ)
    (item : ℕ → Option UInt8) : Prop where
  length : memory'.length = memory.length
  moved : ∀ i, i < n → userByte memory' root (d + BitVec.ofNat 32 i) = item i
  others : ∀ va, (∀ i, i < n → ¬ EntryByte memory root va (dst i)) →
    (∀ e p, walk memory root va = some (e, p) → ∀ i, i < n → dst i ≠ (phys p va).toNat) →
    userByte memory' root va = userByte memory root va
  frame : ∀ q, (∀ i, i < n → dst i ≠ q) → memory'[q]? = memory[q]?

theorem Mapped.userByte {checked : Bool} {kind : ℕ} {a : BitVec 32} {place : ℕ → ℕ}
    (h : Mapped memory root checked kind a n place) {i : ℕ} (hi : i < n) :
    userByte memory root (a + BitVec.ofNat 32 i) = memory[place i]? := by
  obtain ⟨e, p, hwalk, -, hplace⟩ := h.walks i hi
  rw [SoftmmuBulk.userByte, hwalk, ← hplace]
  rfl

/-- Items that are stored at their places are the user bytes there. -/
theorem Destination.moved {checked : Bool} {item : ℕ → Option UInt8}
    (h : Destination memory root checked d n dst)
    (hscattered : Scattered memory memory' dst item (· < n)) :
    Moved memory memory' root d n dst item where
  length := hscattered.length
  moved i hi := by
    obtain ⟨e, p, hwalk, -, hplace⟩ := h.mapped.walks i hi
    have hwalk' := (walk_scattered hscattered fun j hj => h.apart i j hi hj).trans hwalk
    rw [userByte, hwalk', ← hscattered.stored i hi, ← hplace]
    rfl
  others va hentry hplace := by
    rw [userByte, userByte, walk_scattered hscattered hentry]
    refine Option.bind_congr fun ep hwalk => ?_
    exact hscattered.frame _ fun i hi => hplace ep.1 ep.2 hwalk i hi
  frame := hscattered.frame

end User

section Helpers
variable {ω : Type} {env : Env ω} {σ : Store ω} {g translateFunc : ℕ} {ckFunc : Option ℕ}
  {root d n : BitVec 32} {dst : ℕ → ℕ}

/-- The call of a helper ends, and has moved `item` to the user bytes from `d` on. -/
def Moves (env : Env ω) (locals : List Value) (body : List Instr) (args : List Value)
    (σ : Store ω) (root d : BitVec 32) (n : ℕ) (dst : ℕ → ℕ) (item : ℕ → Option UInt8) : Prop :=
  ∃ fuel memory',
    (Func.ofBody env fuel 3 0 locals body).run args σ =
      some (.values [] { σ with memory := memory' }) ∧
    Moved σ.memory memory' root d n dst item

theorem moves_of_wp {locals args : List Value} {body : List Instr} {item : ℕ → Option UInt8}
    (h : Destination σ.memory root ckFunc.isSome d n.toNat dst)
    (hwp : Wp env body (fun o => ∃ ls memory',
        (o = .next ⟨[], ls, { σ with memory := memory' }⟩ ∨
          o = .ret ⟨[], ls, { σ with memory := memory' }⟩) ∧
        Scattered σ.memory memory' dst item (· < n.toNat)) ⟨[], args ++ locals, σ⟩) :
    Moves env locals body args σ root d n.toNat dst item := by
  obtain ⟨fuel, o, ho, ls, memory', hend, hscattered⟩ := hwp
  refine ⟨fuel, memory', ?_, h.moved hscattered⟩
  obtain rfl | rfl := hend
  · simp only [Func.ofBody, ho, List.reverse_nil]
  · simp only [Func.ofBody, ho, List.take_nil, List.reverse_nil]

/-- The appended helpers are memmove, memset and the copy out of a segment, on user memory: for
pages that are there, bytes of the destination at places of their own and apart from the page
tables, and a source that shares a place with the destination only as the same user byte. -/
theorem bulkHelpers_move_user_bytes (hlinked : Linked env g translateFunc ckFunc)
    (hroot : σ.globals g = .i32 root)
    (hdestination : Destination σ.memory root ckFunc.isSome d n.toNat dst) :
    (∀ s src, Source σ.memory root ckFunc.isSome d s n.toNat dst src →
      Moves env [.i32 0, .i32 0] (memcpyHelperBody translateFunc ckFunc) [.i32 d, .i32 s, .i32 n] σ
        root d n.toNat dst fun i => userByte σ.memory root (s + BitVec.ofNat 32 i)) ∧
    (∀ v : BitVec 32,
      Moves env [.i32 0] (memfillHelperBody translateFunc ckFunc) [.i32 d, .i32 v, .i32 n] σ
        root d n.toNat dst fun _ => some (UInt8.ofNat v.toNat)) ∧
    (∀ seg (s : BitVec 32), s.toNat + n.toNat ≤ 2 ^ 32 →
      s.toNat + n.toNat ≤ (σ.datas seg).length →
      Moves env [.i32 0] (meminitHelperBody translateFunc ckFunc seg) [.i32 d, .i32 s, .i32 n] σ
        root d n.toNat dst fun i => (σ.datas seg)[s.toNat + i]?) := by
  refine ⟨fun s src hsource => ?_, fun v => ?_, fun seg s hs hdata => ?_⟩
  · refine moves_of_wp hdestination
      ((wp_memcpyHelperBody hlinked hroot hdestination hsource _ _).mono ?_)
    rintro o ⟨ls, memory', hend, hscattered⟩
    refine ⟨ls, memory', hend, hscattered.length, fun i hi => ?_, hscattered.frame⟩
    rw [hsource.mapped.userByte hi]
    exact hscattered.stored i hi
  · refine moves_of_wp hdestination ((wp_memfillHelperBody hlinked hroot hdestination _).mono ?_)
    rintro o ⟨ls, memory', hend, hscattered⟩
    exact ⟨ls, memory', Or.inl hend, hscattered⟩
  · refine moves_of_wp hdestination
      ((wp_meminitHelperBody hlinked hroot hdestination hs hdata _).mono ?_)
    rintro o ⟨ls, memory', hend, hscattered⟩
    exact ⟨ls, memory', Or.inl hend, hscattered⟩

/-- One page, whose two page-table words are in front of four bytes. -/
def smallStore : Store Unit where
  memory := [3, 0, 0, 0, 1, 0, 0, 0, 10, 20, 30, 40]
  globals _ := .i32 4
  datas _ := [7, 8, 9]
  host := ()

def noFunc : Func Unit := ⟨0, fun _ _ => none⟩

def leafEnv : Env Unit := ⟨fun _ => noFunc, fun _ _ => noFunc, fun _ => 0, fun _ _ _ _ _ => none⟩

def smallEnv : Env Unit :=
  { leafEnv with funcs := fun _ => Func.ofBody leafEnv 0 1 1 [] (translateBody 0) }

theorem smallStore_walks : ∀ va, va < 12 →
    walk smallStore.memory 4 (BitVec.ofNat 32 va) = some (1, 3) ∧
    (phys 3 (BitVec.ofNat 32 va)).toNat = va := by
  decide

theorem smallStore_entries : ∀ va, va < 12 →
    (pgdAddr 4 (BitVec.ofNat 32 va)).toNat = 4 ∧
    read32 smallStore.memory (pgdAddr 4 (BitVec.ofNat 32 va)) = some 1 ∧
    (pteAddr 1 (BitVec.ofNat 32 va)).toNat = 0 := by
  decide

theorem smallStore_mapped (kind a : ℕ) (h : a ≤ 9) :
    Mapped smallStore.memory 4 false kind (BitVec.ofNat 32 a) 3 (a + ·) where
  bound := by
    rw [BitVec.toNat_ofNat]
    omega
  walks i hi := by
    obtain ⟨hwalk, hplace⟩ := smallStore_walks (a + i) (by omega)
    rw [← BitVec.ofNat_add]
    exact ⟨1, 3, hwalk, by simp, hplace⟩
  inside i hi := by
    have hlength : smallStore.memory.length = 12 := rfl
    omega

theorem smallStore_apart {a i q : ℕ} (ha : a + i < 12) (hq : 8 ≤ q) :
    ¬ EntryByte smallStore.memory 4 (BitVec.ofNat 32 a + BitVec.ofNat 32 i) q := by
  obtain ⟨hpgd, hentry, hpte⟩ := smallStore_entries (a + i) ha
  rw [← BitVec.ofNat_add]
  rintro (⟨-, hhigh⟩ | ⟨e, he, -, hhigh⟩)
  · omega
  · rw [hentry, Option.some.injEq] at he
    subst he
    omega

theorem smallStore_destination : Destination smallStore.memory 4 false 9 3 (9 + ·) where
  mapped := smallStore_mapped 1 9 (by decide)
  injective i j _ _ h := Nat.add_left_cancel h
  apart i j hi hj := smallStore_apart (show 9 + i < 12 by omega) (by omega)

theorem smallStore_source : Source smallStore.memory 4 false 9 8 3 (9 + ·) (8 + ·) where
  mapped := smallStore_mapped 0 8 (by decide)
  distinct i j _ _ h := h
  apart i j hi hj := smallStore_apart (show 8 + i < 12 by omega) (by omega)

/-- Three bytes are moved up by one, out of the segment, and filled. -/
theorem bulkHelpers_move_three :
    Moves smallEnv [.i32 0, .i32 0] (memcpyHelperBody 0 none) [.i32 9, .i32 8, .i32 3] smallStore
      4 9 3 (9 + ·) (fun i => userByte smallStore.memory 4 (8 + BitVec.ofNat 32 i)) ∧
    Moves smallEnv [.i32 0] (memfillHelperBody 0 none) [.i32 9, .i32 0x141, .i32 3] smallStore
      4 9 3 (9 + ·) (fun _ => some 0x41) ∧
    Moves smallEnv [.i32 0] (meminitHelperBody 0 none 0) [.i32 9, .i32 0, .i32 3] smallStore
      4 9 3 (9 + ·) fun i => [7, 8, 9][0 + i]? := by
  obtain ⟨hcopy, hfill, hinit⟩ := @bulkHelpers_move_user_bytes Unit smallEnv smallStore 0 0 none
    4 9 3 (9 + ·) ⟨leafEnv, 0, rfl⟩ rfl smallStore_destination
  exact ⟨hcopy 8 _ smallStore_source, hfill 0x141, hinit 0 0 (by decide) (by decide)⟩

end Helpers

end NixWasm.SoftmmuBulk
