import NixWasm.Wasm
import NixWasm.Leb

/-!
Straight-line function bodies as WebAssembly's binary format writes them. What code generators
push byte by byte is read back as instructions: `Emits` says that bytes stand for instructions
wherever they occur, so that pieces of generated code are read piece by piece.
-/
namespace NixWasm.Wasm

open Bytes Bytes.Reader

/-- The conversions and `drop`, which have no immediates. -/
def plainInstr : UInt8 → Option Instr
  | 0x1a => some .drop
  | 0xa7 => some (.num .i32WrapI64)
  | 0xad => some (.num .i64ExtendI32U)
  | 0xbc => some (.num .i32ReinterpretF32)
  | 0xbd => some (.num .i64ReinterpretF64)
  | 0xbe => some (.num .f32ReinterpretI32)
  | 0xbf => some (.num .f64ReinterpretI64)
  | _ => none

def loadType : UInt8 → Option ValType
  | 0x28 => some .i32
  | 0x29 => some .i64
  | 0x2a => some .f32
  | 0x2b => some .f64
  | _ => none

def storeType : UInt8 → Option ValType
  | 0x36 => some .i32
  | 0x37 => some .i64
  | 0x38 => some .f32
  | 0x39 => some .f64
  | _ => none

/-- A signed number: the last digit's top bit is its sign. -/
def readSleb : Reader ℤ := fun bs =>
  (readUleb bs).map fun r =>
    let width := 7 * (bs.length - r.2.length)
    (if 2 ^ (width - 1) ≤ r.1 then (r.1 : ℤ) - 2 ^ width else r.1, r.2)

def memoryAccess (access : ℕ → Instr) : Reader Instr := do
  let _align ← uleb
  let offset ← uleb
  pure (access offset)

/-- One instruction. -/
def instr : Reader Instr := do
  let op ← byte
  if op = 0x10 then .call <$> uleb
  else if op = 0x11 then do
    let type ← uleb
    let _table ← uleb
    pure (.callIndirect type)
  else if op = 0x20 then .localGet <$> uleb
  else if op = 0x42 then (fun n => .const (.i64 (BitVec.ofInt 64 n))) <$> readSleb
  else match loadType op with
    | some t => memoryAccess (.load t)
    | none =>
      match storeType op with
      | some t => memoryAccess (.store t)
      | none => ofOption (plainInstr op)

/-- Instructions up to the `end` byte; no nested blocks. -/
def expr : ℕ → Reader (List Instr)
  | 0 => fun _ => none
  | fuel + 1 => fun bs =>
    match bs with
    | [] => none
    | b :: rest =>
      if b = 0x0b then some ([], rest)
      else (instr bs).bind fun r => (expr fuel r.2).map fun s => (r.1 :: s.1, s.2)

/-- A function's code without local variables of its own. -/
def functionCode (bytes : List UInt8) : Option (List Instr) :=
  match uleb bytes with
  | some (0, body) =>
    match expr body.length body with
    | some (is, []) => some is
    | _ => none
  | _ => none

theorem expr_mono {fuel fuel' : ℕ} (hle : fuel ≤ fuel') {bs : List UInt8}
    {r : List Instr × List UInt8}
    (h : expr fuel bs = some r) : expr fuel' bs = some r := by
  induction fuel generalizing fuel' bs r with
  | zero => cases h
  | succ fuel ih =>
    obtain ⟨m, rfl⟩ : ∃ m, fuel' = m + 1 := ⟨fuel' - 1, by omega⟩
    cases bs with
    | nil => cases h
    | cons b rest =>
      simp only [expr] at h ⊢
      by_cases hb : b = 0x0b
      · rwa [if_pos hb] at h ⊢
      · rw [if_neg hb] at h ⊢
        obtain ⟨i, hi, hrest⟩ := Option.bind_eq_some_iff.mp h
        obtain ⟨s, hs, rfl⟩ := Option.map_eq_some_iff.mp hrest
        rw [hi, Option.bind_some, ih (by omega) hs, Option.map_some]

/-- These bytes stand for these instructions, whatever follows. -/
structure Emits (bytes : List UInt8) (is : List Instr) : Prop where
  reads : ∀ fuel rest js out, expr fuel rest = some (js, out) →
    expr (fuel + is.length) (bytes ++ rest) = some (is ++ js, out)
  length_le : is.length ≤ bytes.length

theorem emits_nil : Emits [] [] := ⟨fun _ _ _ _ h => h, le_refl _⟩

theorem Emits.append {xs ys : List UInt8} {is js : List Instr} (hx : Emits xs is)
    (hy : Emits ys js) : Emits (xs ++ ys) (is ++ js) := by
  constructor
  · intro fuel rest ks out h
    have hlast := hx.reads _ _ _ _ (hy.reads _ _ _ _ h)
    rw [Nat.add_assoc, Nat.add_comm js.length] at hlast
    rw [List.append_assoc, List.append_assoc, List.length_append]
    exact hlast
  · have hx' := hx.length_le
    have hy' := hy.length_le
    simp only [List.length_append]
    omega

theorem emits_of_reads {b : UInt8} {xs : List UInt8} {i : Instr} (hb : b ≠ 0x0b)
    (h : Reads instr (b :: xs) i) : Emits (b :: xs) [i] := by
  constructor
  · intro fuel rest js out hrest
    have hi := h rest
    rw [List.cons_append] at hi
    simp only [List.length_singleton, List.cons_append, expr, if_neg hb, hi,
      Option.bind_some, hrest, Option.map_some, List.nil_append]
  · simp

theorem emits_flatMap {α : Type} {write : α → List UInt8} {read : α → List Instr}
    (h : ∀ a, Emits (write a) (read a)) (as : List α) :
    Emits (as.flatMap write) (as.flatMap read) := by
  induction as with
  | nil => exact emits_nil
  | cons a as ih =>
    rw [List.flatMap_cons, List.flatMap_cons]
    exact (h a).append ih

/-- A body of such pieces is read whole. -/
theorem functionCode_of_emits {bytes : List UInt8} {is : List Instr} (h : Emits bytes is) :
    functionCode ((Leb.ofNat 0).bytes ++ (bytes ++ [0x0b])) = some is := by
  have hend : expr 1 [0x0b] = some ([], []) := rfl
  have hfuel : 1 + is.length ≤ (bytes ++ [0x0b]).length := by
    have hle := h.length_le
    simp only [List.length_append, List.length_singleton]
    omega
  have hbody := expr_mono hfuel (h.reads _ _ _ _ hend)
  have hcount := reads_uleb (Leb.ofNat 0) (bytes ++ [0x0b])
  rw [Leb.value_ofNat] at hcount
  rw [functionCode, hcount]
  simp only [hbody, List.append_nil]

section Pieces

theorem emits_localGet (l : Leb) : Emits (0x20 :: l.bytes) [.localGet l.value] := by
  refine emits_of_reads (by decide) ?_
  exact reads_bind (reads_byte 0x20) (reads_map _ (reads_uleb l))

theorem emits_call (l : Leb) : Emits (0x10 :: l.bytes) [.call l.value] := by
  refine emits_of_reads (by decide) ?_
  exact reads_bind (reads_byte 0x10) (reads_map _ (reads_uleb l))

theorem emits_callIndirect (type table : Leb) :
    Emits (0x11 :: (type.bytes ++ table.bytes)) [.callIndirect type.value] := by
  refine emits_of_reads (by decide) ?_
  exact reads_bind (reads_byte 0x11) (reads_bind (reads_uleb type)
    (reads_bind_nil (reads_uleb table) (reads_pure _)))

theorem reads_memoryAccess (access : ℕ → Instr) (align offset : Leb) :
    Reads (memoryAccess access) (align.bytes ++ offset.bytes) (access offset.value) :=
  reads_bind (reads_uleb align) (reads_last (reads_uleb offset))

theorem reads_sleb_zero : Reads readSleb [0x00] 0 := by
  intro rest
  have hwidth : (0x00 :: rest).length - rest.length = 1 := by
    rw [List.length_cons]
    omega
  have hread : readUleb ([0x00] ++ rest) = some (0, rest) := rfl
  rw [readSleb, hread, Option.map_some, List.singleton_append, hwidth]
  rfl

theorem emits_constZero : Emits [0x42, 0x00] [.const (.i64 0)] := by
  refine emits_of_reads (by decide) ?_
  exact reads_bind (reads_byte 0x42)
    (reads_map (fun n => Instr.const (.i64 (BitVec.ofInt 64 n))) reads_sleb_zero)

end Pieces

end NixWasm.Wasm
