import Mathlib.Data.Int.Notation
import Mathlib.Data.List.Basic

/-!
Reading binary data at a position that may run off the end. A cursor keeps the whole
input and an offset into it: a byte past the end reads as undefined, a number that
runs past the end stops there, and neither fails. Only the caller's own checks do.
-/
namespace NixWasm.Cursor

/-- A read of an `α` at an offset of a fixed input, which may throw an `ε`. -/
abbrev Read (ε : Type) := ReaderT (List UInt8) (StateT ℕ (Except ε))

variable {ε α : Type}

def position : Read ε ℕ := fun _ i => .ok (i, i)

def seek (i : ℕ) : Read ε Unit := fun _ _ => .ok ((), i)

def skip (n : ℕ) : Read ε Unit := fun _ i => .ok ((), i + n)

def inputLength : Read ε ℕ := fun bytes i => .ok (bytes.length, i)

def fail (e : ε) : Read ε α := fun _ _ => .error e

/-- One byte; `none` is the undefined read past the end. -/
def u8 : Read ε (Option UInt8) := fun bytes i => .ok (bytes[i]?, i + 1)

/-- The next byte, which stays. -/
def peek : Read ε (Option UInt8) := fun bytes i => .ok (bytes[i]?, i)

/-- Read without going on. -/
def ahead (r : Read ε α) : Read ε α := fun bytes i => (r bytes i).map fun x => (x.1, i)

/-- Nothing, when the read throws. -/
def attempt (r : Read ε α) : Read ε (Option α) := fun bytes i =>
  match r bytes i with
  | .ok (a, j) => .ok (some a, j)
  | .error _ => .ok (none, i)

/-- The bytes between two offsets. -/
def slice (i j : ℕ) : Read ε (List UInt8) := fun bytes k => .ok ((bytes.drop i).take (j - i), k)

/-- An unsigned LEB128 number at the head of `bytes`, and how many bytes it takes. -/
def ulebAt : List UInt8 → ℕ × ℕ
  | [] => (0, 1)
  | b :: rest =>
    if b < 0x80 then (b.toNat, 1)
    else (b.toNat % 128 + 128 * (ulebAt rest).1, (ulebAt rest).2 + 1)

theorem ulebAt_pos (bytes : List UInt8) : 0 < (ulebAt bytes).2 := by
  cases bytes with
  | nil => exact Nat.one_pos
  | cons b rest =>
    rw [ulebAt]
    split
    · exact Nat.one_pos
    · exact Nat.succ_pos _

def uleb : Read ε ℕ := fun bytes i =>
  .ok ((ulebAt (bytes.drop i)).1, i + (ulebAt (bytes.drop i)).2)

/-- A signed LEB128 number in 32-bit arithmetic, whose shift counts are taken mod 32. -/
def slebAt : List UInt8 → ℕ → BitVec 32 → BitVec 32 × ℕ
  | [], _, r => (r, 1)
  | b :: rest, s, r =>
    let r' := r ||| (BitVec.ofNat 32 (b.toNat % 128) <<< (s % 32))
    if 0x80 ≤ b then ((slebAt rest (s + 7) r').1, (slebAt rest (s + 7) r').2 + 1)
    else if s + 7 < 32 ∧ 0x40 ≤ b then (r' ||| (BitVec.allOnes 32 <<< (s + 7)), 1)
    else (r', 1)

def sleb : Read ε ℤ := fun bytes i =>
  .ok ((slebAt (bytes.drop i) 0 0).1.toInt, i + (slebAt (bytes.drop i) 0 0).2)

/-- The next `n` bytes, fewer when the input ends before. -/
def take (n : ℕ) : Read ε (List UInt8) := fun bytes i =>
  .ok ((bytes.drop i).take n, i + n)

/-- A length-prefixed string. -/
def name (decode : List UInt8 → α) : Read ε α := do
  let n ← uleb
  let v ← take n
  return decode v

def times (n : ℕ) (r : Read ε α) : Read ε (List α) :=
  match n with
  | 0 => pure []
  | n + 1 => do
    let a ← r
    let rest ← times n r
    return a :: rest

/-- Whatever the read returns, it satisfies `Q`. -/
def Always (Q : α → Prop) (r : Read ε α) : Prop :=
  ∀ bytes i a j, r bytes i = .ok (a, j) → Q a

variable {β : Type} {Q : α → Prop} {R : β → Prop}

theorem bind_eq_ok {r : Read ε α} {f : α → Read ε β} {bytes : List UInt8} {i j : ℕ} {b : β} :
    (r >>= f) bytes i = .ok (b, j) ↔
      ∃ a k, r bytes i = .ok (a, k) ∧ f a bytes k = .ok (b, j) := by
  change Except.bind (r bytes i) (fun x => f x.1 bytes x.2) = _ ↔ _
  cases r bytes i with
  | error e =>
    constructor
    · intro h
      cases h
    · rintro ⟨_, _, h, _⟩
      cases h
  | ok x =>
    obtain ⟨a, k⟩ := x
    constructor
    · intro h
      exact ⟨a, k, rfl, h⟩
    · rintro ⟨_, _, h, hb⟩
      cases h
      exact hb

theorem always_pure {a : α} (h : Q a) : Always Q (pure a : Read ε α) := by
  intro bytes i a' j hread
  cases hread
  exact h

theorem always_fail (e : ε) : Always Q (fail e : Read ε α) := by
  intro bytes i a j hread
  cases hread

theorem always_bind {r : Read ε α} {f : α → Read ε β} (hr : Always Q r)
    (hf : ∀ a, Q a → Always R (f a)) : Always R (r >>= f) := by
  intro bytes i b j hread
  obtain ⟨a, k, ha, hb⟩ := bind_eq_ok.mp hread
  exact hf a (hr bytes i a k ha) bytes k b j hb

/-- What the first read returns does not matter. -/
theorem always_seq {r : Read ε α} {f : α → Read ε β} (hf : ∀ a, Always R (f a)) :
    Always R (r >>= f) := by
  intro bytes i b j hread
  obtain ⟨a, k, -, hb⟩ := bind_eq_ok.mp hread
  exact hf a bytes k b j hb

/-- The read consumes exactly `xs` wherever they stand in the input. -/
def Reads (r : Read ε α) (xs : List UInt8) (a : α) : Prop :=
  ∀ pre post, r (pre ++ (xs ++ post)) pre.length = .ok (a, pre.length + xs.length)

theorem reads_pure (a : α) : Reads (pure a : Read ε α) [] a := by
  intro pre post
  rfl

theorem reads_bind {r : Read ε α} {f : α → Read ε β} {xs ys : List UInt8} {a : α} {b : β}
    (hr : Reads r xs a) (hf : Reads (f a) ys b) : Reads (r >>= f) (xs ++ ys) b := by
  intro pre post
  refine bind_eq_ok.mpr ⟨a, pre.length + xs.length, ?_, ?_⟩
  · simpa using hr pre (ys ++ post)
  · simpa [Nat.add_assoc] using hf (pre ++ xs) post

/-- The last read before the value is returned. -/
theorem reads_last {r : Read ε α} {f : α → β} {xs : List UInt8} {a : α}
    (hr : Reads r xs a) : Reads (r >>= fun x => pure (f x)) xs (f a) := by
  have h : Reads (r >>= fun x => pure (f x)) (xs ++ []) (f a) :=
    reads_bind hr (reads_pure (f a))
  rwa [List.append_nil] at h

theorem reads_u8 (b : UInt8) : Reads (u8 : Read ε (Option UInt8)) [b] (some b) := by
  intro pre post
  simp [u8]

theorem reads_take (xs : List UInt8) : Reads (take xs.length : Read ε (List UInt8)) xs xs := by
  intro pre post
  simp [take]

theorem reads_skip (xs : List UInt8) : Reads (skip xs.length : Read ε Unit) xs () := by
  intro pre post
  rfl

theorem reads_times {γ : Type} (r : Read ε α) (write : γ → List UInt8) (value : γ → α)
    (items : List γ) (h : ∀ c ∈ items, Reads r (write c) (value c)) :
    Reads (times items.length r) (items.flatMap write) (items.map value) := by
  induction items with
  | nil => exact reads_pure []
  | cons c items ih =>
    have htail := ih fun d hd => h d (List.mem_cons_of_mem c hd)
    exact reads_bind (h c (List.mem_cons_self ..)) (reads_last htail)

/-- The read returns whatever the input is, and its value satisfies `Q`. -/
def Total (Q : α → Prop) (r : Read ε α) : Prop :=
  ∀ bytes i, ∃ a j, r bytes i = .ok (a, j) ∧ Q a

theorem total_pure {a : α} (h : Q a) : Total Q (pure a : Read ε α) :=
  fun _ i => ⟨a, i, rfl, h⟩

theorem total_bind {r : Read ε α} {f : α → Read ε β} (hr : Total Q r)
    (hf : ∀ a, Q a → Total R (f a)) : Total R (r >>= f) := by
  intro bytes i
  obtain ⟨a, k, ha, hq⟩ := hr bytes i
  obtain ⟨b, j, hb, hR⟩ := hf a hq bytes k
  exact ⟨b, j, bind_eq_ok.mpr ⟨a, k, ha, hb⟩, hR⟩

theorem total_mono {S : α → Prop} {r : Read ε α} (hr : Total Q r) (h : ∀ a, Q a → S a) :
    Total S r := by
  intro bytes i
  obtain ⟨a, j, ha, hq⟩ := hr bytes i
  exact ⟨a, j, ha, h a hq⟩

theorem total_u8 : Total (fun _ => True) (u8 : Read ε (Option UInt8)) :=
  fun _ _ => ⟨_, _, rfl, trivial⟩

theorem total_uleb : Total (fun _ => True) (uleb : Read ε ℕ) := fun _ _ => ⟨_, _, rfl, trivial⟩

theorem total_name (decode : List UInt8 → α) : Total (fun _ => True) (name decode : Read ε α) :=
  fun _ _ => ⟨_, _, rfl, trivial⟩

theorem total_times {r : Read ε α} (hr : Total (fun _ => True) r) (n : ℕ) :
    Total (fun _ => True) (times n r) := by
  induction n with
  | zero => exact total_pure trivial
  | succ n ih => exact total_bind hr fun _ _ => total_bind ih fun _ _ => total_pure trivial

end NixWasm.Cursor
