import Mathlib.Data.List.Basic
import Mathlib.Tactic.Ring

/-!
Byte strings: little-endian fields of a fixed width and readers that consume the
front of a byte string. A reader either fails or returns a value with the bytes it
did not consume. `Reads` says that a reader consumes exactly a given byte string,
whatever follows it; sequencing readers concatenates these strings.
-/
namespace NixWasm.Bytes

/-- The `k` little-endian bytes of `v`, which is taken modulo 256 ^ k. -/
def leBytes : ℕ → ℕ → List UInt8
  | 0, _ => []
  | k + 1, v => UInt8.ofNat v :: leBytes k (v / 256)

def leValue : List UInt8 → ℕ
  | [] => 0
  | b :: bs => b.toNat + 256 * leValue bs

@[simp] theorem leBytes_length (k v : ℕ) : (leBytes k v).length = k := by
  induction k generalizing v with
  | zero => rfl
  | succ k ih => simp [leBytes, ih]

theorem leValue_leBytes (k v : ℕ) : leValue (leBytes k v) = v % 256 ^ k := by
  induction k generalizing v with
  | zero => simp [leBytes, leValue, Nat.mod_one]
  | succ k ih =>
    have hbyte : (UInt8.ofNat v).toNat = v % 256 := UInt8.toNat_ofNat'
    rw [leBytes, leValue, ih, hbyte, Nat.pow_succ', Nat.mod_mul]

theorem leValue_lt (bs : List UInt8) : leValue bs < 256 ^ bs.length := by
  induction bs with
  | nil => simp [leValue]
  | cons b bs ih =>
    have hb : b.toNat < 256 := b.toNat_lt
    simp only [leValue, List.length_cons, pow_succ]
    omega

/-- The bytes of a value are recovered from it, once the width is known. -/
theorem leBytes_leValue (bs : List UInt8) : leBytes bs.length (leValue bs) = bs := by
  induction bs with
  | nil => rfl
  | cons b bs ih =>
    have hb : b.toNat < 256 := b.toNat_lt
    have hdiv : (b.toNat + 256 * leValue bs) / 256 = leValue bs := by omega
    have hmod : UInt8.ofNat (b.toNat + 256 * leValue bs) = b := by
      apply UInt8.toNat_inj.mp
      rw [UInt8.toNat_ofNat']
      omega
    simp only [List.length_cons, leValue, leBytes, hdiv, hmod, ih]

/-- A reader over the remaining bytes; `none` is a throw. -/
abbrev Reader := StateT (List UInt8) Option

namespace Reader

/-- Exactly `n` bytes, or a failure. -/
def exact (n : ℕ) : Reader (List UInt8) := fun bs =>
  if n ≤ bs.length then some (bs.take n, bs.drop n) else none

/-- At most `n` bytes: reading past the end gives the bytes that are there. -/
def upTo (n : ℕ) : Reader (List UInt8) := fun bs => some (bs.take n, bs.drop n)

def le (n : ℕ) : Reader ℕ := leValue <$> exact n

def byte : Reader UInt8
  | [] => none
  | b :: rest => some (b, rest)

/-- A value that may be missing, from no bytes. -/
def ofOption {α : Type} (a : Option α) : Reader α := fun bs => a.map fun a => (a, bs)

def require (p : Prop) [Decidable p] : Reader Unit := ofOption (if p then some () else none)

/-- A reader's value together with the bytes it consumed. -/
def consumed {α : Type} (r : Reader α) : Reader (List UInt8 × α) := fun bs =>
  (r bs).map fun p => ((bs.take (bs.length - p.2.length), p.1), p.2)

/-- The reader consumes exactly `bytes`, whatever follows. -/
def Reads {α : Type} (r : Reader α) (bytes : List UInt8) (a : α) : Prop :=
  ∀ rest, r (bytes ++ rest) = some (a, rest)

variable {α β : Type}

theorem reads_pure (a : α) : Reads (pure a) [] a := by
  intro rest
  rfl

theorem reads_bind {r : Reader α} {f : α → Reader β} {xs ys : List UInt8} {a : α} {b : β}
    (hr : Reads r xs a) (hf : Reads (f a) ys b) : Reads (r >>= f) (xs ++ ys) b := by
  intro rest
  change (r (xs ++ ys ++ rest)).bind (fun p => f p.1 p.2) = some (b, rest)
  rw [List.append_assoc, hr, Option.bind_some]
  exact hf rest

theorem reads_map {r : Reader α} (f : α → β) {xs : List UInt8} {a : α}
    (hr : Reads r xs a) : Reads (f <$> r) xs (f a) := by
  intro rest
  change (r (xs ++ rest)).bind (fun p => some (f p.1, p.2)) = some (f a, rest)
  rw [hr, Option.bind_some]

/-- The last read before the value is returned. -/
theorem reads_last {r : Reader α} {f : α → β} {xs : List UInt8} {a : α}
    (hr : Reads r xs a) : Reads (r >>= fun x => pure (f x)) xs (f a) := by
  intro rest
  change (r (xs ++ rest)).bind (fun p => some (f p.1, p.2)) = some (f a, rest)
  rw [hr, Option.bind_some]

/-- A first step that consumes nothing. -/
theorem reads_nil_bind {r : Reader α} {f : α → Reader β} {ys : List UInt8} {a : α} {b : β}
    (hr : Reads r [] a) (hf : Reads (f a) ys b) : Reads (r >>= f) ys b := reads_bind hr hf

/-- A last step that consumes nothing. -/
theorem reads_bind_nil {r : Reader α} {f : α → Reader β} {xs : List UInt8} {a : α} {b : β}
    (hr : Reads r xs a) (hf : Reads (f a) [] b) : Reads (r >>= f) xs b := by
  have h := reads_bind hr hf
  rwa [List.append_nil] at h

theorem reads_exact (bytes : List UInt8) : Reads (exact bytes.length) bytes bytes := by
  intro rest
  simp [exact]

theorem reads_upTo (bytes : List UInt8) : Reads (upTo bytes.length) bytes bytes := by
  intro rest
  simp [upTo]

theorem reads_byte (b : UInt8) : Reads byte [b] b := by
  intro rest
  rfl

theorem reads_ofOption {o : Option α} {a : α} (h : o = some a) : Reads (ofOption o) [] a := by
  intro rest
  simp [ofOption, h]

theorem reads_require {p : Prop} [Decidable p] (h : p) : Reads (require p) [] () :=
  reads_ofOption (if_pos h)

theorem reads_consumed {r : Reader α} {xs : List UInt8} {a : α} (hr : Reads r xs a) :
    Reads (consumed r) xs (xs, a) := by
  intro rest
  simp [consumed, hr rest]

theorem reads_le (k v : ℕ) (h : v < 256 ^ k) : Reads (le k) (leBytes k v) v := by
  have hread := reads_map leValue (reads_exact (leBytes k v))
  rw [leBytes_length, leValue_leBytes, Nat.mod_eq_of_lt h] at hread
  exact hread

/-- A number that is too wide for its field comes back reduced to it. -/
theorem reads_le_mod (k v : ℕ) : Reads (le k) (leBytes k v) (v % 256 ^ k) := by
  have hread := reads_map leValue (reads_exact (leBytes k v))
  rwa [leBytes_length, leValue_leBytes] at hread

theorem le_eq_some {n v : ℕ} {bs rest : List UInt8} (h : le n bs = some (v, rest)) :
    v = leValue (bs.take n) ∧ rest = bs.drop n := by
  by_cases hn : n ≤ bs.length
  · have hle : le n bs = some (leValue (bs.take n), bs.drop n) := by
      change (exact n bs).bind (fun p => some (leValue p.1, p.2)) = _
      rw [exact, if_pos hn, Option.bind_some]
    simpa [hle, eq_comm] using h
  · have hle : le n bs = none := by
      change (exact n bs).bind (fun p => some (leValue p.1, p.2)) = none
      rw [exact, if_neg hn, Option.bind_none]
    simp [hle] at h

theorem bind_eq_some {r : Reader α} {f : α → Reader β} {bs rest : List UInt8} {b : β}
    (h : (r >>= f) bs = some (b, rest)) :
    ∃ a mid, r bs = some (a, mid) ∧ f a mid = some (b, rest) := by
  obtain ⟨⟨a, mid⟩, ha, hf⟩ := Option.bind_eq_some_iff.mp h
  exact ⟨a, mid, ha, hf⟩

theorem pure_eq_some {a b : α} {bs rest : List UInt8}
    (h : (pure a : Reader α) bs = some (b, rest)) : a = b ∧ bs = rest :=
  Prod.mk.inj (Option.some.inj h)

theorem require_eq_some {p : Prop} [Decidable p] {bs rest : List UInt8} {u : Unit}
    (h : require p bs = some (u, rest)) : p ∧ rest = bs := by
  by_cases hp : p
  · exact ⟨hp, by simpa [require, ofOption, hp, eq_comm] using h⟩
  · simp [require, ofOption, hp] at h

/-- Read `n` items in a row. -/
def items (r : Reader α) : ℕ → Reader (List α)
  | 0 => pure []
  | n + 1 => do
    let a ← r
    (a :: ·) <$> items r n

theorem reads_items (r : Reader α) (write : β → List UInt8) (value : β → α) (bs : List β)
    (h : ∀ b ∈ bs, Reads r (write b) (value b)) :
    Reads (items r bs.length) (bs.flatMap write) (bs.map value) := by
  induction bs with
  | nil => exact reads_pure []
  | cons b bs ih =>
    have hhead := h b (by simp)
    have htail := ih fun c hc => h c (by simp [hc])
    have hlast := reads_map (fun as => value b :: as) htail
    exact reads_bind hhead hlast

/-- The reader succeeds on the bytes, whatever follows, with a value in `P`; how much it
consumes is left open. -/
def Accepts (r : Reader α) (bytes : List UInt8) (P : α → Prop) : Prop :=
  ∀ rest, ∃ a left, r (bytes ++ rest) = some (a, left) ∧ P a

theorem Reads.accepts {r : Reader α} {bytes : List UInt8} {a : α} {P : α → Prop}
    (hr : Reads r bytes a) (ha : P a) : Accepts r bytes P :=
  fun rest => ⟨a, rest, hr rest, ha⟩

theorem accepts_bind {r : Reader α} {f : α → Reader β} {xs ys : List UInt8} {a : α}
    {P : β → Prop} (hr : Reads r xs a) (hf : Accepts (f a) ys P) :
    Accepts (r >>= f) (xs ++ ys) P := by
  intro rest
  obtain ⟨b, left, hb, hP⟩ := hf rest
  refine ⟨b, left, ?_, hP⟩
  change (r (xs ++ ys ++ rest)).bind (fun p => f p.1 p.2) = some (b, left)
  rw [List.append_assoc, hr, Option.bind_some]
  exact hb

/-- The last read, of which nothing is known but that it succeeds. -/
theorem accepts_last {r : Reader α} {f : α → β} {bytes : List UInt8} {P : β → Prop}
    (hr : Accepts r bytes fun _ => True) (hP : ∀ a, P (f a)) :
    Accepts (r >>= fun x => pure (f x)) bytes P := by
  intro rest
  obtain ⟨a, left, ha, -⟩ := hr rest
  refine ⟨f a, left, ?_, hP a⟩
  change (r (bytes ++ rest)).bind (fun p => some (f p.1, p.2)) = some (f a, left)
  rw [ha, Option.bind_some]

theorem accepts_upTo (f : List UInt8 → α) (n : ℕ) (bytes : List UInt8) :
    Accepts (f <$> upTo n) bytes fun _ => True :=
  fun _ => ⟨_, _, rfl, trivial⟩

/-- Fewer items may be read than there are. -/
theorem accepts_items (r : Reader α) (write : β → List UInt8) (value : β → α) (bs : List β)
    (h : ∀ b ∈ bs, Reads r (write b) (value b)) {n : ℕ} (hn : n ≤ bs.length) :
    Accepts (items r n) (bs.flatMap write) fun _ => True := by
  intro rest
  have htake : (bs.take n).length = n := List.length_take_of_le hn
  have hread := reads_items r write value (bs.take n) fun b hmem => h b (List.mem_of_mem_take hmem)
  rw [htake] at hread
  have hall := hread ((bs.drop n).flatMap write ++ rest)
  rw [← List.append_assoc, ← List.flatMap_append, List.take_append_drop] at hall
  exact ⟨_, _, hall, trivial⟩

end Reader

end NixWasm.Bytes
