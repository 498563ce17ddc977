import NixWasm.UserFrames

/-!
Reads of user memory against the byte at each address. A round of the loop stays in one page, so
the bytes it copies are those of their addresses as far as the frame is inside the memory; a view
past the end of the memory is shorter, and nothing reports it.
-/
namespace NixWasm.UserAccess

open Bytes ByteStore

section Chunks
variable {memory : List UInt8} {ptBase : ℤ} {write : Bool} {cur remaining p : ℕ}

end Chunks

section Read
variable {memory : List UInt8} {ptBase : ℤ}

end Read

section Scan
variable {memory : List UInt8} {ptBase : ℤ} {va max rounds scanned : ℕ} {parts : List UInt8}

/-- The string of `n` bytes at an address: none of them is NUL, and the next byte is, or the bound
is reached. -/
def IsCString (memory : List UInt8) (ptBase : ℤ) (va max n : ℕ) : Prop :=
  n ≤ max ∧ (∀ i, i < n → ∃ b, byteAt memory ptBase false (va + i) = some b ∧ b ≠ 0) ∧
    (n = max ∨ byteAt memory ptBase false (va + n) = some 0)

theorem IsCString.unique {n m : ℕ} (hn : IsCString memory ptBase va max n)
    (hm : IsCString memory ptBase va max m) : n = m := by
  have hle : ∀ {n m}, IsCString memory ptBase va max n → IsCString memory ptBase va max m →
      n ≤ m := by
    intro n m hn hm
    by_contra hlt
    obtain ⟨b, hb, hne⟩ := hn.2.1 m (by omega)
    rcases hm.2.2 with rfl | hzero
    · have := hn.1
      omega
    · rw [hzero, Option.some.injEq] at hb
      exact hne hb.symm
  exact le_antisymm (hle hn hm) (hle hm hn)

end Scan

end NixWasm.UserAccess
