import Mathlib.Data.List.Basic
import Mathlib.Data.Nat.ModEq
import Mathlib.Order.Basic

/-!
Bounded queues through a ring of slots and free-running indices that wrap. A producer fills
the slot of the next item and later exposes what it filled by storing its index; a consumer
keeps an index of its own and takes the slots up to the exposed one. The items themselves are
numbered without wrapping: `log` is what was ever filled, `exposed` and `done` count how many
of them were exposed and taken.
-/
namespace NixWasm.IndexedRing

variable {α : Type}

/-- The slots hold the items that were filled and not taken. -/
structure Window (num : ℕ) (slot : ℕ → Option α) (log : List α) (exposed done : ℕ) : Prop where
  done_le : done ≤ exposed
  exposed_le : exposed ≤ log.length
  room : log.length ≤ done + num
  slots : ∀ i, done ≤ i → i < log.length → slot (i % num) = log[i]?

theorem window_nil (num : ℕ) (slot : ℕ → Option α) : Window num slot [] 0 0 := by
  refine ⟨le_refl 0, le_refl 0, Nat.zero_le _, ?_⟩
  intro i _ hi
  simp at hi

/-- Numbers that are less than a lap apart have slots of their own. -/
theorem mod_ne_mod {num i j : ℕ} (hij : i < j) (hlap : j < i + num) : i % num ≠ j % num := by
  intro heq
  have hdvd : num ∣ j - i := (Nat.modEq_iff_dvd' hij.le).mp heq
  have hle := Nat.le_of_dvd (by omega) hdvd
  omega

namespace Window
variable {num : ℕ} {slot slot' : ℕ → Option α} {log : List α} {exposed done : ℕ}

theorem congr (h : Window num slot log exposed done) (hnum : 0 < num)
    (hslot : ∀ k, k < num → slot' k = slot k) : Window num slot' log exposed done := by
  refine ⟨h.done_le, h.exposed_le, h.room, fun i hlow hhigh => ?_⟩
  rw [hslot _ (Nat.mod_lt i hnum)]
  exact h.slots i hlow hhigh

/-- The slot after the last filled one is free as long as a lap is not full. -/
theorem fill (h : Window num slot log exposed done) (a : α) (hfree : log.length < done + num)
    (hself : slot' (log.length % num) = some a)
    (hother : ∀ k, k < num → k ≠ log.length % num → slot' k = slot k) :
    Window num slot' (log ++ [a]) exposed done := by
  have hlength : (log ++ [a]).length = log.length + 1 := by simp
  have hle := h.exposed_le
  refine ⟨h.done_le, by omega, by omega, ?_⟩
  intro i hlow hhigh
  by_cases hi : i < log.length
  · have hne : i % num ≠ log.length % num := mod_ne_mod hi (by omega)
    have hlt : i % num < num := by
      apply Nat.mod_lt
      omega
    rw [hother _ hlt hne, h.slots i hlow hi, List.getElem?_append_left hi]
  · have hlast : i = log.length := by omega
    rw [hlast, hself, List.getElem?_append_right (le_refl _), Nat.sub_self]
    rfl

theorem expose (h : Window num slot log exposed done) : Window num slot log log.length done :=
  ⟨h.done_le.trans h.exposed_le, le_refl _, h.room, h.slots⟩

theorem take (h : Window num slot log exposed done) (hmore : done < exposed) :
    Window num slot log exposed (done + 1) := by
  have hroom := h.room
  exact ⟨hmore, h.exposed_le, by omega, fun i hlow hhigh => h.slots i (by omega) hhigh⟩

/-- A consumer finds the item it is at in the slot of its own wrapped index. -/
theorem slot_done (h : Window num slot log exposed done) {modulus : ℕ} (hdvd : num ∣ modulus)
    (hmore : done < exposed) : slot (done % modulus % num) = log[done]? := by
  rw [Nat.mod_mod_of_dvd _ hdvd]
  exact h.slots done (le_refl _) (hmore.trans_le h.exposed_le)

/-- The wrapped indices meet exactly when everything exposed has been taken. -/
theorem settled_iff (h : Window num slot log exposed done) {modulus : ℕ} (hlap : num < modulus) :
    done % modulus = exposed % modulus ↔ done = exposed := by
  refine ⟨fun hmeet => ?_, fun heq => by rw [heq]⟩
  by_contra hne
  have hlt : done < exposed := lt_of_le_of_ne h.done_le hne
  have hle := h.exposed_le
  have hroom := h.room
  exact mod_ne_mod hlt (by omega) hmeet

end Window

end NixWasm.IndexedRing
