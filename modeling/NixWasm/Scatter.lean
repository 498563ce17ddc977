import NixWasm.ByteStore

/-!
Ranges that are stored piece by piece at scattered places. `Scattered` says which of the items are
at their places already and that nothing else of the store has changed. A piece whose places are
consecutive is stored as one range, and may be read from the store itself where it is not yet
overwritten.
-/
namespace NixWasm.ByteStore

/-- The items in `done` are at their places in `b`, which is otherwise `a`. -/
structure Scattered (a b : List UInt8) (place : ℕ → ℕ) (item : ℕ → Option UInt8) (done : ℕ → Prop) :
    Prop where
  length : b.length = a.length
  stored : ∀ i, done i → b[place i]? = item i
  frame : ∀ p, (∀ i, done i → place i ≠ p) → b[p]? = a[p]?

namespace Scattered

variable {a b : List UInt8} {place : ℕ → ℕ} {item : ℕ → Option UInt8} {done : ℕ → Prop}

theorem none (a : List UInt8) (place : ℕ → ℕ) (item : ℕ → Option UInt8) :
    Scattered a a place item fun _ => False :=
  ⟨rfl, fun _ h => h.elim, fun _ _ => rfl⟩

theorem congr {done' : ℕ → Prop} (h : Scattered a b place item done)
    (hdone : ∀ i, done i ↔ done' i) :
    Scattered a b place item done' := by
  have heq : done = done' := funext fun i => propext (hdone i)
  rwa [← heq]

/-- The next piece: `bytes` are the items from `k` on, at consecutive places. -/
theorem piece (h : Scattered a b place item done) {k : ℕ} {bytes : List UInt8}
    (hplace : ∀ j, j < bytes.length → place (k + j) = place k + j)
    (hfits : place k + bytes.length ≤ a.length)
    (hitem : ∀ j, j < bytes.length → bytes[j]? = item (k + j))
    (hapart : ∀ i j, done i → j < bytes.length → place i ≠ place (k + j)) :
    Scattered a (splice b (place k) bytes) place item
      fun i => done i ∨ k ≤ i ∧ i < k + bytes.length := by
  have hfits' : place k + bytes.length ≤ b.length := by rwa [h.length]
  refine ⟨(splice_length hfits').trans h.length, ?_, ?_⟩
  · rintro i (hdone | ⟨hlow, hhigh⟩)
    · have hout : place i < place k ∨ place k + bytes.length ≤ place i := by
        by_contra hin
        have hj : place i - place k < bytes.length := by omega
        refine hapart i (place i - place k) hdone hj ?_
        rw [hplace _ hj]
        omega
      rw [getElem?_splice_outside hfits' hout]
      exact h.stored i hdone
    · obtain ⟨j, rfl⟩ := Nat.exists_eq_add_of_le hlow
      have hj : j < bytes.length := by omega
      rw [hplace j hj, getElem?_splice_inside hfits' (by omega) (by omega),
        Nat.add_sub_cancel_left, hitem j hj]
  · intro p hp
    have hout : p < place k ∨ place k + bytes.length ≤ p := by
      by_contra hin
      have hj : p - place k < bytes.length := by omega
      refine hp (k + (p - place k)) (Or.inr ⟨by omega, by omega⟩) ?_
      rw [hplace _ hj]
      omega
    rw [getElem?_splice_outside hfits' hout]
    exact h.frame p fun i hi => hp i (Or.inl hi)

/-- A range that nothing was stored in yet is read as it was. -/
theorem load_unread (h : Scattered a b place item done) {pos n : ℕ} (hfits : pos + n ≤ a.length)
    (hunread : ∀ i j, done i → j < n → place i ≠ pos + j) :
    ∃ bytes, load b pos n = some bytes ∧ bytes.length = n ∧
      ∀ j, j < n → bytes[j]? = a[pos + j]? := by
  have hload : load b pos n = load a pos n := load_congr h.length fun p hlow hhigh =>
    h.frame p fun i hi hp => hunread i (p - pos) hi (by omega) (by omega)
  have ha : load a pos n = some ((a.drop pos).take n) := if_pos hfits
  refine ⟨_, hload.trans ha, load_length ha, fun j hj => ?_⟩
  rw [List.getElem?_take_of_lt hj, List.getElem?_drop]

end Scattered

end NixWasm.ByteStore
