import NixWasm.Bytes
import Mathlib.Data.List.Basic

/-!
Byte stores: a flat byte array that is read and written in ranges. A range that
leaves the store is refused, as a view over an array buffer is. Two stores of one
length are compared byte by byte, and the bytes that may differ are named by a
predicate on positions.
-/
namespace NixWasm.ByteStore

open Bytes

/-- The `n` bytes at `pos`, or nothing when the range leaves the store. -/
def load (bytes : List UInt8) (pos n : ℕ) : Option (List UInt8) :=
  if pos + n ≤ bytes.length then some ((bytes.drop pos).take n) else none

/-- Replace the bytes from `pos` on by `src`. -/
def splice (bytes : List UInt8) (pos : ℕ) (src : List UInt8) : List UInt8 :=
  bytes.take pos ++ src ++ bytes.drop (pos + src.length)

def store (bytes : List UInt8) (pos : ℕ) (src : List UInt8) : Option (List UInt8) :=
  if pos + src.length ≤ bytes.length then some (splice bytes pos src) else none

theorem load_length {bytes : List UInt8} {pos n : ℕ} {out : List UInt8}
    (h : load bytes pos n = some out) : out.length = n := by
  unfold load at h
  split at h
  · cases h
    simp only [List.length_take, List.length_drop]
    omega
  · cases h

theorem load_inside {bytes : List UInt8} {pos n : ℕ} {out : List UInt8}
    (h : load bytes pos n = some out) : pos + n ≤ bytes.length := by
  unfold load at h
  split at h
  · assumption
  · cases h

theorem splice_length {bytes src : List UInt8} {pos : ℕ}
    (h : pos + src.length ≤ bytes.length) : (splice bytes pos src).length = bytes.length := by
  simp only [splice, List.length_append, List.length_take, List.length_drop]
  omega

theorem getElem?_splice_inside {bytes src : List UInt8} {pos p : ℕ}
    (hfits : pos + src.length ≤ bytes.length) (hlow : pos ≤ p) (hhigh : p < pos + src.length) :
    (splice bytes pos src)[p]? = src[p - pos]? := by
  have htake : (bytes.take pos).length = pos := by
    rw [List.length_take]
    omega
  unfold splice
  rw [List.append_assoc, List.getElem?_append_right (by omega), htake,
    List.getElem?_append_left (by omega)]

theorem getElem?_splice_outside {bytes src : List UInt8} {pos p : ℕ}
    (hfits : pos + src.length ≤ bytes.length) (hout : p < pos ∨ pos + src.length ≤ p) :
    (splice bytes pos src)[p]? = bytes[p]? := by
  have htake : (bytes.take pos).length = pos := by
    rw [List.length_take]
    omega
  unfold splice
  rw [List.append_assoc]
  rcases hout with hlow | hhigh
  · rw [List.getElem?_append_left (by omega), List.getElem?_take, if_pos hlow]
  · rw [List.getElem?_append_right (by omega), htake, List.getElem?_append_right (by omega),
      List.getElem?_drop]
    congr 1
    omega

@[simp] theorem splice_nil (bytes : List UInt8) (pos : ℕ) : splice bytes pos [] = bytes := by
  simp [splice]

/-- Two adjacent ranges stored one after the other. -/
theorem splice_append {bytes src more : List UInt8} {pos : ℕ}
    (hfits : pos + (src ++ more).length ≤ bytes.length) :
    splice bytes pos (src ++ more) = splice (splice bytes pos src) (pos + src.length) more := by
  rw [List.length_append] at hfits
  have hfront : (bytes.take pos ++ src).length = pos + src.length := by
    rw [List.length_append, List.length_take]
    omega
  have hback : (bytes.take pos ++ src ++ bytes.drop (pos + src.length)).drop
      (pos + src.length + more.length) = bytes.drop (pos + (src ++ more).length) := by
    rw [← List.drop_drop, List.drop_left' hfront, List.drop_drop, List.length_append, Nat.add_assoc]
  unfold splice
  rw [List.take_left' hfront, hback, List.append_assoc (bytes.take pos) src more]

theorem load_splice_self {bytes src : List UInt8} {pos : ℕ}
    (hfits : pos + src.length ≤ bytes.length) :
    load (splice bytes pos src) pos src.length = some src := by
  have hfront : (bytes.take pos).length = pos := List.length_take_of_le (by omega)
  rw [load, if_pos (by rw [splice_length hfits]; exact hfits), splice, List.append_assoc,
    List.drop_left' hfront, List.take_left' rfl]

/-- Ranges that agree byte by byte are read alike. -/
theorem load_congr {a b : List UInt8} {pos n : ℕ} (hlength : a.length = b.length)
    (hbytes : ∀ p, pos ≤ p → p < pos + n → a[p]? = b[p]?) : load a pos n = load b pos n := by
  have hrange : (a.drop pos).take n = (b.drop pos).take n := by
    apply List.ext_getElem?
    intro i
    by_cases hi : i < n
    · rw [List.getElem?_take_of_lt hi, List.getElem?_take_of_lt hi, List.getElem?_drop,
        List.getElem?_drop, hbytes _ (by omega) (by omega)]
    · rw [List.getElem?_eq_none (by simp; omega), List.getElem?_eq_none (by simp; omega)]
  rw [load, load, hlength, hrange]

theorem load_splice_apart {bytes src : List UInt8} {pos off n : ℕ}
    (hfits : pos + src.length ≤ bytes.length) (hapart : off + n ≤ pos ∨ pos + src.length ≤ off) :
    load (splice bytes pos src) off n = load bytes off n :=
  load_congr (splice_length hfits) fun _ _ _ => getElem?_splice_outside hfits (by omega)

/-- A range is read from any range around it. -/
theorem load_of_load {bytes out : List UInt8} {pos n : ℕ} (h : load bytes pos n = some out)
    {off k : ℕ} (hlow : pos ≤ off) (hhigh : off + k ≤ pos + n) :
    load bytes off k = some ((out.drop (off - pos)).take k) := by
  unfold load at h ⊢
  split at h
  · next hfits =>
    cases h
    rw [if_pos (by omega), List.drop_take, List.drop_drop, List.take_take]
    congr 3 <;> omega
  · cases h

/-- A little-endian field, or nothing when it leaves the store. -/
def field (bytes : List UInt8) (off n : ℕ) : Option ℕ := (load bytes off n).map leValue

theorem field_splice_self {bytes : List UInt8} {off n : ℕ} (v : ℕ)
    (hfits : off + n ≤ bytes.length) :
    field (splice bytes off (leBytes n v)) off n = some (v % 256 ^ n) := by
  have hload := @load_splice_self bytes (leBytes n v) off (by rwa [leBytes_length])
  rw [leBytes_length] at hload
  rw [field, hload, Option.map_some, leValue_leBytes]

theorem field_splice_apart {bytes src : List UInt8} {pos off n : ℕ}
    (hfits : pos + src.length ≤ bytes.length) (hapart : off + n ≤ pos ∨ pos + src.length ≤ off) :
    field (splice bytes pos src) off n = field bytes off n := by
  rw [field, field, load_splice_apart hfits hapart]

/-- Byte stores at the positions, in order. -/
def storeAll (image : List UInt8) (stores : List (ℕ × UInt8)) : List UInt8 :=
  stores.foldl (fun im s => splice im s.1 [s.2]) image

/-- A stored range is a series of byte stores. -/
theorem splice_eq_storeAll (image src : List UInt8) (pos : ℕ)
    (hfits : pos + src.length ≤ image.length) :
    splice image pos src = storeAll image ((List.range' pos src.length).zip src) := by
  induction src generalizing image pos with
  | nil => simp [storeAll]
  | cons b src ih =>
    rw [List.length_cons] at hfits
    have hlen : (splice image pos [b]).length = image.length :=
      splice_length (by simp only [List.length_singleton]; omega)
    have hsplit : splice image pos ([b] ++ src) =
        splice (splice image pos [b]) (pos + [b].length) src :=
      splice_append (by simp only [List.length_append, List.length_singleton]; omega)
    rw [← List.singleton_append, hsplit, List.length_singleton, ih _ _ (by omega),
      List.singleton_append, List.length_cons, List.range'_succ]
    rfl

theorem storeAll_length {image : List UInt8} {stores : List (ℕ × UInt8)}
    (hinside : ∀ s ∈ stores, s.1 < image.length) :
    (storeAll image stores).length = image.length := by
  induction stores generalizing image with
  | nil => rfl
  | cons s stores ih =>
    have hlen : (splice image s.1 [s.2]).length = image.length :=
      splice_length (hinside s (by simp))
    have hrest := @ih (splice image s.1 [s.2])
      fun t ht => by rw [hlen]; exact hinside t (by simp [ht])
    exact hrest.trans hlen

theorem getElem?_storeAll_outside {image : List UInt8} {stores : List (ℕ × UInt8)} {p : ℕ}
    (hinside : ∀ s ∈ stores, s.1 < image.length) (hout : ∀ s ∈ stores, s.1 ≠ p) :
    (storeAll image stores)[p]? = image[p]? := by
  induction stores generalizing image with
  | nil => rfl
  | cons s stores ih =>
    have hfits : s.1 + [s.2].length ≤ image.length := hinside s (by simp)
    have hne := hout s (by simp)
    have hlen : (splice image s.1 [s.2]).length = image.length := splice_length hfits
    have hrest := @ih (splice image s.1 [s.2])
      (fun t ht => by rw [hlen]; exact hinside t (by simp [ht])) fun t ht => hout t (by simp [ht])
    have hone : (splice image s.1 [s.2])[p]? = image[p]? := by
      refine getElem?_splice_outside hfits ?_
      rw [List.length_singleton]
      omega
    exact hrest.trans hone

theorem storeAll_append (image : List UInt8) (before after : List (ℕ × UInt8)) :
    storeAll image (before ++ after) = storeAll (storeAll image before) after :=
  List.foldl_append ..

theorem splice_singleton {image : List UInt8} {p : ℕ} (hp : p < image.length) (b : UInt8) :
    splice image p [b] = image.set p b := by
  rw [List.set_eq_take_append_cons_drop, if_pos hp, splice, List.append_assoc]
  rfl

/-- Stores at other addresses commute. -/
theorem storeAll_comm {image : List UInt8} {before after : List (ℕ × UInt8)}
    (hbefore : ∀ s ∈ before, s.1 < image.length) (hafter : ∀ s ∈ after, s.1 < image.length)
    (hapart : ∀ s ∈ before, ∀ t ∈ after, s.1 ≠ t.1) :
    storeAll (storeAll image before) after = storeAll (storeAll image after) before := by
  have hone : ∀ (b : List (ℕ × UInt8)) (image : List UInt8) (t : ℕ × UInt8),
      (∀ s ∈ b, s.1 < image.length) → t.1 < image.length → (∀ s ∈ b, s.1 ≠ t.1) →
      splice (storeAll image b) t.1 [t.2] = storeAll (splice image t.1 [t.2]) b := by
    intro b
    induction b with
    | nil => intros; rfl
    | cons s b ih =>
      intro image t hb ht hne
      have hs := hb s List.mem_cons_self
      have hlen : (splice image s.1 [s.2]).length = image.length := splice_length hs
      have hlen' : (splice image t.1 [t.2]).length = image.length := splice_length ht
      have hswap : splice (splice image s.1 [s.2]) t.1 [t.2] =
          splice (splice image t.1 [t.2]) s.1 [s.2] := by
        rw [splice_singleton (by rwa [hlen]), splice_singleton hs,
          splice_singleton (by rwa [hlen']), splice_singleton ht,
          List.set_comm _ _ (hne s List.mem_cons_self)]
      have hrest := ih (splice image s.1 [s.2]) t
        (fun u hu => by rw [hlen]; exact hb u (List.mem_cons_of_mem _ hu)) (by rwa [hlen])
        fun u hu => hne u (List.mem_cons_of_mem _ hu)
      rw [hswap] at hrest
      exact hrest
  induction after generalizing image with
  | nil => rfl
  | cons t after ih =>
    have ht := hafter t List.mem_cons_self
    have hlen : (splice image t.1 [t.2]).length = image.length := splice_length ht
    have hrest := @ih (splice image t.1 [t.2])
      (fun u hu => by rw [hlen]; exact hbefore u hu)
      (fun u hu => by rw [hlen]; exact hafter u (List.mem_cons_of_mem _ hu))
      fun u hu v hv => hapart u hu v (List.mem_cons_of_mem _ hv)
    rw [← hone before image t hbefore ht fun u hu => hapart u hu t List.mem_cons_self] at hrest
    exact hrest

theorem getElem?_storeAll_of_nodup {image : List UInt8} {stores : List (ℕ × UInt8)} {s : ℕ × UInt8}
    (hinside : ∀ t ∈ stores, t.1 < image.length) (hdistinct : (stores.map Prod.fst).Nodup)
    (hs : s ∈ stores) : (storeAll image stores)[s.1]? = some s.2 := by
  induction stores generalizing image with
  | nil => cases hs
  | cons t stores ih =>
    have hfits : t.1 + [t.2].length ≤ image.length := hinside t (by simp)
    have hlen : (splice image t.1 [t.2]).length = image.length := splice_length hfits
    have hrest : ∀ u ∈ stores, u.1 < (splice image t.1 [t.2]).length := fun u hu => by
      rw [hlen]
      exact hinside u (by simp [hu])
    rw [List.map_cons, List.nodup_cons] at hdistinct
    rcases List.mem_cons.mp hs with rfl | hs
    · have hkeep : (storeAll (splice image s.1 [s.2]) stores)[s.1]? =
          (splice image s.1 [s.2])[s.1]? :=
        getElem?_storeAll_outside hrest fun u hu h =>
          hdistinct.1 (h ▸ List.mem_map_of_mem hu)
      refine hkeep.trans ?_
      rw [getElem?_splice_inside hfits (le_refl _) (by simp), Nat.sub_self]
      rfl
    · exact ih hrest hdistinct.2 hs

/-- Two stores of one length that agree on every byte outside `owed`. -/
structure AgreeExcept (owed : ℕ → Prop) (a b : List UInt8) : Prop where
  length : a.length = b.length
  bytes : ∀ p, ¬ owed p → a[p]? = b[p]?

namespace AgreeExcept

theorem refl (owed : ℕ → Prop) (a : List UInt8) : AgreeExcept owed a a :=
  ⟨rfl, fun _ _ => rfl⟩

theorem mono {owed owed' : ℕ → Prop} {a b : List UInt8} (h : AgreeExcept owed a b)
    (hsub : ∀ p, p < a.length → owed p → owed' p) : AgreeExcept owed' a b := by
  refine ⟨h.length, fun p hp => ?_⟩
  by_cases hlt : p < a.length
  · exact h.bytes p fun howed => hp (hsub p hlt howed)
  · have hlen : a.length = b.length := h.length
    rw [List.getElem?_eq_none (by omega), List.getElem?_eq_none (by omega)]

theorem trans {owed owed' : ℕ → Prop} {a b c : List UInt8} (h : AgreeExcept owed a b)
    (h' : AgreeExcept owed' b c) : AgreeExcept (fun p => owed p ∨ owed' p) a c := by
  refine ⟨h.length.trans h'.length, fun p hp => ?_⟩
  exact (h.bytes p fun ho => hp (Or.inl ho)).trans (h'.bytes p fun ho => hp (Or.inr ho))

/-- With nothing owed the stores are the same. -/
theorem eq {owed : ℕ → Prop} {a b : List UInt8} (h : AgreeExcept owed a b)
    (hnone : ∀ p, p < a.length → ¬ owed p) : a = b := by
  have hall : AgreeExcept (fun _ => False) a b := h.mono hnone
  exact List.ext_getElem? fun p => hall.bytes p id

/-- Storing into the first store where the bytes are owed anyway. -/
theorem splice_left {owed : ℕ → Prop} {a b src : List UInt8} {pos : ℕ}
    (h : AgreeExcept owed a b) (hfits : pos + src.length ≤ a.length)
    (howed : ∀ p, pos ≤ p → p < pos + src.length → owed p) :
    AgreeExcept owed (splice a pos src) b := by
  refine ⟨(splice_length hfits).trans h.length, fun p hp => ?_⟩
  have hout : p < pos ∨ pos + src.length ≤ p := by
    by_contra hin
    exact hp (howed p (by omega) (by omega))
  rw [getElem?_splice_outside hfits hout]
  exact h.bytes p hp

/-- Copying a range of the first store into the second settles that range. -/
theorem copy_right {owed : ℕ → Prop} {a b : List UInt8} {pos n : ℕ}
    (h : AgreeExcept (fun p => owed p ∨ pos ≤ p ∧ p < pos + n) a b) (hfits : pos + n ≤ a.length) :
    AgreeExcept owed a (splice b pos ((a.drop pos).take n)) := by
  have hlen : a.length = b.length := h.length
  have hn : ((a.drop pos).take n).length = n := by
    simp only [List.length_take, List.length_drop]
    omega
  have hfits' : pos + ((a.drop pos).take n).length ≤ b.length := by omega
  refine ⟨hlen.trans (splice_length hfits').symm, fun p hp => ?_⟩
  by_cases hin : pos ≤ p ∧ p < pos + n
  · rw [getElem?_splice_inside hfits' hin.1 (by omega), List.getElem?_take, if_pos (by omega),
      List.getElem?_drop]
    congr 1
    omega
  · rw [getElem?_splice_outside hfits' (by omega)]
    exact h.bytes p (by rintro (howed | hrange) <;> [exact hp howed; exact hin hrange])

end AgreeExcept

end NixWasm.ByteStore
