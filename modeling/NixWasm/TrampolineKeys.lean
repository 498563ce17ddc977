import Mathlib.Data.List.Sublists
import NixWasm.Trampolines

/-!
Which signatures the generator enumerates, and which keys they have. Each vector is
listed once, and on the listed signatures the key is injective, so the duplicate guard
of emit never fires. On the calls of ffi_call the key is injective up to sixteen
arguments; beyond that it confuses a call with an all-i32 trampoline exactly when the
classes that run over the low word leave a valid count and return class behind.
-/
namespace NixWasm.Trampolines

section Enumeration

variable {α : Type}

theorem combinations_perm (k : ℕ) (l : List α) : (combinations k l).Perm (l.sublistsLen k) := by
  induction l generalizing k with
  | nil =>
    cases k with
    | zero => exact .refl _
    | succ k => exact .refl _
  | cons x l ih =>
    cases k with
    | zero => simp [combinations]
    | succ k =>
      rw [combinations, List.sublistsLen_succ_cons]
      exact (((ih k).map _).append (ih (k + 1))).trans List.perm_append_comm

theorem combinations_nodup (k : ℕ) {l : List α} (h : l.Nodup) : (combinations k l).Nodup :=
  (combinations_perm k l).nodup_iff.mpr (List.nodup_sublistsLen k h)

theorem mem_combinations {k : ℕ} {l s : List α} :
    s ∈ combinations k l ↔ s.Sublist l ∧ s.length = k := by
  rw [(combinations_perm k l).mem_iff, List.mem_sublistsLen]

theorem mem_productRepeat {l s : List α} {k : ℕ} :
    s ∈ productRepeat l k ↔ s.length = k ∧ ∀ x ∈ s, x ∈ l := by
  induction k generalizing s with
  | zero =>
    rw [productRepeat, List.mem_singleton]
    constructor
    · rintro rfl
      simp
    · rintro ⟨hlen, -⟩
      exact List.length_eq_zero_iff.mp hlen
  | succ k ih =>
    simp only [productRepeat, List.mem_flatMap, List.mem_map]
    constructor
    · rintro ⟨x, hx, t, ht, rfl⟩
      obtain ⟨hlen, hmem⟩ := ih.mp ht
      exact ⟨by simp [hlen], by simpa using ⟨hx, hmem⟩⟩
    · rintro ⟨hlen, hmem⟩
      cases s with
      | nil => simp at hlen
      | cons x t =>
        have ht : t ∈ productRepeat l k :=
          ih.mpr ⟨by simpa using hlen, fun y hy => hmem y (List.mem_cons_of_mem _ hy)⟩
        exact ⟨x, hmem x List.mem_cons_self, t, ht, rfl⟩

theorem productRepeat_nodup {l : List α} (h : l.Nodup) (k : ℕ) : (productRepeat l k).Nodup := by
  induction k with
  | zero => simp [productRepeat]
  | succ k ih =>
    refine List.nodup_flatMap.mpr ⟨fun x _ => ih.map (List.cons_injective), ?_⟩
    refine h.imp fun hne s hs hs' => ?_
    obtain ⟨t, -, rfl⟩ := List.mem_map.mp hs
    obtain ⟨t', -, heq⟩ := List.mem_map.mp hs'
    exact hne (List.cons.inj heq).1.symm

end Enumeration

section Vectors

/-- The loop of argvecs over some vector. -/
def placeIn (vec positions kinds : List ℕ) : List ℕ :=
  (positions.zip kinds).foldl (fun vec p => vec.set p.1 p.2) vec

theorem placeIn_length (vec positions kinds : List ℕ) :
    (placeIn vec positions kinds).length = vec.length := by
  induction positions generalizing vec kinds with
  | nil => rfl
  | cons p positions ih =>
    cases kinds with
    | nil => rfl
    | cons c kinds => simpa [placeIn] using ih (vec.set p c) kinds

/-- Other positions are not written. -/
theorem placeIn_getD_other {p : ℕ} {positions : List ℕ} (hp : p ∉ positions) (vec kinds : List ℕ) :
    (placeIn vec positions kinds).getD p 0 = vec.getD p 0 := by
  induction positions generalizing vec kinds with
  | nil => rfl
  | cons q positions ih =>
    cases kinds with
    | nil => rfl
    | cons c kinds =>
      have hne : q ≠ p := fun h => hp (h ▸ List.mem_cons_self)
      have hrest := ih (fun h => hp (List.mem_cons_of_mem _ h)) (vec.set q c) kinds
      have hset : (vec.set q c).getD p 0 = vec.getD p 0 := by
        rw [List.getD_eq_getElem?_getD, List.getElem?_set_ne hne, List.getD_eq_getElem?_getD]
      exact hrest.trans hset

/-- The written positions hold the kinds. -/
theorem placeIn_map_getD {positions : List ℕ} (hnodup : positions.Nodup) (vec kinds : List ℕ)
    (hbound : ∀ p ∈ positions, p < vec.length) (hlen : kinds.length = positions.length) :
    positions.map (fun p => (placeIn vec positions kinds).getD p 0) = kinds := by
  induction positions generalizing vec kinds with
  | nil => exact (List.length_eq_zero_iff.mp hlen).symm
  | cons q positions ih =>
    obtain ⟨hq, hnodup⟩ := List.nodup_cons.mp hnodup
    cases kinds with
    | nil => simp at hlen
    | cons c kinds =>
      have hhead : (placeIn (vec.set q c) positions kinds).getD q 0 = c := by
        rw [placeIn_getD_other hq, List.getD_eq_getElem?_getD,
          List.getElem?_set_self (hbound q List.mem_cons_self), Option.getD_some]
      have htail := ih hnodup (vec.set q c) kinds
        (fun p hp => by simpa using hbound p (List.mem_cons_of_mem _ hp)) (by simpa using hlen)
      rw [List.map_cons]
      exact congrArg₂ List.cons hhead htail

/-- The positions and kinds of a mixed vector. -/
structure Placed (n : ℕ) (positions kinds : List ℕ) : Prop where
  sub : positions.Sublist (List.range n)
  len : kinds.length = positions.length
  mixed : ∀ c ∈ kinds, c ∈ [1, 2, 3]

variable {n : ℕ} {positions kinds : List ℕ}

theorem Placed.nodup (h : Placed n positions kinds) : positions.Nodup :=
  h.sub.nodup List.nodup_range

theorem Placed.map_getD (h : Placed n positions kinds) :
    positions.map (fun p => (place n positions kinds).getD p 0) = kinds :=
  placeIn_map_getD h.nodup _ _ (fun p hp => by simpa using h.sub.subset hp) h.len

theorem Placed.mem_iff (h : Placed n positions kinds) (p : ℕ) :
    p ∈ positions ↔ (place n positions kinds).getD p 0 ≠ 0 := by
  constructor
  · intro hp hzero
    have hkind : (0 : ℕ) ∈ kinds := by
      rw [← h.map_getD]
      exact List.mem_map.mpr ⟨p, hp, hzero⟩
    simpa using h.mixed 0 hkind
  · intro hne
    by_contra hp
    apply hne
    rw [show place n positions kinds = placeIn (List.replicate n 0) positions kinds from rfl,
      placeIn_getD_other hp, List.getD_eq_getElem?_getD, List.getElem?_replicate]
    split <;> rfl

/-- A mixed vector determines its positions and kinds. -/
theorem Placed.inj (h : Placed n positions kinds) {positions' kinds' : List ℕ}
    (h' : Placed n positions' kinds') (heq : place n positions kinds = place n positions' kinds') :
    positions = positions' ∧ kinds = kinds' := by
  have hmem : ∀ p, p ∈ positions ↔ p ∈ positions' := fun p => by rw [h.mem_iff, h'.mem_iff, heq]
  have hpos : positions = positions' := by
    refine List.Perm.eq_of_pairwise  ?_ (List.pairwise_lt_range.sublist h.sub)
      (List.pairwise_lt_range.sublist h'.sub)
        ((List.perm_ext_iff_of_nodup h.nodup h'.nodup).mpr hmem)
    intro a b _ _ hab hba
    omega
  subst hpos
  exact ⟨rfl, by rw [← h.map_getD, ← h'.map_getD, heq]⟩

end Vectors

section Listed

theorem mem_mixedVecs {n : ℕ} {vec : List ℕ} :
    vec ∈ mixedVecs n ↔ ∃ positions kinds, Placed n positions kinds ∧
      1 ≤ positions.length ∧ positions.length ≤ maxNonI32 ∧ place n positions kinds = vec := by
  simp only [mixedVecs, List.mem_flatMap, List.mem_map, List.mem_range'_1, mem_combinations,
    mem_productRepeat]
  constructor
  · rintro ⟨positions, ⟨k, hk, hsub, rfl⟩, kinds, ⟨hlen, hmixed⟩, heq⟩
    exact ⟨positions, kinds, ⟨hsub, hlen, hmixed⟩, hk.1, by omega, heq⟩
  · rintro ⟨positions, kinds, h, hone, hmax, heq⟩
    exact ⟨positions, ⟨_, ⟨hone, by omega⟩, h.sub, rfl⟩, kinds, ⟨h.len, h.mixed⟩, heq⟩

theorem mixedVecs_nodup (n : ℕ) : (mixedVecs n).Nodup := by
  have hpositions : ((List.range' 1 maxNonI32).flatMap fun k =>
      combinations k (List.range n)).Nodup := by
    refine List.nodup_flatMap.mpr ⟨fun k _ => combinations_nodup k List.nodup_range, ?_⟩
    refine (List.nodup_range' 1).imp fun hne s hs hs' => ?_
    exact hne ((mem_combinations.mp hs).2.symm.trans (mem_combinations.mp hs').2)
  have hplaced : ∀ positions ∈ (List.range' 1 maxNonI32).flatMap fun k =>
      combinations k (List.range n), ∀ kinds ∈ productRepeat [1, 2, 3] positions.length,
      Placed n positions kinds := by
    intro positions hp kinds hk
    obtain ⟨k, -, hcomb⟩ := List.mem_flatMap.mp hp
    obtain ⟨hlen, hmixed⟩ := mem_productRepeat.mp hk
    exact ⟨(mem_combinations.mp hcomb).1, hlen, hmixed⟩
  refine List.nodup_flatMap.mpr ⟨fun positions hp => ?_, ?_⟩
  · refine (productRepeat_nodup (by decide) _).map_on fun a ha b hb heq => ?_
    exact ((hplaced positions hp a ha).inj (hplaced positions hp b hb) heq).2
  · refine hpositions.imp_of_mem fun hp hp' hne vec hv hv' => ?_
    obtain ⟨a, ha, rfl⟩ := List.mem_map.mp hv
    obtain ⟨b, hb, heq⟩ := List.mem_map.mp hv'
    exact hne ((hplaced _ hp a ha).inj (hplaced _ hp' b hb) heq.symm).1

theorem place_length (n : ℕ) (positions kinds : List ℕ) :
    (place n positions kinds).length = n := by
  rw [show place n positions kinds = placeIn (List.replicate n 0) positions kinds from rfl,
    placeIn_length, List.length_replicate]

theorem length_of_mem_mixedVecs {n : ℕ} {vec : List ℕ} (h : vec ∈ mixedVecs n) :
    vec.length = n := by
  obtain ⟨positions, kinds, -, -, -, rfl⟩ := mem_mixedVecs.mp h
  exact place_length n positions kinds

/-- A mixed vector is mixed. -/
theorem exists_pos_of_mem_mixedVecs {n : ℕ} {vec : List ℕ} (h : vec ∈ mixedVecs n) :
    ∃ p, vec.getD p 0 ≠ 0 := by
  obtain ⟨positions, kinds, hplaced, hone, -, rfl⟩ := mem_mixedVecs.mp h
  obtain ⟨p, hp⟩ := List.exists_mem_of_length_pos hone
  exact ⟨p, (hplaced.mem_iff p).mp hp⟩

theorem replicate_getD (n p : ℕ) : (List.replicate n 0).getD p 0 = 0 := by
  rw [List.getD_eq_getElem?_getD, List.getElem?_replicate]
  split <;> rfl

/-- No vector is listed twice. -/
theorem argvecs_nodup : argvecs.Nodup := by
  have hzero : ((List.range (maxArgsAllI32 + 1)).map fun n => List.replicate n 0).Nodup :=
    List.nodup_range.map fun a b heq => by simpa using congrArg List.length heq
  have hmixed : ((List.range' 1 maxArgsMixed).flatMap mixedVecs).Nodup := by
    refine List.nodup_flatMap.mpr ⟨fun n _ => mixedVecs_nodup n, ?_⟩
    refine (List.nodup_range' 1).imp fun hne vec hv hv' => ?_
    exact hne ((length_of_mem_mixedVecs hv).symm.trans (length_of_mem_mixedVecs hv'))
  refine hzero.append hmixed fun vec hv hv' => ?_
  obtain ⟨n, -, rfl⟩ := List.mem_map.mp hv
  obtain ⟨m, -, hm⟩ := List.mem_flatMap.mp hv'
  obtain ⟨p, hp⟩ := exists_pos_of_mem_mixedVecs hm
  exact hp (replicate_getD n p)

end Listed

section Keys

/-- Every class fits its two bits. -/
abbrev Classes (vec : List ℕ) : Prop := ∀ c ∈ vec, c < 4

theorem foldl_or_eq (l : List (ℕ × ℕ)) (base : ℕ) :
    l.foldl (fun k c => k ||| c.1 <<< (2 * c.2)) base =
      base ||| l.foldl (fun k c => k ||| c.1 <<< (2 * c.2)) 0 := by
  induction l generalizing base with
  | nil => simp
  | cons c l ih =>
    rw [List.foldl_cons, List.foldl_cons, ih, ih (0 ||| c.1 <<< (2 * c.2)), Nat.zero_or,
      Nat.or_assoc]

/-- Both sides compute the same key. -/
theorem callKey_eq (rc : ℕ) (vec : List ℕ) : callKey rc vec = key rc vec := foldl_or_eq _ _

theorem packed_concat (vec : List ℕ) (c : ℕ) :
    packed (vec ++ [c]) = packed vec ||| c <<< (2 * vec.length) := by
  simp [packed, List.zipIdx_append]

/-- Without overlap the bits are the digits in base four. -/
theorem packed_eq_ofDigits {vec : List ℕ} (h : Classes vec) : packed vec = Nat.ofDigits 4 vec := by
  induction vec using List.reverseRecOn with
  | nil => rfl
  | append_singleton vec c ih =>
    have hvec : Classes vec := fun d hd => h d (List.mem_append_left _ hd)
    have hlt : Nat.ofDigits 4 vec < 2 ^ (2 * vec.length) := by
      rw [pow_mul]
      exact Nat.ofDigits_lt_base_pow_length (by decide) hvec
    rw [packed_concat, ih hvec, Nat.ofDigits_append, Nat.ofDigits_singleton, Nat.or_comm,
      ← Nat.shiftLeft_add_eq_or_of_lt hlt, Nat.shiftLeft_eq, pow_mul, Nat.add_comm, Nat.mul_comm c]
    rfl

/-- The first sixteen arguments fill the low word, the others run over it. -/
theorem packed_split {vec : List ℕ} (h : Classes vec) :
    packed vec = Nat.ofDigits 4 (vec.take 16) + 2 ^ 32 * Nat.ofDigits 4 (vec.drop 16) := by
  rw [packed_eq_ofDigits h]
  nth_rewrite 1 [← List.take_append_drop 16 vec]
  rw [Nat.ofDigits_append, List.length_take]
  by_cases hlen : 16 ≤ vec.length
  · rw [Nat.min_eq_left hlen]
    norm_num
  · rw [List.drop_eq_nil_of_le (by omega), Nat.ofDigits_nil]
    simp

theorem low_lt {vec : List ℕ} (h : Classes vec) : Nat.ofDigits 4 (vec.take 16) < 2 ^ 32 := by
  have hclasses : ∀ c ∈ vec.take 16, c < 4 := fun c hc => h c (List.mem_of_mem_take hc)
  have hlt := Nat.ofDigits_lt_base_pow_length (by decide : 1 < 4) hclasses
  have hle : (4 : ℕ) ^ (vec.take 16).length ≤ 4 ^ 16 :=
    Nat.pow_le_pow_right (by decide) (List.length_take_le 16 vec)
  exact hlt.trans_le (hle.trans (by norm_num))

theorem key_mod (rc : ℕ) {vec : List ℕ} (h : Classes vec) :
    key rc vec % 2 ^ 32 = Nat.ofDigits 4 (vec.take 16) := by
  have hrc : rc <<< 40 % 2 ^ 32 = 0 := by
    rw [Nat.shiftLeft_eq]
    omega
  have hn : vec.length <<< 32 % 2 ^ 32 = 0 := by
    rw [Nat.shiftLeft_eq]
    omega
  rw [key, Nat.or_mod_two_pow, Nat.or_mod_two_pow, hrc, hn, packed_split h,
    Nat.add_mul_mod_self_left, Nat.mod_eq_of_lt (low_lt h)]
  simp

theorem key_div (rc : ℕ) {vec : List ℕ} (h : Classes vec) :
    key rc vec / 2 ^ 32 = rc <<< 8 ||| vec.length ||| Nat.ofDigits 4 (vec.drop 16) := by
  have hrc : rc <<< 40 / 2 ^ 32 = rc <<< 8 := by
    rw [Nat.shiftLeft_eq, Nat.shiftLeft_eq]
    omega
  have hn : vec.length <<< 32 / 2 ^ 32 = vec.length := by
    rw [Nat.shiftLeft_eq]
    omega
  have hlow := low_lt h
  rw [key, Nat.or_div_two_pow, Nat.or_div_two_pow, hrc, hn, packed_split h,
    Nat.add_mul_div_left _ _ (by decide), Nat.div_eq_of_lt hlow, Nat.zero_add]

theorem shiftLeft_or_mod (rc n high : ℕ) (hn : n < 256) :
    (rc <<< 8 ||| n ||| high) % 256 = n ||| high % 256 := by
  have hrc : rc <<< 8 % 2 ^ 8 = 0 := by
    rw [Nat.shiftLeft_eq]
    omega
  rw [show 256 = 2 ^ 8 from rfl, Nat.or_mod_two_pow, Nat.or_mod_two_pow, hrc, Nat.zero_or,
    Nat.mod_eq_of_lt hn]

theorem shiftLeft_or_div (rc n high : ℕ) (hn : n < 256) :
    (rc <<< 8 ||| n ||| high) / 256 = rc ||| high / 256 := by
  have hrc : rc <<< 8 / 2 ^ 8 = rc := by
    rw [Nat.shiftLeft_eq]
    omega
  rw [show 256 = 2 ^ 8 from rfl, Nat.or_div_two_pow, Nat.or_div_two_pow, hrc,
    Nat.div_eq_of_lt hn, Nat.or_zero]

theorem key_count (rc : ℕ) {vec : List ℕ} (h : Classes vec) (hlen : vec.length < 256) :
    key rc vec / 2 ^ 32 % 256 = vec.length ||| Nat.ofDigits 4 (vec.drop 16) % 256 := by
  rw [key_div rc h, shiftLeft_or_mod rc _ _ hlen]

theorem key_ret (rc : ℕ) {vec : List ℕ} (h : Classes vec) (hlen : vec.length < 256) :
    key rc vec / 2 ^ 32 / 256 = rc ||| Nat.ofDigits 4 (vec.drop 16) / 256 := by
  rw [key_div rc h, shiftLeft_or_div rc _ _ hlen]

/-- What the later arguments leave in the count and the return class. -/
theorem key_eq_iff {rc rc' : ℕ} {vec vec' : List ℕ} (h : Classes vec) (h' : Classes vec')
    (hlen : vec.length < 256) (hlen' : vec'.length < 256) :
    key rc vec = key rc' vec' ↔
      Nat.ofDigits 4 (vec.take 16) = Nat.ofDigits 4 (vec'.take 16) ∧
      vec.length ||| Nat.ofDigits 4 (vec.drop 16) % 256 =
        vec'.length ||| Nat.ofDigits 4 (vec'.drop 16) % 256 ∧
      rc ||| Nat.ofDigits 4 (vec.drop 16) / 256 = rc' ||| Nat.ofDigits 4 (vec'.drop 16) / 256 := by
  rw [← key_mod rc h, ← key_mod rc' h', ← key_count rc h hlen, ← key_count rc' h' hlen',
    ← key_ret rc h hlen, ← key_ret rc' h' hlen']
  omega

end Keys

section Signatures

/-- What a listed vector looks like: all i32, or short. -/
def Listed (vec : List ℕ) : Prop :=
  (∃ n, n ≤ maxArgsAllI32 ∧ vec = List.replicate n 0) ∨ vec.length ≤ maxArgsMixed

theorem listed_of_mem_argvecs {vec : List ℕ} (h : vec ∈ argvecs) : Listed vec := by
  rcases List.mem_append.mp h with hzero | hmixed
  · obtain ⟨n, hn, rfl⟩ := List.mem_map.mp hzero
    exact .inl ⟨n, by simpa [Nat.lt_succ_iff] using hn, rfl⟩
  · obtain ⟨n, hn, hvec⟩ := List.mem_flatMap.mp hmixed
    have hbound := List.mem_range'_1.mp hn
    exact .inr (by rw [length_of_mem_mixedVecs hvec]; omega)

theorem classes_of_mem_argvecs {vec : List ℕ} (h : vec ∈ argvecs) : Classes vec := by
  intro c hc
  rcases List.mem_append.mp h with hzero | hmixed
  · obtain ⟨n, -, rfl⟩ := List.mem_map.mp hzero
    rw [List.eq_of_mem_replicate hc]
    decide
  · obtain ⟨n, -, hvec⟩ := List.mem_flatMap.mp hmixed
    obtain ⟨positions, kinds, hplaced, -, -, rfl⟩ := mem_mixedVecs.mp hvec
    obtain ⟨p, hp, rfl⟩ := List.getElem_of_mem hc
    rw [← List.getD_eq_getElem _ 0 hp]
    by_cases hpos : p ∈ positions
    · have hkind := hplaced.mixed _ (hplaced.map_getD ▸ List.mem_map_of_mem hpos)
      simp only [List.mem_cons, List.not_mem_nil, or_false] at hkind
      omega
    · have hnot := mt (hplaced.mem_iff p).mpr hpos
      omega

theorem Listed.length_le {vec : List ℕ} (h : Listed vec) : vec.length ≤ maxArgsAllI32 := by
  rcases h with ⟨n, hn, rfl⟩ | hshort
  · simpa using hn
  · exact hshort.trans (by decide)

/-- A listed vector keeps the upper fields clean. -/
theorem Listed.ofDigits_drop {vec : List ℕ} (h : Listed vec) :
    Nat.ofDigits 4 (vec.drop 16) = 0 := by
  rcases h with ⟨n, -, rfl⟩ | hshort
  · rw [List.drop_replicate, Nat.ofDigits_replicate_zero]
  · rw [List.drop_eq_nil_of_le (hshort.trans (by decide)), Nat.ofDigits_nil]

theorem replicate_mem_argvecs {n : ℕ} (h : n ≤ maxArgsAllI32) : List.replicate n 0 ∈ argvecs :=
  List.mem_append_left _ (List.mem_map.mpr ⟨n, by simpa [Nat.lt_succ_iff] using h, rfl⟩)

/-- A listed vector and any vector of the same count: equal low words give equal vectors. -/
theorem eq_of_low_eq {vec vec' : List ℕ} (h : Classes vec) (h' : Classes vec')
    (hlen : vec.length = vec'.length) (hle : vec.length ≤ 16)
    (hlow : Nat.ofDigits 4 (vec.take 16) = Nat.ofDigits 4 (vec'.take 16)) : vec = vec' := by
  rw [List.take_of_length_le hle, List.take_of_length_le (hlen ▸ hle)] at hlow
  exact Nat.ofDigits_inj_of_len_eq (by decide) hlen h h' hlow

theorem mem_signatures {rc : ℕ} {vec : List ℕ} :
    (rc, vec) ∈ signatures ↔ rc ≤ 4 ∧ vec ∈ argvecs := by
  simp only [signatures, List.mem_flatMap, List.mem_map, Prod.mk.injEq]
  constructor
  · rintro ⟨_, hrc, _, hvec, rfl, rfl⟩
    simp only [retClasses, List.mem_cons, List.not_mem_nil, or_false] at hrc
    exact ⟨by omega, hvec⟩
  · rintro ⟨hrc, hvec⟩
    refine ⟨rc, ?_, vec, hvec, rfl, rfl⟩
    simp only [retClasses, List.mem_cons, List.not_mem_nil, or_false]
    omega

/-- What a call's key says about a listed signature with the same key. -/
theorem key_eq_listed_iff {rc rc' : ℕ} {vec vec' : List ℕ} (h : Classes vec)
    (hlen : vec.length ≤ maxArgsAllI32) (hmem : vec' ∈ argvecs) :
    key rc vec = key rc' vec' ↔
      Nat.ofDigits 4 (vec.take 16) = Nat.ofDigits 4 (vec'.take 16) ∧
      vec.length ||| Nat.ofDigits 4 (vec.drop 16) % 256 = vec'.length ∧
      rc ||| Nat.ofDigits 4 (vec.drop 16) / 256 = rc' := by
  have hlisted := listed_of_mem_argvecs hmem
  have hbound : maxArgsAllI32 < 256 := by decide
  rw [key_eq_iff h (classes_of_mem_argvecs hmem) (hlen.trans_lt hbound)
    (hlisted.length_le.trans_lt hbound), hlisted.ofDigits_drop]
  simp

/-- On the listed signatures the key is injective. -/
theorem key_injOn {rc rc' : ℕ} {vec vec' : List ℕ} (h : vec ∈ argvecs) (h' : vec' ∈ argvecs)
    (heq : key rc vec = key rc' vec') : rc = rc' ∧ vec = vec' := by
  have hlisted := listed_of_mem_argvecs h
  have hclasses := classes_of_mem_argvecs h
  have hfields := (key_eq_listed_iff hclasses hlisted.length_le h').mp heq
  rw [hlisted.ofDigits_drop] at hfields
  obtain ⟨hlow, hcount, hret⟩ := hfields
  simp only [Nat.zero_mod, Nat.zero_div, Nat.or_zero] at hcount hret
  refine ⟨hret, ?_⟩
  by_cases hle : vec.length ≤ 16
  · exact eq_of_low_eq hclasses (classes_of_mem_argvecs h') hcount hle hlow
  -- longer vectors are all i32 on both sides
  have hmax : maxArgsMixed = 10 := rfl
  rcases hlisted with ⟨n, -, rfl⟩ | hshort
  · rcases listed_of_mem_argvecs h' with ⟨n', -, rfl⟩ | hshort'
    · rw [List.length_replicate, List.length_replicate] at hcount
      rw [hcount]
    · omega
  · omega

/-- The generator's keys are pairwise distinct. -/
theorem signatures_keys_nodup : (signatures.map fun s => key s.1 s.2).Nodup := by
  have hnodup : (retClasses ×ˢ argvecs).Nodup := List.Nodup.product (by decide) argvecs_nodup
  refine List.Nodup.map_on (fun s hs s' hs' heq => ?_) hnodup
  obtain ⟨hrc, hvec⟩ := key_injOn (mem_signatures.mp hs).2 (mem_signatures.mp hs').2 heq
  exact Prod.ext hrc hvec

theorem emitFrom_eq (seen : List ℕ) (l : List (ℕ × List ℕ))
    (hnodup : (l.map fun s => key s.1 s.2).Nodup) (hseen : ∀ s ∈ l, key s.1 s.2 ∉ seen) :
    emitFrom seen l = l := by
  induction l generalizing seen with
  | nil => rfl
  | cons s l ih =>
    obtain ⟨hs, hrest⟩ := List.nodup_cons.mp hnodup
    rw [emitFrom, if_neg (hseen s List.mem_cons_self), ih (key s.1 s.2 :: seen) hrest]
    intro t ht hmem
    rcases List.mem_cons.mp hmem with heq | hold
    · exact hs (List.mem_map.mpr ⟨t, ht, heq⟩)
    · exact hseen t (List.mem_cons_of_mem _ ht) hold

/-- The duplicate guard drops nothing. -/
theorem trampolines_eq : trampolines = signatures :=
  emitFrom_eq [] signatures signatures_keys_nodup (by simp)

end Signatures

section Calls

/-- A call the switch confuses with an all-i32 trampoline: no other class among its
first sixteen arguments, and later classes whose bits leave a count and a return class
the generator has. -/
structure Clash (rc : ℕ) (vec : List ℕ) : Prop where
  low : ∀ c ∈ vec.take 16, c = 0
  high : ∃ c ∈ vec.drop 16, c ≠ 0
  count : vec.length ||| packed (vec.drop 16) % 256 ≤ maxArgsAllI32
  ret : rc ||| packed (vec.drop 16) / 256 ≤ 4

variable {rc : ℕ} {vec : List ℕ}

theorem Classes.drop (h : Classes vec) (n : ℕ) : Classes (vec.drop n) :=
  fun c hc => h c (List.mem_of_mem_drop hc)

theorem Listed.not_clash (h : Listed vec) : ¬ Clash rc vec := by
  rintro ⟨-, ⟨c, hc, hne⟩, -, -⟩
  rcases h with ⟨n, -, rfl⟩ | hshort
  · rw [List.drop_replicate] at hc
    exact hne (List.eq_of_mem_replicate hc)
  · rw [List.drop_eq_nil_of_le (hshort.trans (by decide))] at hc
    exact List.not_mem_nil hc

theorem eq_replicate_of_low_eq_zero {l : List ℕ} (h : Classes l) (hzero : Nat.ofDigits 4 l = 0) :
    l = List.replicate l.length 0 := by
  refine Nat.ofDigits_inj_of_len_eq (by decide : 1 < 4) (by simp) h ?_ ?_
  · intro c hc
    rw [List.eq_of_mem_replicate hc]
    decide
  · rw [hzero, Nat.ofDigits_replicate_zero]

/-- A call that is not listed reaches a trampoline exactly when it clashes. -/
theorem exists_key_eq_iff_clash (h : Classes vec) (hlen : vec.length ≤ maxArgsAllI32)
    (hnot : vec ∉ argvecs) :
    (∃ s ∈ signatures, key s.1 s.2 = key rc vec) ↔ Clash rc vec := by
  constructor
  · rintro ⟨⟨rc', vec'⟩, hs, heq⟩
    obtain ⟨hrc', hvec'⟩ := mem_signatures.mp hs
    obtain ⟨hlow, hcount, hret⟩ := (key_eq_listed_iff h hlen hvec').mp heq.symm
    have hlisted := listed_of_mem_argvecs hvec'
    have hlong : 16 < vec.length := by
      by_contra hle
      rw [List.drop_eq_nil_of_le (by omega)] at hcount
      simp only [Nat.ofDigits_nil, Nat.zero_mod, Nat.or_zero] at hcount
      exact hnot (eq_of_low_eq h (classes_of_mem_argvecs hvec') hcount (by omega) hlow ▸ hvec')
    have hge : vec.length ≤ vec'.length := hcount ▸ Nat.left_le_or
    have hmax : maxArgsMixed = 10 := rfl
    obtain ⟨n, hn, rfl⟩ : ∃ n, n ≤ maxArgsAllI32 ∧ vec' = List.replicate n 0 := by
      rcases hlisted with hzero | hshort
      · exact hzero
      · omega
    rw [List.take_replicate, Nat.ofDigits_replicate_zero] at hlow
    have htake : vec.take 16 = List.replicate _ 0 :=
      eq_replicate_of_low_eq_zero (fun c hc => h c (List.mem_of_mem_take hc)) hlow
    refine ⟨fun c hc => List.eq_of_mem_replicate (htake ▸ hc), ?_, ?_, ?_⟩
    · by_contra hzero
      have hdrop : ∀ c ∈ vec, c = 0 := by
        intro c hc
        rw [← List.take_append_drop 16 vec] at hc
        rcases List.mem_append.mp hc with hc | hc
        · exact List.eq_of_mem_replicate (htake ▸ hc)
        · exact not_not.mp fun hne => hzero ⟨c, hc, hne⟩
      exact hnot (List.eq_replicate_of_mem hdrop ▸ replicate_mem_argvecs hlen)
    · rw [packed_eq_ofDigits (h.drop 16), hcount]
      simpa using hn
    · rw [packed_eq_ofDigits (h.drop 16), hret]
      exact hrc'
  · rintro ⟨hlow, -, hcount, hret⟩
    rw [packed_eq_ofDigits (h.drop 16)] at hcount hret
    refine ⟨(_, _), mem_signatures.mpr ⟨hret, replicate_mem_argvecs hcount⟩, Eq.symm ?_⟩
    refine (key_eq_listed_iff h hlen (replicate_mem_argvecs hcount)).mpr ⟨?_, by simp, rfl⟩
    rw [List.eq_replicate_of_mem hlow, List.take_replicate, Nat.ofDigits_replicate_zero,
      Nat.ofDigits_replicate_zero]

/-- The non-variadic calls of scalar types within the count. -/
structure ScalarCall (cif : Cif) : Prop where
  fixed : cif.nfixedargs = cif.argTypes.length
  count : cif.argTypes.length ≤ wasmFfiMaxArgs
  ret : cif.rtype = .void ∨ isScalar cif.rtype = true
  args : ∀ t ∈ cif.argTypes, isScalar t = true

theorem ScalarCall.not_needsRuntime {cif : Cif} (h : ScalarCall cif) :
    needsRuntime cif = false := by
  have hargs : (cif.argTypes.any fun t => !isScalar t) = false := by
    rw [List.any_eq_false]
    intro t ht
    simp [h.args t ht]
  have hcount : ¬ wasmFfiMaxArgs < cif.argTypes.length := Nat.not_lt.mpr h.count
  rcases h.ret with hvoid | hscalar
  · simp [needsRuntime, h.fixed, hargs, hcount, hvoid]
  · simp [needsRuntime, h.fixed, hargs, hcount, hscalar]

theorem argClass_of_isScalar {t : FfiType} (h : isScalar t = true) :
    ∃ c, argClass t = some c ∧ c < 4 := by
  cases t <;> first | exact absurd h (by decide) | exact ⟨_, rfl, by decide⟩

theorem retClass_of_isScalar {t : FfiType} (h : t = .void ∨ isScalar t = true) :
    ∃ rc, retClass t = some rc ∧ rc ≤ 4 := by
  rcases h with rfl | h
  · exact ⟨0, rfl, by decide⟩
  · cases t <;> first | exact absurd h (by decide) | exact ⟨_, rfl, by decide⟩

theorem mapM_argClass {l : List FfiType} (h : ∀ t ∈ l, isScalar t = true) :
    ∃ vec, l.mapM argClass = some vec ∧ vec.length = l.length ∧ Classes vec := by
  induction l with
  | nil => exact ⟨[], rfl, rfl, List.forall_mem_nil _⟩
  | cons t l ih =>
    obtain ⟨c, hc, hlt⟩ := argClass_of_isScalar (h t List.mem_cons_self)
    obtain ⟨vec, hvec, hlen, hclasses⟩ := ih fun u hu => h u (List.mem_cons_of_mem _ hu)
    refine ⟨c :: vec, ?_, by simp [hlen], List.forall_mem_cons.mpr ⟨hlt, hclasses⟩⟩
    rw [List.mapM_cons, hc, hvec]
    rfl

theorem ScalarCall.signature_eq {cif : Cif} (h : ScalarCall cif) :
    ∃ rc vec, signature cif = some (rc, vec) ∧ rc ≤ 4 ∧ vec.length ≤ maxArgsAllI32 ∧
      Classes vec := by
  obtain ⟨rc, hrc, hle⟩ := retClass_of_isScalar h.ret
  obtain ⟨vec, hvec, hlen, hclasses⟩ := mapM_argClass h.args
  refine ⟨rc, vec, ?_, hle, hlen ▸ h.count, hclasses⟩
  rw [signature, hrc, hvec]
  rfl

/-- Where a call of some signature belongs: to its own trampoline, or to the fallback. -/
def exactTarget (rc : ℕ) (vec : List ℕ) : Target :=
  if (rc, vec) ∈ signatures then .trampoline rc vec else .runtime

/-- The switch, once the key is computed. -/
theorem ScalarCall.ffiCall_eq {cif : Cif} (h : ScalarCall cif)
    (hsig : signature cif = some (rc, vec)) :
    ffiCall cif = match signatures.find? fun s => key s.1 s.2 = key rc vec with
      | some s => .trampoline s.1 s.2
      | none => .runtime := by
  rw [ffiCall, h.not_needsRuntime, hsig, trampolines_eq]
  simp only [callKey_eq, Bool.false_eq_true, if_false] <;> rfl

theorem find_listed (h : (rc, vec) ∈ signatures) :
    (signatures.find? fun s => key s.1 s.2 = key rc vec) = some (rc, vec) := by
  obtain ⟨s, hs⟩ : ∃ s, (signatures.find? fun s => key s.1 s.2 = key rc vec) = some s := by
    rw [← Option.isSome_iff_exists, List.find?_isSome]
    exact ⟨_, h, by simp⟩
  have hmem := List.mem_of_find?_eq_some hs
  have hkey : key s.1 s.2 = key rc vec := by simpa using List.find?_some hs
  obtain ⟨hrc, hvec⟩ := key_injOn (mem_signatures.mp hmem).2 (mem_signatures.mp h).2 hkey
  rw [hs, ← hrc, ← hvec]

/-- The generator drops no signature, and a call is dispatched by its own signature
exactly when it does not clash. -/
theorem dispatch_exact_iff_not_clash (cif : Cif) (h : ScalarCall cif) :
    (signatures.map fun s => key s.1 s.2).Nodup ∧ trampolines = signatures ∧
      ∃ rc vec, signature cif = some (rc, vec) ∧
        (ffiCall cif = exactTarget rc vec ↔ ¬ Clash rc vec) := by
  refine ⟨signatures_keys_nodup, trampolines_eq, ?_⟩
  obtain ⟨rc, vec, hsig, hrc, hlen, hclasses⟩ := h.signature_eq
  refine ⟨rc, vec, hsig, ?_⟩
  rw [h.ffiCall_eq hsig, exactTarget]
  by_cases hvec : vec ∈ argvecs
  · have hmem : (rc, vec) ∈ signatures := mem_signatures.mpr ⟨hrc, hvec⟩
    rw [find_listed hmem, if_pos hmem]
    simpa using (listed_of_mem_argvecs hvec).not_clash
  have hmem : (rc, vec) ∉ signatures := fun hs => hvec (mem_signatures.mp hs).2
  rw [if_neg hmem, ← exists_key_eq_iff_clash hclasses hlen hvec]
  cases hfind : signatures.find? fun s => key s.1 s.2 = key rc vec with
  | none =>
    rw [List.find?_eq_none] at hfind
    simpa using hfind
  | some s =>
    have hkey : key s.1 s.2 = key rc vec := by simpa using List.find?_some hfind
    have hs := List.mem_of_find?_eq_some hfind
    simpa using ⟨s.1, s.2, hs, hkey⟩

/-- An i32 and a double. -/
def mixedPair : Cif := ⟨.sint32, [.sint32, .double], 2⟩

theorem dispatch_exact_mixedPair :
    ∃ rc vec, signature mixedPair = some (rc, vec) ∧
      (ffiCall mixedPair = exactTarget rc vec ↔ ¬ Clash rc vec) :=
  (dispatch_exact_iff_not_clash mixedPair ⟨rfl, by decide, by decide, by decide⟩).2.2

/-- Eighteen arguments, the seventeenth an i64. -/
def lateI64 : Cif := ⟨.void, List.replicate 16 .sint32 ++ [.sint64, .sint32], 18⟩

/-- It reaches the trampoline that loads nineteen i32 arguments. -/
theorem lateI64_misdispatched :
    ScalarCall lateI64 ∧ signature lateI64 = some (0, List.replicate 16 0 ++ [1, 0]) ∧
      ffiCall lateI64 = .trampoline 0 (List.replicate 19 0) ∧
      ffiCall lateI64 ≠ exactTarget 0 (List.replicate 16 0 ++ [1, 0]) := by
  have hscalar : ScalarCall lateI64 := ⟨rfl, by decide, by decide, by decide⟩
  have hsig : signature lateI64 = some (0, List.replicate 16 0 ++ [1, 0]) := by decide
  have hmem : (0, List.replicate 19 0) ∈ signatures :=
    mem_signatures.mpr ⟨by decide, replicate_mem_argvecs (by decide)⟩
  have hkey : key 0 (List.replicate 16 0 ++ [1, 0]) = key 0 (List.replicate 19 0) := by decide
  have hcall : ffiCall lateI64 = .trampoline 0 (List.replicate 19 0) := by
    rw [hscalar.ffiCall_eq hsig, hkey, find_listed hmem]
  refine ⟨hscalar, hsig, hcall, ?_⟩
  rw [hcall, exactTarget]
  split
  · decide
  · decide

end Calls

end NixWasm.Trampolines
