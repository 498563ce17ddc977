import NixWasm.UserCopy

/-!
What walk_copy and __clear_user leave. The pages of a range are reached in order, each as it is or
after one fault-in, up to the first that is refused. The copy is then a list of byte stores at the
addresses of the bytes that were reached, on top of the memory that the fault-ins alone leave: the
stores touch neither the tables nor what a later fault-in stores.
-/
namespace NixWasm.UserCopy

open Bytes ByteStore Effects SoftmmuWalk UserAccess Wasm

section Reached
variable (fixup : Fixup) (pgd : ℕ) (write : Bool)

/-- A page as it is, or after one fault-in, and the memory then. -/
def access (memory : List UInt8) (va : ℕ) : Option ℕ × List UInt8 :=
  match translate memory pgd write va with
  | some p => (some p, memory)
  | none =>
    let memory' := storeAll memory (fixup va write).2
    (if (fixup va write).1 then translate memory' pgd write va else none, memory')

/-- The parts of a range that lie in one page each, as first address and length. -/
def pieces : ℕ → ℕ → ℕ → List (ℕ × ℕ)
  | 0, _, _ => []
  | rounds + 1, uva, n =>
    if n = 0 then []
    else
      let chunk := min n (page - uva % page)
      (uva, chunk) :: pieces rounds (uva + chunk) (n - chunk)

/-- The addresses of the bytes up to the first page that is refused, and the memory after the
fault-ins. -/
def reached : List (ℕ × ℕ) → List UInt8 → List ℕ × List UInt8
  | [], memory => ([], memory)
  | (va, len) :: rest, memory =>
    match access fixup pgd write memory va with
    | (none, memory) => ([], memory)
    | (some p, memory) =>
      (List.range' p len ++ (reached rest memory).1, (reached rest memory).2)

/-- The longest prefix of `n` bytes from `uva` whose pages are accessible, or became so by one
fault-in: each byte at the address its own page gives, and behind the last one a page that is
refused. -/
structure Longest (uva n : ℕ) (r : List ℕ × List UInt8) : Prop where
  fits : r.1.length ≤ n
  translated : ∀ i a, r.1[i]? = some a → translate r.2 pgd write (uva + i) = some a
  ends : r.1.length < n → ∃ before, translate before pgd write (uva + r.1.length) = none ∧
    r.2 = storeAll before (fixup (uva + r.1.length) write).2 ∧
    ((fixup (uva + r.1.length) write).1 = true →
      translate r.2 pgd write (uva + r.1.length) = none)

/-- A fault-in at `va` stores in the memory, but not in the kernel's `size` bytes at `kaddr`; it
leaves a populated table, and the other pages that allow the access, with their bytes. -/
structure FaultsIn (kaddr size : ℕ) (memory : List UInt8) (va : ℕ) : Prop where
  inside : ∀ s ∈ (fixup va write).2, s.1 < memory.length
  populated : Populated (storeAll memory (fixup va write).2) pgd write kaddr size
  kernel : ∀ s ∈ (fixup va write).2, s.1 < kaddr ∨ kaddr + size ≤ s.1
  others : ∀ v < taskSize / page, v ≠ va / page → ∀ f, frameAt memory pgd v write = some f →
    frameAt (storeAll memory (fixup va write).2) pgd v write = some f ∧
      ∀ s ∈ (fixup va write).2, s.1 < f ∨ f + page ≤ s.1

/-- The fault-ins on the way, up to the first page that is refused, behave. -/
def Orderly (kaddr size : ℕ) : List (ℕ × ℕ) → List UInt8 → Prop
  | [], _ => True
  | (va, _) :: rest, memory =>
    (translate memory pgd write va = none → FaultsIn fixup pgd write kaddr size memory va) ∧
      match access fixup pgd write memory va with
      | (none, _) => True
      | (some _, memory) => Orderly kaddr size rest memory

end Reached

theorem translate_eq {memory : List UInt8} {pgd : ℕ} {write : Bool}
    (hpgd : toUint32 (pgd : ℤ) = pgd) (va : ℕ) : translate memory pgd write va =
      if va < taskSize then (frameAt memory pgd (va / page) write).map (· + va % page)
      else none := by
  unfold translate
  split
  · rename_i hva
    have hlt : va % 2 ^ 32 = va := Nat.mod_eq_of_lt (by unfold taskSize at hva; omega)
    rw [physAt_eq, hpgd, hlt]
  · rfl

section Harmless
variable {memory : List UInt8} {pgd kaddr size : ℕ} {write : Bool} {stores : Stores}

/-- Stores in the memory that miss the table's entries. -/
def Harmless (memory : List UInt8) (pgd : ℕ) (stores : Stores) : Prop :=
  ∀ s ∈ stores, s.1 < memory.length ∧
    ∀ va < taskSize, ∀ q, TableByte memory pgd va q → s.1 ≠ q

theorem Harmless.entry (h : Harmless memory pgd stores) {va q : ℕ} (hva : va < taskSize)
    (hq : TableByte memory pgd va q) : (storeAll memory stores)[q]? = memory[q]? :=
  getElem?_storeAll_outside (fun s hs => (h s hs).1) fun s hs => (h s hs).2 va hva q hq

theorem Harmless.length (h : Harmless memory pgd stores) :
    (storeAll memory stores).length = memory.length :=
  storeAll_length fun s hs => (h s hs).1

/-- The frame of an address's page. -/
theorem Harmless.frame (h : Harmless memory pgd stores) {va : ℕ} (hva : va < taskSize) :
    UserAccess.frameAt (storeAll memory stores) pgd (va / page) write =
      UserAccess.frameAt memory pgd (va / page) write :=
  frameAt_congr h.length (fun _ _ hlow hhigh => h.entry hva (Or.inl ⟨hlow, hhigh⟩))
    fun _ pgdE hne hfield _ hlow hhigh => h.entry hva (Or.inr ⟨pgdE, hne, hfield, hlow, hhigh⟩)

theorem Harmless.frameAt (h : Harmless memory pgd stores) {v : ℕ} (hv : v < taskSize / page) :
    UserAccess.frameAt (storeAll memory stores) pgd v write =
      UserAccess.frameAt memory pgd v write := by
  have hva : v * page < taskSize := by
    unfold taskSize page at *
    omega
  have hframe := @Harmless.frame _ _ write _ h _ hva
  rwa [Nat.mul_div_cancel v (by decide)] at hframe

theorem Harmless.translate (h : Harmless memory pgd stores) (hpgd : toUint32 (pgd : ℤ) = pgd)
    (va : ℕ) : UserCopy.translate (storeAll memory stores) pgd write va =
      UserCopy.translate memory pgd write va := by
  rw [translate_eq hpgd, translate_eq hpgd]
  split
  · rw [h.frame ‹_›]
  · rfl

theorem Harmless.tableByte (h : Harmless memory pgd stores) {va q : ℕ} (hva : va < taskSize)
    (hq : TableByte (storeAll memory stores) pgd va q) : TableByte memory pgd va q := by
  rcases hq with hroot | ⟨pgdE, hne, hfield, hlow, hhigh⟩
  · exact Or.inl hroot
  · refine Or.inr ⟨pgdE, hne, ?_, hlow, hhigh⟩
    rw [← hfield, field, field]
    exact congrArg _ (load_congr h.length.symm fun p hp hp' =>
      (h.entry hva (Or.inl ⟨hp, hp'⟩)).symm)

theorem Populated.storeAll (h : Populated memory pgd write kaddr size)
    (hharmless : Harmless memory pgd stores) :
    Populated (storeAll memory stores) pgd write kaddr size := by
  have hlength := hharmless.length
  have hframe : ∀ v < taskSize / page, ∀ f,
      UserAccess.frameAt (ByteStore.storeAll memory stores) pgd v false = some f →
      UserAccess.frameAt memory pgd v false = some f := fun v hv f hf =>
    (hharmless.frameAt hv).symm.trans hf
  refine ⟨hlength ▸ h.small, hlength ▸ h.root, fun i hi e he hne => ?_, hlength ▸ h.buffer,
    fun v hv f hf => hlength ▸ h.inside v hv f (hframe v hv f hf),
    fun v hv f hf va hva q hq => h.entries v hv f (hframe v hv f hf) va hva q
      (hharmless.tableByte hva hq),
    fun v hv f hf => h.apart v hv f (hframe v hv f hf),
    fun hfrom va hva q hq => h.kernel hfrom va hva q (hharmless.tableByte hva hq)⟩
  have hva : i * 2 ^ 22 < taskSize := by
    unfold taskSize at hi ⊢
    omega
  have hoffset : pgdOffset pgd (i * 2 ^ 22 / page) = pgd + i * 4 := by
    rw [pgdOffset, Nat.shiftLeft_eq, Nat.shiftRight_eq_div_pow]
    unfold page
    omega
  have hsame : field (ByteStore.storeAll memory stores) (pgd + i * 4) 4 =
      field memory (pgd + i * 4) 4 := by
    rw [field, field]
    exact congrArg _ (load_congr hlength fun p hp hp' =>
      hharmless.entry hva (Or.inl (by rw [hoffset]; exact ⟨hp, hp'⟩)))
  rw [hsame] at he
  rw [hlength]
  exact h.table i hi e he hne

end Harmless

section Access
variable {fixup : Fixup} {memory memory' : List UInt8} {pgd kaddr size va p : ℕ} {write : Bool}

/-- A translated byte lies in the frame of its page. -/
theorem frame_of_translate (hpgd : toUint32 (pgd : ℤ) = pgd)
    (h : translate memory pgd write va = some p) : va / page < taskSize / page ∧
      ∃ f, frameAt memory pgd (va / page) write = some f ∧ p = f + va % page := by
  rw [translate_eq hpgd] at h
  split at h
  · rename_i hva
    obtain ⟨f, hf, rfl⟩ := Option.map_eq_some_iff.mp h
    refine ⟨?_, f, hf, rfl⟩
    unfold taskSize page at *
    omega
  · cases h

/-- The bytes of a page are side by side. -/
theorem translate_add (hpgd : toUint32 (pgd : ℤ) = pgd) {i : ℕ}
    (h : translate memory pgd write va = some p) (hi : va % page + i < page) :
    translate memory pgd write (va + i) = some (p + i) := by
  obtain ⟨hv, f, hf, rfl⟩ := frame_of_translate hpgd h
  have hpage : (va + i) / page = va / page := by
    unfold page at *
    omega
  have hoff : (va + i) % page = va % page + i := by
    unfold page at *
    omega
  have hva : va + i < taskSize := by
    unfold taskSize page at *
    omega
  rw [translate_eq hpgd, if_pos hva, hpage, hoff, hf, Option.map_some, Nat.add_assoc]

theorem access_some (h : access fixup pgd write memory va = (some p, memory')) :
    translate memory' pgd write va = some p := by
  unfold access at h
  split at h
  · rename_i q hq
    cases h
    exact hq
  · rename_i hnone
    simp only [Prod.mk.injEq, Option.ite_none_right_eq_some] at h
    obtain ⟨⟨-, htranslate⟩, rfl⟩ := h
    exact htranslate

theorem access_none (h : access fixup pgd write memory va = (none, memory')) :
    translate memory pgd write va = none ∧ memory' = storeAll memory (fixup va write).2 ∧
      ((fixup va write).1 = true → translate memory' pgd write va = none) := by
  unfold access at h
  split at h
  · cases h
  · rename_i hnone
    simp only [Prod.mk.injEq] at h
    obtain ⟨htranslate, rfl⟩ := h
    refine ⟨hnone, rfl, fun hok => ?_⟩
    rwa [if_pos hok] at htranslate

/-- Reaching a page keeps what a fault-in keeps. -/
theorem access_cases (hfault : translate memory pgd write va = none →
    FaultsIn fixup pgd write kaddr size memory va) :
    (access fixup pgd write memory va).2 = memory ∨
      FaultsIn fixup pgd write kaddr size memory va ∧
        (access fixup pgd write memory va).2 = storeAll memory (fixup va write).2 := by
  unfold access
  split
  · exact Or.inl rfl
  · exact Or.inr ⟨hfault ‹_›, rfl⟩

theorem access_populated (hpopulated : Populated memory pgd write kaddr size)
    (hfault : translate memory pgd write va = none →
      FaultsIn fixup pgd write kaddr size memory va) :
    Populated (access fixup pgd write memory va).2 pgd write kaddr size := by
  rcases access_cases hfault with hsame | ⟨hfaults, hstored⟩
  · rw [hsame]
    exact hpopulated
  · rw [hstored]
    exact hfaults.populated

theorem access_length (hfault : translate memory pgd write va = none →
    FaultsIn fixup pgd write kaddr size memory va) :
    (access fixup pgd write memory va).2.length = memory.length := by
  rcases access_cases hfault with hsame | ⟨hfaults, hstored⟩
  · rw [hsame]
  · rw [hstored]
    exact storeAll_length hfaults.inside

theorem access_kernel (hfault : translate memory pgd write va = none →
    FaultsIn fixup pgd write kaddr size memory va) {q : ℕ} (hlow : kaddr ≤ q)
    (hhigh : q < kaddr + size) : (access fixup pgd write memory va).2[q]? = memory[q]? := by
  rcases access_cases hfault with hsame | ⟨hfaults, hstored⟩
  · rw [hsame]
  · rw [hstored]
    refine getElem?_storeAll_outside hfaults.inside fun s hs => ?_
    have hout := hfaults.kernel s hs
    omega

/-- Another page that allows the access keeps its frame and its bytes. -/
theorem access_others (hfault : translate memory pgd write va = none →
    FaultsIn fixup pgd write kaddr size memory va) {v f : ℕ} (hv : v < taskSize / page)
    (hne : v ≠ va / page) (hf : frameAt memory pgd v write = some f) :
    frameAt (access fixup pgd write memory va).2 pgd v write = some f ∧
      ∀ q, f ≤ q → q < f + page → (access fixup pgd write memory va).2[q]? = memory[q]? := by
  rcases access_cases hfault with hsame | ⟨hfaults, hstored⟩
  · rw [hsame]
    exact ⟨hf, fun _ _ _ => rfl⟩
  · rw [hstored]
    obtain ⟨hframe, hout⟩ := hfaults.others v hv hne f hf
    refine ⟨hframe, fun q hlow hhigh => getElem?_storeAll_outside hfaults.inside fun s hs => ?_⟩
    have hs' := hout s hs
    omega

end Access

section Prefix
variable {fixup : Fixup} {pgd kaddr size : ℕ} {write : Bool}

theorem pieces_succ {rounds uva n : ℕ} (hn : n ≠ 0) :
    pieces (rounds + 1) uva n = (uva, min n (page - uva % page)) ::
      pieces rounds (uva + min n (page - uva % page)) (n - min n (page - uva % page)) :=
  if_neg hn

theorem pieces_zero (rounds uva : ℕ) : pieces rounds uva 0 = [] := by
  cases rounds <;> rfl

/-- What follows a piece, if anything, starts the next page. -/
theorem next_page {uva n : ℕ} (hmore : n - min n (page - uva % page) ≠ 0) :
    (uva + min n (page - uva % page)) / page = uva / page + 1 := by
  unfold page at *
  omega

/-- The fault-ins for later pages leave an earlier one alone. -/
theorem reached_keeps (rounds uva n : ℕ) (memory : List UInt8)
    (horderly : Orderly fixup pgd write kaddr size (pieces rounds uva n) memory) {v f : ℕ}
    (hv : v < taskSize / page) (hlt : v < uva / page)
    (hf : frameAt memory pgd v write = some f) :
    let r := reached fixup pgd write (pieces rounds uva n) memory
    frameAt r.2 pgd v write = some f ∧ ∀ q, f ≤ q → q < f + page → r.2[q]? = memory[q]? := by
  induction rounds generalizing uva n memory with
  | zero => exact ⟨hf, fun _ _ _ => rfl⟩
  | succ rounds ih =>
    by_cases hn : n = 0
    · rw [hn, pieces_zero]
      exact ⟨hf, fun _ _ _ => rfl⟩
    · rw [pieces_succ hn] at horderly ⊢
      obtain ⟨hfault, hrest⟩ := horderly
      obtain ⟨hframe, hbytes⟩ := access_others hfault hv (Nat.ne_of_lt hlt) hf
      intro r
      change frameAt (reached fixup pgd write (_ :: _) memory).2 pgd v write = some f ∧
        ∀ q, f ≤ q → q < f + page →
          (reached fixup pgd write (_ :: _) memory).2[q]? = memory[q]?
      rw [reached]
      rcases haccess : access fixup pgd write memory uva with ⟨_ | p, memory'⟩
      · rw [haccess] at hframe hbytes
        exact ⟨hframe, hbytes⟩
      · rw [haccess] at hframe hbytes hrest
        dsimp only
        have hlt' : v < (uva + min n (page - uva % page)) / page :=
          hlt.trans_le (Nat.div_le_div_right (Nat.le_add_right ..))
        obtain ⟨hframe', hbytes'⟩ := ih _ _ memory' hrest hlt' hframe
        exact ⟨hframe', fun q hlow hhigh => (hbytes' q hlow hhigh).trans (hbytes q hlow hhigh)⟩

/-- What is reached is the longest prefix. -/
theorem reached_longest (rounds uva n : ℕ) (memory : List UInt8) (hrounds : n ≤ rounds)
    (hpopulated : Populated memory pgd write kaddr size)
    (horderly : Orderly fixup pgd write kaddr size (pieces rounds uva n) memory) :
    Longest fixup pgd write uva n (reached fixup pgd write (pieces rounds uva n) memory) := by
  induction rounds generalizing uva n memory with
  | zero =>
    obtain rfl : n = 0 := Nat.le_zero.mp hrounds
    exact ⟨Nat.le_refl 0, fun i a h => (by cases h), fun h => absurd h (Nat.lt_irrefl 0)⟩
  | succ rounds ih =>
    by_cases hn : n = 0
    · rw [hn, pieces_zero]
      exact ⟨Nat.le_refl 0, fun i a h => (by cases h), fun h => absurd h (Nat.lt_irrefl 0)⟩
    · rw [pieces_succ hn] at horderly ⊢
      obtain ⟨hfault, hrest⟩ := horderly
      have hpgd := toUint32_pgd hpopulated
      set chunk := min n (page - uva % page) with hchunk
      have hpos : 0 < chunk := by
        unfold page at hchunk
        omega
      rw [reached]
      rcases haccess : access fixup pgd write memory uva with ⟨_ | p, memory'⟩
      · obtain ⟨hnone, hstored, hrefused⟩ := access_none haccess
        refine ⟨Nat.zero_le n, fun i a h => (by cases h), fun _ => ⟨memory, hnone, hstored, ?_⟩⟩
        exact hrefused
      · have hpopulated' := access_populated hpopulated hfault
        rw [haccess] at hrest hpopulated'
        obtain ⟨hfits, htranslated, hends⟩ :=
          ih (uva + chunk) (n - chunk) memory' (by omega) hpopulated' hrest
        obtain ⟨hv, f, hf, rfl⟩ := frame_of_translate hpgd (access_some haccess)
        dsimp only
        refine ⟨?_, fun i a hi => ?_, fun hlt => ?_⟩
        · rw [List.length_append, List.length_range']
          omega
        · by_cases hlow : i < chunk
          · rw [List.getElem?_append_left (by rwa [List.length_range']),
              List.getElem?_range' hlow, Option.some.injEq] at hi
            have hkept : translate (reached fixup pgd write
                (pieces rounds (uva + chunk) (n - chunk)) memory').2 pgd write uva =
                some (f + uva % page) := by
              have hva : uva < taskSize := by
                unfold taskSize page at *
                omega
              rw [translate_eq hpgd, if_pos hva]
              by_cases hmore : n - chunk = 0
              · rw [hmore, pieces_zero, reached, hf]
                rfl
              · have hlt' : uva / page < (uva + chunk) / page := by
                  rw [next_page hmore]
                  exact Nat.lt_succ_self _
                rw [(reached_keeps rounds _ _ memory' hrest hv hlt' hf).1]
                rfl
            have hin : uva % page + i < page := by
              have hmod := Nat.mod_lt uva (show 0 < page by decide)
              omega
            rw [translate_add hpgd hkept hin, ← hi]
            simp
          · rw [List.getElem?_append_right (by rw [List.length_range']; omega),
              List.length_range'] at hi
            have hnext := htranslated _ a hi
            rwa [Nat.add_assoc, Nat.add_sub_cancel' (Nat.le_of_not_lt hlow)] at hnext
        · rw [List.length_append, List.length_range'] at hlt ⊢
          obtain ⟨before, hnone, hstored, hrefused⟩ := hends (by omega)
          rw [Nat.add_assoc] at hnone hstored hrefused
          exact ⟨before, hnone, hstored, hrefused⟩

end Prefix

section Moving
variable (fixup : Fixup) (pgd kaddr size : ℕ) (write : Bool)

/-- A way to move pieces as byte stores. `stores` are those of one piece, from the memory as the
fault-ins leave it; `Ok` holds of all stores made for pages before a bound, and `Room` of the
kernel's address and the bytes left. -/
structure Mover (move : ℕ → ℕ → ℕ → Kernel Unit) where
  stores : List UInt8 → ℕ → ℕ → ℕ → Stores
  Ok : List UInt8 → ℕ → Stores → Prop
  Room : ℕ → ℕ → Prop
  room_next : ∀ {k n chunk : ℕ}, Room k n → chunk ≤ n → Room ((k + chunk) % 2 ^ 32) (n - chunk)
  harmless : ∀ {memory : List UInt8} {b : ℕ} {done : Stores},
  Populated memory pgd write kaddr size →
    Ok memory b done → Harmless memory pgd done
  fault : ∀ {memory : List UInt8} {b va : ℕ} {done : Stores},
  Populated memory pgd write kaddr size →
    Ok memory b done → b ≤ va / page → FaultsIn fixup pgd write kaddr size memory va →
    Ok (storeAll memory (fixup va write).2) b done ∧
      ∀ s ∈ (fixup va write).2, ∀ t ∈ done, s.1 ≠ t.1
  moves : ∀ {memory : List UInt8} {b va p k n len : ℕ} {done : Stores},
    Populated memory pgd write kaddr size → Ok memory b done → b ≤ va / page →
    translate memory pgd write va = some p → va % page + len ≤ page → Room k n → n ≠ 0 → len ≤ n →
    move p k len (storeAll memory done) =
        .ok () (storeAll memory (done ++ stores memory p k len)) ∧
      Ok memory (va / page + 1) (done ++ stores memory p k len)

/-- The stores of all pieces that are reached. -/
def copies (stores : List UInt8 → ℕ → ℕ → ℕ → Stores) : List (ℕ × ℕ) → ℕ → List UInt8 → Stores
  | [], _, _ => []
  | (va, len) :: rest, k, memory =>
    match access fixup pgd write memory va with
    | (none, _) => []
    | (some p, memory) =>
      stores memory p k len ++ copies stores rest ((k + len) % 2 ^ 32) memory

variable {fixup pgd kaddr size write} {move : ℕ → ℕ → ℕ → Kernel Unit}
  (M : Mover fixup pgd kaddr size write move)

/-- Reaching a page with copies in the memory, and without them. -/
theorem Mover.reachPage {memory : List UInt8} {b va : ℕ} {done : Stores}
    (hpopulated : Populated memory pgd write kaddr size) (hok : M.Ok memory b done)
    (hb : b ≤ va / page)
    (hfault : translate memory pgd write va = none →
      FaultsIn fixup pgd write kaddr size memory va) :
    UserCopy.reachPage fixup (some pgd) va write (storeAll memory done) =
        .ok (access fixup pgd write memory va).1
          (storeAll (access fixup pgd write memory va).2 done) ∧
      M.Ok (access fixup pgd write memory va).2 b done := by
  have hpgd := toUint32_pgd hpopulated
  have hharmless := M.harmless hpopulated hok
  have hwalk := userPagePhys_eq (hpopulated.storeAll hharmless) va write
  rw [hharmless.translate hpgd] at hwalk
  have hrun : UserCopy.reachPage fixup (some pgd) va write (storeAll memory done) =
      EStateM.bind (userPagePhys (some pgd) va write) (fun found =>
        match found with
        | some phys => pure (some phys)
        | none => userFaultIn fixup (some pgd) va write >>= fun ok =>
          if ok = true then userPagePhys (some pgd) va write else pure none)
        (storeAll memory done) := rfl
  rw [hrun, EStateM.bind, hwalk, access]
  cases htranslate : translate memory pgd write va with
  | some p => exact ⟨rfl, hok⟩
  | none =>
    have hfaults := hfault htranslate
    obtain ⟨hok', hapart⟩ := M.fault hpopulated hok hb hfaults
    have hharmless' := M.harmless hfaults.populated hok'
    have hcomm : storeAll (storeAll memory done) (fixup va write).2 =
        storeAll (storeAll memory (fixup va write).2) done :=
      storeAll_comm (fun s hs => (hharmless s hs).1) hfaults.inside
        fun s hs t ht => (hapart t ht s hs).symm
    refine ⟨?_, hok'⟩
    dsimp only
    have hrun' : (userFaultIn fixup (some pgd) va write >>= fun ok =>
        if ok = true then userPagePhys (some pgd) va write else pure none)
        (storeAll memory done) =
        (if (fixup va write).1 = true then userPagePhys (some pgd) va write else pure none :
          Kernel (Option ℕ)) (storeAll (storeAll memory done) (fixup va write).2) := rfl
    rw [hrun', hcomm]
    have hwalk' := userPagePhys_eq (hfaults.populated.storeAll hharmless') va write
    rw [hharmless'.translate hpgd] at hwalk'
    by_cases hsucceeds : (fixup va write).1 = true
    · rw [if_pos hsucceeds, if_pos hsucceeds, hwalk']
    · rw [if_neg hsucceeds, if_neg hsucceeds]
      rfl

theorem eachPage_zero (rounds k uva : ℕ) (memory : List UInt8) :
    eachPage fixup (some pgd) write move rounds k uva 0 memory = .ok 0 memory := by
  cases rounds <;> rfl

/-- The loop stops at the first page that is refused, and leaves the fault-ins and the stores. -/
theorem Mover.run (rounds k uva n : ℕ) (memory : List UInt8) (b : ℕ) (done : Stores)
    (hrounds : n ≤ rounds) (hrange : uva + n ≤ 2 ^ 32) (hroom : M.Room k n)
    (hpopulated : Populated memory pgd write kaddr size) (hok : M.Ok memory b done)
    (hb : b ≤ uva / page)
    (horderly : Orderly fixup pgd write kaddr size (pieces rounds uva n) memory) :
    let r := reached fixup pgd write (pieces rounds uva n) memory
    eachPage fixup (some pgd) write move rounds k uva n (storeAll memory done) =
      .ok (n - r.1.length)
        (storeAll r.2
          (done ++ copies fixup pgd write M.stores (pieces rounds uva n) k memory)) := by
  induction rounds generalizing k uva n memory b done with
  | zero =>
    obtain rfl : n = 0 := Nat.le_zero.mp hrounds
    simp [pieces, reached, copies, eachPage, pure, EStateM.pure]
  | succ rounds ih =>
    by_cases hn : n = 0
    · subst hn
      simp [pieces, reached, copies, eachPage, pure, EStateM.pure]
    · rw [pieces_succ hn] at horderly ⊢
      obtain ⟨hfault, hrest⟩ := horderly
      set chunk := min n (page - uva % page) with hchunk
      have hchunk' : min n (page - (uva &&& pageMask)) = chunk := by rw [and_pageMask]
      obtain ⟨hreach, hok'⟩ := M.reachPage hpopulated hok hb hfault
      have hpopulated' := access_populated hpopulated hfault
      intro r
      rw [eachPage, if_neg hn]
      simp only [hchunk', run_bind, hreach]
      change _ = EStateM.Result.ok (n - (reached fixup pgd write (_ :: _) memory).1.length)
        (storeAll (reached fixup pgd write (_ :: _) memory).2
          (done ++ copies _ _ _ _ (_ :: _) k memory))
      rw [reached, copies]
      rcases haccess : access fixup pgd write memory uva with ⟨_ | p, memory'⟩
      · rw [List.append_nil]
        rfl
      · rw [haccess] at hok' hpopulated' hrest
        have hin : uva % page + chunk ≤ page := by
          have hmod := Nat.mod_lt uva (show 0 < page by decide)
          omega
        obtain ⟨hmove, hok''⟩ := M.moves hpopulated' hok' hb (access_some haccess) hin hroom hn
          (Nat.min_le_left ..)
        dsimp only
        change EStateM.bind (move p k chunk) _ _ = _
        rw [EStateM.bind, hmove]
        dsimp only
        rw [List.length_append, List.length_range', ← List.append_assoc, Nat.sub_add_eq]
        by_cases hmore : n - chunk = 0
        · rw [hmore, pieces_zero, eachPage_zero]
          simp [reached, copies]
        · have hlt : uva + chunk < 2 ^ 32 := by omega
          rw [Nat.mod_eq_of_lt hlt]
          have hpos : 0 < chunk := by
            unfold page at hchunk
            omega
          exact ih _ _ _ memory' _ _ (by omega) (by omega)
            (M.room_next hroom (Nat.min_le_left ..)) hpopulated' hok'' (next_page hmore).ge hrest

end Moving

section Movers
variable {fixup : Fixup} {pgd kaddr size : ℕ}

/-- The bytes from an address on. -/
def bytesAt (memory : List UInt8) (addr n : ℕ) : List UInt8 := (memory.drop addr).take n

/-- Each store is to a frame that the table gives to a page before `b`. -/
def InFrames (pgd : ℕ) (memory : List UInt8) (b : ℕ) (done : Stores) : Prop :=
  ∀ s ∈ done, ∃ v < b, v < taskSize / page ∧
    ∃ f, frameAt memory pgd v true = some f ∧ f ≤ s.1 ∧ s.1 < f + page

theorem InFrames.harmless {memory : List UInt8} {b : ℕ} {done : Stores}
    (hpopulated : Populated memory pgd true kaddr size) (h : InFrames pgd memory b done) :
    Harmless memory pgd done := by
  intro s hs
  obtain ⟨v, -, hv, f, hf, hlow, hhigh⟩ := h s hs
  have hread := frameAt_read hf
  have hinside := hpopulated.inside v hv f hread
  refine ⟨by omega, fun va hva q hq => ?_⟩
  have hentry := hpopulated.entries v hv f hread va hva q hq
  omega

theorem InFrames.fault {memory : List UInt8} {b va : ℕ} {done : Stores}
    (h : InFrames pgd memory b done) (hb : b ≤ va / page)
    (hfaults : FaultsIn fixup pgd true kaddr size memory va) :
    InFrames pgd (storeAll memory (fixup va true).2) b done ∧
      ∀ s ∈ (fixup va true).2, ∀ t ∈ done, s.1 ≠ t.1 := by
  refine ⟨fun s hs => ?_, fun s hs t ht => ?_⟩
  · obtain ⟨v, hvb, hv, f, hf, hlow, hhigh⟩ := h s hs
    exact ⟨v, hvb, hv, f, (hfaults.others v hv (by omega) f hf).1, hlow, hhigh⟩
  · obtain ⟨v, hvb, hv, f, hf, hlow, hhigh⟩ := h t ht
    have hout := (hfaults.others v hv (by omega) f hf).2 s hs
    omega

/-- The stores of one piece, to the frame of its page. -/
theorem InFrames.piece {memory : List UInt8} {b va p : ℕ} {done : Stores} {bytes : List UInt8}
    (hpopulated : Populated memory pgd true kaddr size) (h : InFrames pgd memory b done)
    (hb : b ≤ va / page) (htranslate : translate memory pgd true va = some p)
    (hin : va % page + bytes.length ≤ page) :
    p + bytes.length ≤ memory.length ∧
      InFrames pgd memory (va / page + 1) (done ++ (List.range' p bytes.length).zip bytes) := by
  obtain ⟨hv, f, hf, rfl⟩ := frame_of_translate (toUint32_pgd hpopulated) htranslate
  have hinside := hpopulated.inside _ hv f (frameAt_read hf)
  refine ⟨by omega, fun s hs => ?_⟩
  rcases List.mem_append.mp hs with hold | hnew
  · obtain ⟨v, hvb, hrest⟩ := h s hold
    exact ⟨v, by omega, hrest⟩
  · have hrange := (List.of_mem_zip hnew).1
    rw [List.mem_range'_1] at hrange
    exact ⟨va / page, Nat.lt_succ_self _, hv, f, hf, by omega, by omega⟩

/-- Storing a range behind other stores. -/
theorem store_storeAll {memory : List UInt8} {done : Stores}
    (hdone : ∀ s ∈ done, s.1 < memory.length) {addr : ℕ} {bytes : List UInt8}
    (hfits : addr + bytes.length ≤ memory.length) :
    store (storeAll memory done) addr bytes =
      some (storeAll memory (done ++ (List.range' addr bytes.length).zip bytes)) := by
  have hlength := storeAll_length hdone
  rw [store, if_pos (by omega), splice_eq_storeAll _ _ _ (by omega), storeAll_append]

theorem load_storeAll {memory : List UInt8} {done : Stores}
    (hdone : ∀ s ∈ done, s.1 < memory.length) {addr n : ℕ} (hfits : addr + n ≤ memory.length)
    (hapart : ∀ s ∈ done, s.1 < addr ∨ addr + n ≤ s.1) :
    load (storeAll memory done) addr n = some (bytesAt memory addr n) := by
  have hsame : load (storeAll memory done) addr n = load memory addr n := by
    refine load_congr (storeAll_length hdone) fun q hlow hhigh => ?_
    refine getElem?_storeAll_outside hdone fun s hs => ?_
    have hout := hapart s hs
    omega
  rw [hsame, load, if_pos hfits, bytesAt]

theorem bytesAt_length {memory : List UInt8} {addr n : ℕ} (h : addr + n ≤ memory.length) :
    (bytesAt memory addr n).length = n := by
  rw [bytesAt, List.length_take, List.length_drop]
  omega

theorem memcpy_eq {dst src n : ℕ} {memory memory' bytes : List UInt8}
    (hload : load memory src n = some bytes) (hstore : store memory dst bytes = some memory') :
    memcpy dst src n memory = .ok () memory' := by
  simp only [memcpy, run_bind, run_get, hload, hstore, run_set]

theorem memset_eq {dst n : ℕ} {c : UInt8} {memory memory' : List UInt8}
    (hstore : store memory dst (List.replicate n c) = some memory') :
    memset dst c n memory = .ok () memory' := by
  simp only [memset, run_bind, run_get, hstore, run_set]

/-- Copies to user memory. -/
def toUser (fixup : Fixup) (pgd kaddr size : ℕ) : Mover fixup pgd kaddr size true memcpy where
  stores memory p k len := (List.range' p len).zip (bytesAt memory k len)
  Ok := InFrames pgd
  Room k n := n = 0 ∨ kaddr ≤ k ∧ k + n = kaddr + size ∧ k + n ≤ 2 ^ 32
  room_next := by
    intro k n chunk hroom hle
    omega
  harmless := InFrames.harmless
  fault := fun _ hok hb hfaults => hok.fault hb hfaults
  moves := by
    intro memory b va p k n len done hpopulated hok hb htranslate hin hroom hn hle
    have hbuffer := hpopulated.buffer
    obtain ⟨hlow, hend, -⟩ := hroom.resolve_left hn
    have hlength : (bytesAt memory k len).length = len := bytesAt_length (by omega)
    have hharmless := hok.harmless hpopulated
    have hload : load (storeAll memory done) k len = some (bytesAt memory k len) := by
      refine load_storeAll (fun s hs => (hharmless s hs).1) (by omega) fun s hs => ?_
      obtain ⟨v, -, hv, f, hf, hlow', hhigh'⟩ := hok s hs
      have hapart := hpopulated.apart v hv f (frameAt_read hf)
      omega
    obtain ⟨hfits, hok'⟩ := hok.piece hpopulated hb htranslate (by rwa [hlength])
    have hstore := store_storeAll (fun s hs => (hharmless s hs).1) hfits
    rw [hlength] at hok' hstore
    exact ⟨memcpy_eq hload hstore, hok'⟩

/-- Zeros to user memory. -/
def zeros (fixup : Fixup) (pgd kaddr size : ℕ) :
    Mover fixup pgd kaddr size true (fun phys _ chunk => memset phys 0 chunk) where
  stores _ p _ len := (List.range' p len).zip (List.replicate len 0)
  Ok := InFrames pgd
  Room _ _ := True
  room_next := fun _ _ => trivial
  harmless := InFrames.harmless
  fault := fun _ hok hb hfaults => hok.fault hb hfaults
  moves := by
    intro memory b va p k n len done hpopulated hok hb htranslate hin _ _ _
    have hlength : (List.replicate len (0 : UInt8)).length = len := List.length_replicate
    have hharmless := hok.harmless hpopulated
    obtain ⟨hfits, hok'⟩ := hok.piece hpopulated hb htranslate (by rwa [hlength])
    have hstore := store_storeAll (fun s hs => (hharmless s hs).1) hfits
    rw [hlength] at hok' hstore
    exact ⟨memset_eq hstore, hok'⟩

/-- Copies from user memory. -/
def fromUser (fixup : Fixup) (pgd kaddr size : ℕ) :
    Mover fixup pgd kaddr size false (fun phys kaddr chunk => memcpy kaddr phys chunk) where
  stores memory p k len := (List.range' k len).zip (bytesAt memory p len)
  Ok _ _ done := ∀ s ∈ done, kaddr ≤ s.1 ∧ s.1 < kaddr + size
  Room k n := n = 0 ∨ kaddr ≤ k ∧ k + n = kaddr + size ∧ k + n ≤ 2 ^ 32
  room_next := by
    intro k n chunk hroom hle
    omega
  harmless := by
    intro memory b done hpopulated hok s hs
    have hbuffer := hpopulated.buffer
    obtain ⟨hlow, hhigh⟩ := hok s hs
    refine ⟨by omega, fun va hva q hq => ?_⟩
    have hkernel := hpopulated.kernel rfl va hva q hq
    omega
  fault := by
    intro memory b va done _ hok _ hfaults
    refine ⟨hok, fun s hs t ht => ?_⟩
    have hin := hok t ht
    have hout := hfaults.kernel s hs
    omega
  moves := by
    intro memory b va p k n len done hpopulated hok hb htranslate hin hroom hn hle
    have hbuffer := hpopulated.buffer
    obtain ⟨hlow, hend, -⟩ := hroom.resolve_left hn
    obtain ⟨hv, f, hf, rfl⟩ := frame_of_translate (toUint32_pgd hpopulated) htranslate
    have hinside := hpopulated.inside _ hv f hf
    have hapart := hpopulated.apart _ hv f hf
    have hlength : (bytesAt memory (f + va % page) len).length = len := bytesAt_length (by omega)
    have hdone : ∀ s ∈ done, s.1 < memory.length := fun s hs => by
      have hs' := hok s hs
      omega
    have hload : load (storeAll memory done) (f + va % page) len =
        some (bytesAt memory (f + va % page) len) := by
      refine load_storeAll hdone (by omega) fun s hs => ?_
      have hs' := hok s hs
      omega
    have hfits : k + (bytesAt memory (f + va % page) len).length ≤ memory.length := by omega
    have hstore := store_storeAll hdone hfits
    rw [hlength] at hstore
    refine ⟨memcpy_eq hload hstore, fun s hs => ?_⟩
    rcases List.mem_append.mp hs with hold | hnew
    · exact hok s hold
    · have hrange := (List.of_mem_zip hnew).1
      rw [List.mem_range'_1] at hrange
      omega

end Movers

section Closed
variable {fixup : Fixup} {pgd kaddr size : ℕ}

theorem bytesAt_split (memory : List UInt8) (addr : ℕ) {n chunk : ℕ} (hle : chunk ≤ n) :
    bytesAt memory addr n =
      bytesAt memory addr chunk ++ bytesAt memory (addr + chunk) (n - chunk) := by
  obtain ⟨m, rfl⟩ := Nat.exists_eq_add_of_le hle
  rw [bytesAt, bytesAt, bytesAt, List.take_add, List.drop_drop, Nat.add_sub_cancel_left]

theorem bytesAt_congr {a b : List UInt8} {addr n : ℕ} (hlength : a.length = b.length)
    (hsame : ∀ q, addr ≤ q → q < addr + n → a[q]? = b[q]?) :
    bytesAt a addr n = bytesAt b addr n := by
  by_cases hfits : addr + n ≤ b.length
  · have hload := load_congr hlength hsame
    rw [load, load, if_pos hfits, if_pos (by omega)] at hload
    exact Option.some.inj hload
  · refine List.ext_getElem? fun i => ?_
    by_cases hi : i < n
    · rw [bytesAt, bytesAt, List.getElem?_take_of_lt hi, List.getElem?_take_of_lt hi,
        List.getElem?_drop, List.getElem?_drop, hsame _ (by omega) (by omega)]
    · rw [bytesAt, bytesAt, List.getElem?_eq_none (by simp; omega),
        List.getElem?_eq_none (by simp; omega)]

/-- The addresses of a piece and of what follows take their bytes in order. -/
theorem zip_range'_append (p chunk : ℕ) (rest : List ℕ) {first more : List UInt8}
    (hfirst : first.length = chunk) :
    (List.range' p chunk ++ rest).zip (first ++ more) =
      (List.range' p chunk).zip first ++ rest.zip more :=
  List.zip_append (by rw [List.length_range', hfirst])

theorem copies_toUser (rounds k uva n : ℕ) (memory : List UInt8)
    (hpopulated : Populated memory pgd true kaddr size)
    (hroom : n = 0 ∨ kaddr ≤ k ∧ k + n = kaddr + size ∧ k + n ≤ 2 ^ 32)
    (horderly : Orderly fixup pgd true kaddr size (pieces rounds uva n) memory) :
    copies fixup pgd true (toUser fixup pgd kaddr size).stores (pieces rounds uva n) k memory =
      (reached fixup pgd true (pieces rounds uva n) memory).1.zip (bytesAt memory k n) := by
  induction rounds generalizing k uva n memory with
  | zero => rfl
  | succ rounds ih =>
    by_cases hn : n = 0
    · rw [hn, pieces_zero]
      rfl
    · rw [pieces_succ hn] at horderly ⊢
      obtain ⟨hfault, hrest⟩ := horderly
      obtain ⟨hlow, hend, hsmall⟩ := hroom.resolve_left hn
      have hbuffer := hpopulated.buffer
      have hlength := access_length hfault
      have hpopulated' := access_populated hpopulated hfault
      have hkernel : bytesAt (access fixup pgd true memory uva).2 k n = bytesAt memory k n :=
        bytesAt_congr hlength fun q hq hq' => access_kernel hfault (by omega) (by omega)
      rw [copies, reached, ← hkernel]
      rcases haccess : access fixup pgd true memory uva with ⟨_ | p, memory'⟩
      · rfl
      · rw [haccess] at hrest hlength hpopulated'
        dsimp only at hlength
        set chunk := min n (page - uva % page)
        have hle : chunk ≤ n := Nat.min_le_left ..
        have hchunk : (bytesAt memory' k chunk).length = chunk := bytesAt_length (by omega)
        dsimp only
        rw [bytesAt_split memory' k hle, zip_range'_append p chunk _ hchunk]
        refine congrArg _ ?_
        by_cases hmore : n - chunk = 0
        · rw [hmore, pieces_zero]
          rfl
        · rw [Nat.mod_eq_of_lt (by omega)]
          exact ih _ _ _ memory' hpopulated' (Or.inr ⟨by omega, by omega, by omega⟩) hrest

theorem copies_zeros (rounds k uva n : ℕ) (memory : List UInt8) :
    copies fixup pgd true (zeros fixup pgd kaddr size).stores (pieces rounds uva n) k memory =
      (reached fixup pgd true (pieces rounds uva n) memory).1.zip (List.replicate n 0) := by
  induction rounds generalizing k uva n memory with
  | zero => rfl
  | succ rounds ih =>
    by_cases hn : n = 0
    · rw [hn, pieces_zero]
      rfl
    · rw [pieces_succ hn, copies, reached]
      rcases access fixup pgd true memory uva with ⟨_ | p, memory'⟩
      · rfl
      · set chunk := min n (page - uva % page)
        have hsplit : List.replicate n (0 : UInt8) =
            List.replicate chunk 0 ++ List.replicate (n - chunk) 0 := by
          rw [← List.replicate_add, Nat.add_sub_cancel' (Nat.min_le_left ..)]
        dsimp only
        rw [hsplit, zip_range'_append p chunk _ List.length_replicate]
        exact congrArg _ (ih _ _ _ memory')

theorem copies_fromUser (rounds k uva n : ℕ) (memory : List UInt8) (hrounds : n ≤ rounds)
    (hpopulated : Populated memory pgd false kaddr size)
    (hroom : n = 0 ∨ kaddr ≤ k ∧ k + n = kaddr + size ∧ k + n ≤ 2 ^ 32)
    (horderly : Orderly fixup pgd false kaddr size (pieces rounds uva n) memory) :
    let r := reached fixup pgd false (pieces rounds uva n) memory
    copies fixup pgd false (fromUser fixup pgd kaddr size).stores (pieces rounds uva n) k memory =
      (List.range' k r.1.length).zip (r.1.map fun a => r.2[a]?.getD 0) := by
  induction rounds generalizing k uva n memory with
  | zero => rfl
  | succ rounds ih =>
    by_cases hn : n = 0
    · rw [hn, pieces_zero]
      rfl
    · rw [pieces_succ hn] at horderly ⊢
      obtain ⟨hfault, hrest⟩ := horderly
      obtain ⟨hlow, hend, hsmall⟩ := hroom.resolve_left hn
      have hbuffer := hpopulated.buffer
      have hpopulated' := access_populated hpopulated hfault
      have hpgd := toUint32_pgd hpopulated
      rw [copies, reached]
      rcases haccess : access fixup pgd false memory uva with ⟨_ | p, memory'⟩
      · rfl
      · rw [haccess] at hrest hpopulated'
        dsimp only at hpopulated'
        set chunk := min n (page - uva % page) with hchunk
        obtain ⟨hv, f, hf, rfl⟩ := frame_of_translate hpgd (access_some haccess)
        have hinside := hpopulated'.inside _ hv f hf
        have hmod := Nat.mod_lt uva (show 0 < page by decide)
        set r := reached fixup pgd false (pieces rounds (uva + chunk) (n - chunk)) memory' with hr
        have hbytes : ∀ q, f ≤ q → q < f + page → r.2[q]? = memory'[q]? := by
          by_cases hmore : n - chunk = 0
          · intro q _ _
            rw [hr, hmore, pieces_zero]
            rfl
          · have hlt : uva / page < (uva + chunk) / page := by
              rw [next_page hmore]
              exact Nat.lt_succ_self _
            exact (reached_keeps rounds _ _ memory' hrest hv hlt hf).2
        have hpiece : bytesAt memory' (f + uva % page) chunk =
            (List.range' (f + uva % page) chunk).map fun a => r.2[a]?.getD 0 := by
          refine List.ext_getElem (by rw [bytesAt_length (by omega)]; simp) fun i hi hi' => ?_
          rw [bytesAt_length (by omega)] at hi
          have hsame := hbytes (f + uva % page + i) (by omega) (by omega)
          have hin : f + uva % page + i < memory'.length := by omega
          rw [List.getElem?_eq_getElem hin] at hsame
          simp [bytesAt, hsame]
        have hrest' : copies fixup pgd false (fromUser fixup pgd kaddr size).stores
            (pieces rounds (uva + chunk) (n - chunk)) ((k + chunk) % 2 ^ 32) memory' =
            (List.range' (k + chunk) r.1.length).zip (r.1.map fun a => r.2[a]?.getD 0) := by
          by_cases hmore : n - chunk = 0
          · rw [hr, hmore, pieces_zero]
            rfl
          · rw [Nat.mod_eq_of_lt (by omega)]
            have hpos : 0 < chunk := by
              unfold page at hchunk
              omega
            exact ih _ _ _ memory' (by omega) hpopulated' (Or.inr ⟨by omega, by omega, by omega⟩)
              hrest
        dsimp only
        rw [hrest', List.length_append, List.length_range', List.map_append, ← hpiece,
          ← List.range'_append_1]
        exact (zip_range'_append k chunk _ (bytesAt_length (by omega))).symm

end Closed

section Results
variable {fixup : Fixup} {memory : List UInt8} {pgd kaddr uva n : ℕ}

/-- The buffer of a copy, as the movers ask for it. -/
theorem Populated.room {toUser : Bool} (h : Populated memory pgd toUser kaddr n) :
    n = 0 ∨ kaddr ≤ kaddr ∧ kaddr + n = kaddr + n ∧ kaddr + n ≤ 2 ^ 32 :=
  Or.inr ⟨Nat.le_refl _, rfl, h.buffer.trans h.small⟩

theorem walkCopy_toUser (hrange : uva + n ≤ 2 ^ 32)
    (hpopulated : Populated memory pgd true kaddr n)
    (horderly : Orderly fixup pgd true kaddr n (pieces n uva n) memory) :
    let r := reached fixup pgd true (pieces n uva n) memory
    walkCopy fixup (some pgd) kaddr uva n true memory =
      .ok (n - r.1.length) (storeAll r.2 (r.1.zip (bytesAt memory kaddr n))) := by
  have hrun := (toUser fixup pgd kaddr n).run n kaddr uva n memory 0 [] (Nat.le_refl n) hrange
    hpopulated.room hpopulated (fun _ hs => nomatch hs) (Nat.zero_le _) horderly
  rw [copies_toUser n kaddr uva n memory hpopulated hpopulated.room horderly] at hrun
  exact hrun

theorem walkCopy_fromUser (hrange : uva + n ≤ 2 ^ 32)
    (hpopulated : Populated memory pgd false kaddr n)
    (horderly : Orderly fixup pgd false kaddr n (pieces n uva n) memory) :
    let r := reached fixup pgd false (pieces n uva n) memory
    walkCopy fixup (some pgd) kaddr uva n false memory =
      .ok (n - r.1.length)
        (storeAll r.2 ((List.range' kaddr r.1.length).zip (r.1.map fun a => r.2[a]?.getD 0))) := by
  have hrun := (fromUser fixup pgd kaddr n).run n kaddr uva n memory 0 [] (Nat.le_refl n) hrange
    hpopulated.room hpopulated (fun _ hs => nomatch hs) (Nat.zero_le _) horderly
  rw [copies_fromUser n kaddr uva n memory (Nat.le_refl n) hpopulated hpopulated.room horderly]
    at hrun
  exact hrun

theorem clearUser_reached (hrange : uva + n ≤ 2 ^ 32) (hpopulated : Populated memory pgd true 0 0)
    (horderly : Orderly fixup pgd true 0 0 (pieces n uva n) memory) :
    let r := reached fixup pgd true (pieces n uva n) memory
    clearUser fixup (some pgd) uva n memory =
      .ok (n - r.1.length) (storeAll r.2 (r.1.zip (List.replicate n 0))) := by
  have hrun := (zeros fixup pgd 0 0).run n 0 uva n memory 0 [] (Nat.le_refl n) hrange
    trivial hpopulated (fun _ hs => nomatch hs) (Nat.zero_le _) horderly
  rw [copies_zeros n 0 uva n memory] at hrun
  exact hrun

/-- Below TASK_SIZE the walk is inside the table's page. -/
theorem Populated.straight {toUser : Bool} (h : Populated memory pgd toUser kaddr n) {va : ℕ}
    (hva : va < taskSize) : Straight pgd va := by
  have hsmall := h.small
  have hroot := h.root
  have hlt : va % 2 ^ 32 = va := Nat.mod_eq_of_lt (by unfold taskSize at hva; omega)
  rw [Straight, toUint32_pgd h, toUint32_natCast, hlt, Nat.shiftLeft_eq, Nat.shiftRight_eq_div_pow]
  unfold taskSize at hva
  unfold page at hroot
  omega

/-- The kernel's walk gives an address where the host's does. -/
theorem userPagePhys_some {toUser : Bool} (h : Populated memory pgd toUser kaddr n) {va q : ℕ}
    {write : Bool} (hva : va < taskSize) : userPagePhys (some pgd) va write memory =
      .ok (some q) memory ↔ translateUser memory pgd va write = .ok q := by
  rw [userPagePhys_eq h, translate, if_pos hva]
  constructor
  · intro heq
    exact translateUser_of_some (EStateM.Result.ok.inj heq).1
  · intro hok
    rw [physAt, hok]
    rfl

/-- A copy in either direction moves the longest prefix of the range that the table allows, byte by
byte, and reports the rest; a clear stores zeros in the same way. Below TASK_SIZE the kernel's walk
accepts what the emitted predicate accepts, with the address that the emitted code computes. -/
theorem user_copies (fixup : Fixup) (pgd kaddr uva n : ℕ) (memory : List UInt8)
    (hrange : uva + n ≤ 2 ^ 32) :
    (∀ toUser : Bool, Populated memory pgd toUser kaddr n →
      Orderly fixup pgd toUser kaddr n (pieces n uva n) memory →
      let r := reached fixup pgd toUser (pieces n uva n) memory
      Longest fixup pgd toUser uva n r ∧
      walkCopy fixup (some pgd) kaddr uva n toUser memory =
        .ok (n - r.1.length) (storeAll r.2
          (if toUser then r.1.zip (bytesAt memory kaddr n)
          else (List.range' kaddr r.1.length).zip (r.1.map fun a => r.2[a]?.getD 0)))) ∧
    (Populated memory pgd true 0 0 → Orderly fixup pgd true 0 0 (pieces n uva n) memory →
      let r := reached fixup pgd true (pieces n uva n) memory
      Longest fixup pgd true uva n r ∧
      clearUser fixup (some pgd) uva n memory =
        .ok (n - r.1.length) (storeAll r.2 (r.1.zip (List.replicate n 0)))) ∧
    ∀ (ω : Type) (env : Env ω) (g : ℕ) (l : Scratch) (fns : Translators) (fault : FaultCall)
      (st ls : List Value) (σ : Store ω) (va : ℕ) (write : Bool), va < taskSize →
      Populated memory pgd true 0 0 → σ.memory = memory → l.Fits ls.length →
      σ.globals g = .i32 (userAddr pgd) → ls[l.ea]? = some (.i32 (userAddr va)) →
      ((∃ q, userPagePhys (some pgd) va write memory = .ok (some q) memory) ↔
        Leaves env (emitCheckedPresentPredicate g l (kindOf write)) (.i32 1) st ls σ) ∧
      ∀ q, userPagePhys (some pgd) va write memory = .ok (some q) memory →
        ∃ a : BitVec 32, a.toNat = q ∧
          Leaves env (emitTranslate g l fns false true (kindOf write)) (.i32 a) st ls σ ∧
          ∀ x y z, Leaves env (checkedTranslateBody g fault) (.i32 a) []
            [.i32 (userAddr va), .i32 (BitVec.ofNat 32 (kindOf write)), x, y, z] σ := by
  refine ⟨fun toUser hpopulated horderly => ?_, fun hpopulated horderly => ?_, ?_⟩
  · refine ⟨reached_longest n uva n memory (Nat.le_refl n) hpopulated horderly, ?_⟩
    cases toUser with
    | true => exact walkCopy_toUser hrange hpopulated horderly
    | false => exact walkCopy_fromUser hrange hpopulated horderly
  · exact ⟨reached_longest n uva n memory (Nat.le_refl n) hpopulated horderly,
      clearUser_reached hrange hpopulated horderly⟩
  · rintro ω env g l fns fault st ls σ va write hva hpopulated rfl hl hglobal hea
    have hroot : toUint32 (pgd : ℤ) ≠ 0 := by
      rw [toUint32_pgd hpopulated]
      exact hpopulated.root.1
    simp only [userPagePhys_some hpopulated hva]
    exact (translateUser_emitted env g l fns fault st ls σ pgd va write hl hglobal hea
      hpopulated.small).2.1 hroot (hpopulated.straight hva)

end Results

section Runs

/-- Five pages: the directory in the second, its one table in the third, and the one user page,
writable, in the fourth. -/
def onePage : List UInt8 :=
  splice (splice (List.replicate 20480 0) 8192 (leBytes 4 12291)) 4096 (leBytes 4 8192)

/-- The leaf of a second user page, in the fifth. -/
def secondLeaf : Stores := (List.range' 8196 4).zip (leBytes 4 16387)

/-- A fault-in that brings in the second page, and no other. -/
def bringSecond : Fixup := fun va _ => if va / page = 1 then (true, secondLeaf) else (false, [])

/-- The entries of the two memories, without the second page and with it. -/
structure Tables (memory : List UInt8) (second : Bool) : Prop where
  length : memory.length = 20480
  entry : ∀ i < 5120, field memory (i * 4) 4 = some (if i = 1024 then 8192 else
    if i = 2048 then 12291 else if i = 2049 ∧ second then 16387 else 0)

theorem zeros_length :
    (splice (List.replicate 20480 0) 8192 (leBytes 4 12291)).length = 20480 := by
  rw [splice_length (by rw [leBytes_length, List.length_replicate]; decide), List.length_replicate]

theorem onePage_length : onePage.length = 20480 := by
  rw [onePage, splice_length (by rw [leBytes_length, zeros_length]; decide), zeros_length]

theorem field_zeros {len off : ℕ} (h : off + 4 ≤ len) :
    field (List.replicate len 0) off 4 = some 0 := by
  rw [field, load, List.length_replicate, if_pos h, List.drop_replicate, List.take_replicate,
    Nat.min_eq_left (by omega)]
  rfl

theorem tables_onePage : Tables onePage false := by
  refine ⟨onePage_length, fun i hi => ?_⟩
  have hinner : 8192 + (leBytes 4 12291).length ≤ (List.replicate 20480 (0 : UInt8)).length := by
    rw [leBytes_length, List.length_replicate]
    decide
  have houter : 4096 + (leBytes 4 8192).length ≤
      (splice (List.replicate 20480 0) 8192 (leBytes 4 12291)).length := by
    rw [leBytes_length, zeros_length]
    decide
  rw [onePage]
  by_cases hroot : i = 1024
  · subst hroot
    rw [field_splice_self _ (by rw [zeros_length]; decide)]
    rfl
  · rw [field_splice_apart houter (by rw [leBytes_length]; omega), if_neg hroot]
    by_cases htable : i = 2048
    · subst htable
      rw [field_splice_self _ (by rw [List.length_replicate]; decide)]
      rfl
    · rw [field_splice_apart hinner (by rw [leBytes_length]; omega), if_neg htable,
        if_neg (fun h => Bool.false_ne_true h.2), field_zeros (by omega)]

theorem tables_second {memory : List UInt8} (h : Tables memory false) :
    Tables (storeAll memory secondLeaf) true := by
  have hlength := h.length
  have hfits : 8196 + (leBytes 4 16387).length ≤ memory.length := by
    rw [leBytes_length]
    omega
  have hstored : storeAll memory secondLeaf = splice memory 8196 (leBytes 4 16387) := by
    rw [splice_eq_storeAll _ _ _ hfits, leBytes_length, secondLeaf]
  rw [hstored]
  refine ⟨(splice_length hfits).trans hlength, fun i hi => ?_⟩
  by_cases hleaf : i = 2049
  · subst hleaf
    rw [field_splice_self _ (by omega)]
    rfl
  · rw [field_splice_apart hfits (by rw [leBytes_length]; omega), h.entry i hi,
      if_neg (fun h : i = 2049 ∧ false = true => hleaf h.1),
      if_neg (fun h : i = 2049 ∧ true = true => hleaf h.1)]

section Table
variable {memory : List UInt8} {second : Bool}

theorem pgdOffset_table {v : ℕ} : pgdOffset 4096 v = (1024 + v / 1024) * 4 := by
  rw [pgdOffset, Nat.shiftLeft_eq, Nat.shiftRight_eq_div_pow]
  omega

theorem pteOffset_table {v : ℕ} : pteOffset 8192 v = (2048 + v % 1024) * 4 := by
  have hframe : frameOf 8192 = 8192 := by decide
  rw [pteOffset, hframe, and_mask10, Nat.shiftLeft_eq]
  omega

theorem Tables.root (h : Tables memory second) {v : ℕ} (hv : v < taskSize / page) :
    field memory (pgdOffset 4096 v) 4 = some (if v < 1024 then 8192 else 0) := by
  have hlt : 1024 + v / 1024 < 5120 := by
    unfold taskSize page at hv
    omega
  rw [pgdOffset_table, h.entry _ hlt]
  by_cases hfirst : v < 1024
  · rw [if_pos hfirst, if_pos (by omega)]
  · unfold taskSize page at hv
    rw [if_neg hfirst, if_neg (by omega), if_neg (by omega), if_neg (by omega)]

theorem Tables.frame (h : Tables memory second) {v : ℕ} (hv : v < taskSize / page) (write : Bool) :
    frameAt memory 4096 v write =
      if v = 0 then some 12288 else if v = 1 ∧ second then some 16384 else none := by
  rw [frameAt, if_neg (by decide), h.root hv, Option.bind_some]
  by_cases hfirst : v < 1024
  · have hleaf : field memory (pteOffset 8192 v) 4 =
        some (if v = 0 then 12291 else if v = 1 ∧ second then 16387 else 0) := by
      rw [pteOffset_table, h.entry _ (by omega), if_neg (by omega), Nat.mod_eq_of_lt hfirst]
      simp only [Nat.add_eq_left, show 2048 + v = 2049 ↔ v = 1 by omega]
    rw [if_pos hfirst, if_neg (by decide), hleaf, Option.bind_some]
    by_cases hv0 : v = 0
    · rw [if_pos hv0, if_pos hv0]
      cases write <;> rfl
    · rw [if_neg hv0, if_neg hv0]
      by_cases hv1 : v = 1 ∧ second
      · rw [if_pos hv1, if_pos hv1]
        cases write <;> rfl
      · rw [if_neg hv1, if_neg hv1]
        exact if_pos (Or.inl rfl)
  · rw [if_neg hfirst, if_pos rfl, if_neg (by omega), if_neg (by omega)]

theorem Tables.tableByte (h : Tables memory second) {va q : ℕ} (hva : va < taskSize)
    (hq : TableByte memory 4096 va q) : 4096 ≤ q ∧ q < 12288 := by
  have hv : va / page < taskSize / page := by
    unfold taskSize page at *
    omega
  rcases hq with ⟨hlow, hhigh⟩ | ⟨pgdE, hne, hfield, hlow, hhigh⟩
  · rw [pgdOffset_table] at hlow hhigh
    unfold taskSize page at hv
    unfold page at hlow hhigh
    omega
  · rw [h.root hv, Option.some.injEq] at hfield
    by_cases hfirst : va / page < 1024
    · rw [if_pos hfirst] at hfield
      subst hfield
      rw [pteOffset_table] at hlow hhigh
      omega
    · rw [if_neg hfirst] at hfield
      exact absurd hfield.symm hne

theorem Tables.populated (h : Tables memory second) (toUser : Bool) {kaddr size : ℕ}
    (hsize : kaddr + size ≤ 4096) : Populated memory 4096 toUser kaddr size := by
  have hlength := h.length
  have hframe : ∀ v < taskSize / page, ∀ f, frameAt memory 4096 v false = some f →
      f = 12288 ∨ f = 16384 := by
    intro v hv f hf
    rw [h.frame hv] at hf
    split at hf
    · exact Or.inl (Option.some.inj hf).symm
    · split at hf
      · exact Or.inr (Option.some.inj hf).symm
      · cases hf
  refine ⟨by omega, ⟨by decide, by decide, by unfold page; omega⟩, fun i hi e he hne => ?_,
    by omega, fun v hv f hf => ?_, fun v hv f hf va hva q hq => ?_, fun v hv f hf => ?_,
    fun _ va hva q hq => ?_⟩
  · have hi' : 1024 + i < 5120 := by
      unfold taskSize at hi
      omega
    have hoff : 4096 + i * 4 = (1024 + i) * 4 := by omega
    rw [hoff, h.entry _ hi', Option.some.injEq] at he
    unfold taskSize at hi
    have hdir : 1024 + i = 1024 := by
      by_contra hother
      rw [if_neg hother, if_neg (by omega), if_neg (by omega)] at he
      exact hne he.symm
    rw [if_pos hdir] at he
    subst he
    exact ⟨by decide, by unfold page; omega⟩
  · have hf' := hframe v hv f hf
    unfold page
    omega
  · have hf' := hframe v hv f hf
    have hq' := h.tableByte hva hq
    unfold page
    omega
  · have hf' := hframe v hv f hf
    omega
  · have hq' := h.tableByte hva hq
    omega

theorem Tables.translate (h : Tables memory second) (write : Bool) :
    translate memory 4096 write 4090 = some 16378 ∧
      translate memory 4096 write 4096 = if second then some 16384 else none := by
  have hpgd : toUint32 ((4096 : ℕ) : ℤ) = 4096 := by decide
  constructor
  · rw [translate_eq hpgd, if_pos (by decide), h.frame (by decide)]
    rfl
  · rw [translate_eq hpgd, if_pos (by decide), h.frame (by decide)]
    cases second <;> rfl

end Table

theorem pieces_ten : pieces 10 4090 10 = [(4090, 6), (4096, 4)] := by decide

/-- A fault-in that fails and stores nothing. -/
theorem orderly_refused {memory : List UInt8} {pgd kaddr size : ℕ} {write : Bool}
    (h : Populated memory pgd write kaddr size) (ps : List (ℕ × ℕ)) :
    Orderly (fun _ _ => (false, [])) pgd write kaddr size ps memory := by
  induction ps with
  | nil => trivial
  | cons piece ps ih =>
    refine ⟨fun _ => ⟨(by simp), h, (by simp), fun _ _ _ f hf => ⟨hf, by simp⟩⟩, ?_⟩
    rcases haccess : access (fun _ _ => (false, [])) pgd write memory piece.1 with ⟨_ | p, memory'⟩
    · trivial
    · have hsame : (access (fun _ _ => (false, [])) pgd write memory piece.1).2 = memory := by
        unfold access
        split <;> rfl
      rw [haccess] at hsame
      obtain rfl : memory' = memory := hsame
      exact ih

theorem secondLeaf_range {s : ℕ × UInt8} (hs : s ∈ secondLeaf) : 8196 ≤ s.1 ∧ s.1 < 8200 := by
  have hrange := (List.of_mem_zip hs).1
  rw [List.mem_range'_1] at hrange
  omega

section Second
variable {memory : List UInt8} (h : Tables memory false) (write : Bool)
include h

/-- Six bytes of a page, then a page that is not there. -/
theorem reached_refused :
    reached (fun _ _ => (false, [])) 4096 write (pieces 10 4090 10) memory =
      (List.range' 16378 6, memory) := by
  obtain ⟨hfirst, hsecond⟩ := h.translate write
  rw [if_neg Bool.false_ne_true] at hsecond
  rw [pieces_ten]
  simp [reached, access, hfirst, hsecond, storeAll]

/-- The second page comes in as the walk gets there. -/
theorem access_second : access bringSecond 4096 write memory 4090 = (some 16378, memory) ∧
    access bringSecond 4096 write memory 4096 =
      (some 16384, storeAll memory secondLeaf) := by
  obtain ⟨hfirst, hnone⟩ := h.translate write
  rw [if_neg Bool.false_ne_true] at hnone
  have hsecond : translate (storeAll memory secondLeaf) 4096 write 4096 = some 16384 :=
    ((tables_second h).translate write).2
  have hbring : bringSecond 4096 write = (true, secondLeaf) := rfl
  constructor
  · simp only [access, hfirst]
  · simp only [access, hnone, hbring, hsecond, if_true]

theorem faultsIn_second {kaddr size : ℕ} (hsize : kaddr + size ≤ 4096) :
    FaultsIn bringSecond 4096 write kaddr size memory 4096 := by
  have hlength := h.length
  have hbring : (bringSecond 4096 write).2 = secondLeaf := rfl
  refine ⟨fun s hs => ?_, (tables_second h).populated write hsize, fun s hs => ?_,
    fun v hv hne f hf => ?_⟩
  · have hs' := secondLeaf_range hs
    omega
  · have hs' := secondLeaf_range hs
    omega
  · rw [h.frame hv] at hf
    have hv1 : v ≠ 1 := hne
    have hv0 : v = 0 := by
      by_contra hother
      rw [if_neg hother, if_neg fun h => hv1 h.1] at hf
      cases hf
    rw [if_pos hv0, Option.some.injEq] at hf
    subst hf
    refine ⟨?_, fun s hs => ?_⟩
    · rw [hbring]
      exact ((tables_second h).frame hv write).trans (if_pos hv0)
    · have hs' := secondLeaf_range hs
      omega

theorem orderly_second {kaddr size : ℕ} (hsize : kaddr + size ≤ 4096) :
    Orderly bringSecond 4096 write kaddr size (pieces 10 4090 10) memory := by
  obtain ⟨hfirst, hsecond⟩ := access_second h write
  rw [pieces_ten]
  refine ⟨fun hnone => ?_, ?_⟩
  · rw [(h.translate write).1] at hnone
    cases hnone
  · rw [hfirst]
    refine ⟨fun _ => faultsIn_second h write hsize, ?_⟩
    rw [hsecond]
    trivial

theorem reached_second : reached bringSecond 4096 write (pieces 10 4090 10) memory =
    (List.range' 16378 6 ++ List.range' 16384 4, storeAll memory secondLeaf) := by
  obtain ⟨hfirst, hsecond⟩ := access_second h write
  rw [pieces_ten]
  simp only [reached, hfirst, hsecond, List.append_nil]

end Second

/-- Four of ten bytes are left where the second page is refused, and none where it comes in,
whichever way they go; a clear leaves as many, and the page's first byte is where the emitted code
has it. -/
theorem user_copies_onePage :
    ((∃ memory,
      walkCopy (fun _ _ => (false, [])) (some 4096) 0 4090 10 true onePage = .ok 4 memory) ∧
    ∃ memory, clearUser (fun _ _ => (false, [])) (some 4096) 4090 10 onePage = .ok 4 memory) ∧
    ((∀ toUser, ∃ memory,
      walkCopy bringSecond (some 4096) 0 4090 10 toUser onePage = .ok 0 memory) ∧
    ∃ memory, clearUser bringSecond (some 4096) 4090 10 onePage = .ok 0 memory) ∧
    ((∃ q, userPagePhys (some 4096) 0 true onePage = .ok (some q) onePage) ↔
      Leaves idleEnv (emitCheckedPresentPredicate 0 ⟨0, 1, 2⟩ 1) (.i32 1) []
        [.i32 (userAddr 0), .i32 0, .i32 0] (rooted onePage 4096)) := by
  obtain ⟨hcopies, hclears, hwalks⟩ :=
    user_copies (fun _ _ => (false, [])) 4096 0 4090 10 onePage (by decide)
  obtain ⟨hcopies', hclears', -⟩ := user_copies bringSecond 4096 0 4090 10 onePage (by decide)
  have hbuffer : ∀ toUser, Populated onePage 4096 toUser 0 10 := fun toUser =>
    tables_onePage.populated toUser (by decide)
  have hnone : Populated onePage 4096 true 0 0 := tables_onePage.populated true (by decide)
  have hcopy := (hcopies true (hbuffer true) (orderly_refused (hbuffer true) _)).2
  have hclear := (hclears hnone (orderly_refused hnone _)).2
  have hcopy' := fun toUser =>
    (hcopies' toUser (hbuffer toUser) (orderly_second tables_onePage toUser (by decide))).2
  have hclear' := (hclears' hnone (orderly_second tables_onePage true (by decide))).2
  simp only [reached_refused tables_onePage] at hcopy hclear
  simp only [reached_second tables_onePage] at hcopy' hclear'
  exact ⟨⟨⟨_, hcopy⟩, ⟨_, hclear⟩⟩, ⟨fun toUser => ⟨_, hcopy' toUser⟩, ⟨_, hclear'⟩⟩,
    (hwalks Unit idleEnv 0 ⟨0, 1, 2⟩ ⟨0, 0⟩ (.bridge 0 0) [] [.i32 (userAddr 0), .i32 0, .i32 0]
      (rooted onePage 4096) 0 true (by decide) hnone rfl
      ⟨by decide, by decide, by decide, by decide, by decide, by decide⟩ rfl rfl).1⟩

end Runs

end NixWasm.UserCopy
