import NixWasm.Effects
import NixWasm.UserFrames

/-!
The kernel's copies to and from user memory, arch/wasm/mm/uaccess.c of the software MMU patch. The
kernel runs in physical space and walks the process's page table for every page; where the walk
finds no page, the generic memory management is asked once to fault it in. What that does is a
parameter: for an address and a direction, whether it succeeds, and the bytes it stores. An access
outside the memory traps.
-/
namespace NixWasm.UserCopy

open Bytes ByteStore Effects SoftmmuWalk UserAccess Wasm

inductive Trap
  | outOfBounds
deriving DecidableEq

/-- The state is the memory. -/
abbrev Kernel := EStateM Trap (List UInt8)

abbrev Stores := List (ℕ × UInt8)

/-- The outcome of fixup_user_fault, and what it leaves in the memory. -/
abbrev Fixup := ℕ → Bool → Bool × Stores

def taskSize : ℕ := 0xc0000000

def pagePresent : ℕ := 1
def pageWrite : ℕ := 2

def readLong (off : ℕ) : Kernel ℕ := do
  match field (← get) off 4 with
  | some v => return v
  | none => throw .outOfBounds

def memcpy (dst src n : ℕ) : Kernel Unit := do
  match load (← get) src n with
  | none => throw .outOfBounds
  | some bytes =>
    match store (← get) dst bytes with
    | none => throw .outOfBounds
    | some memory => set memory

def memset (dst : ℕ) (c : UInt8) (n : ℕ) : Kernel Unit := do
  match store (← get) dst (List.replicate n c) with
  | none => throw .outOfBounds
  | some memory => set memory

def pgdIndex (va : ℕ) : ℕ := (va >>> 22) &&& 0x3ff

def pteIndex (va : ℕ) : ℕ := (va >>> 12) &&& 0x3ff

/-- The physical address of a user byte. The upper levels are folded into the first, which is empty
or the bare address of a table. -/
def userPagePhys (mm : Option ℕ) (va : ℕ) (write : Bool) : Kernel (Option ℕ) :=
  match mm with
  | none => return none
  | some pgd =>
    if va ≥ taskSize then return none
    else do
      let pmd ← readLong ((pgd + pgdIndex va * 4) % 2 ^ 32)
      if pmd = 0 then return none
      else
        let pte ← readLong ((frameOf pmd + pteIndex va * 4) % 2 ^ 32)
        if pte &&& pagePresent = 0 then return none
        else if write ∧ pte &&& pageWrite = 0 then return none
        else return some ((frameOf pte + (va &&& pageMask)) % 2 ^ 32)

section Loop
variable (fixup : Fixup) (mm : Option ℕ)

def userFaultIn (va : ℕ) (write : Bool) : Kernel Bool := do
  match mm with
  | none => return false
  | some _ =>
    modify fun memory => storeAll memory (fixup va write).2
    return (fixup va write).1

/-- A page, if need be after one fault-in. -/
def reachPage (va : ℕ) (write : Bool) : Kernel (Option ℕ) := do
  match ← userPagePhys mm va write with
  | some phys => return some phys
  | none =>
    if ← userFaultIn fixup mm va write then userPagePhys mm va write
    else return none

/-- The loop of walk_copy and of __clear_user: `move` gets the physical address, the kernel's and
the length of each piece. The result is how many bytes are left. -/
def eachPage (write : Bool) (move : ℕ → ℕ → ℕ → Kernel Unit) : ℕ → ℕ → ℕ → ℕ → Kernel ℕ
  | 0, _, _, n => return n
  | rounds + 1, kaddr, uva, n =>
    if n = 0 then return 0
    else do
      let chunk := min n (page - (uva &&& pageMask))
      match ← reachPage fixup mm uva write with
      | none => return n
      | some phys => do
        move phys kaddr chunk
        eachPage write move rounds ((kaddr + chunk) % 2 ^ 32) ((uva + chunk) % 2 ^ 32) (n - chunk)

/-- Each round moves a byte at least, so `n` of them are enough. -/
def walkCopy (kaddr uva n : ℕ) (toUser : Bool) : Kernel ℕ :=
  eachPage fixup mm toUser
    (fun phys kaddr chunk => if toUser then memcpy phys kaddr chunk else memcpy kaddr phys chunk)
    n kaddr uva n

def clearUser (uva n : ℕ) : Kernel ℕ :=
  eachPage fixup mm true (fun phys _ chunk => memset phys 0 chunk) n 0 uva n

end Loop

section Tables

/-- The bytes of the entries that lead to an address: the second one where there is a first. -/
def TableByte (memory : List UInt8) (pgd va q : ℕ) : Prop :=
  pgdOffset pgd (va / page) ≤ q ∧ q < pgdOffset pgd (va / page) + 4 ∨
    ∃ pgdE, pgdE ≠ 0 ∧ field memory (pgdOffset pgd (va / page)) 4 = some pgdE ∧
      pteOffset pgdE (va / page) ≤ q ∧ q < pteOffset pgdE (va / page) + 4

/-- A page table as the kernel populates it: a page of entries that are empty or the address of a
page of leaves, with the frames of the leaves in the memory and apart from the entries and from the
`size` bytes at `kaddr`; where a copy goes to these, they are apart from the entries too. -/
structure Populated (memory : List UInt8) (pgd : ℕ) (toUser : Bool) (kaddr size : ℕ) : Prop where
  small : memory.length ≤ 2 ^ 32
  root : pgd ≠ 0 ∧ pgd % page = 0 ∧ pgd + page ≤ memory.length
  table : ∀ i < taskSize / 2 ^ 22, ∀ e, field memory (pgd + i * 4) 4 = some e →
    e ≠ 0 → e % page = 0 ∧ e + page ≤ memory.length
  buffer : kaddr + size ≤ memory.length
  inside : ∀ v < taskSize / page, ∀ f, frameAt memory pgd v false = some f →
    f + page ≤ memory.length
  entries : ∀ v < taskSize / page, ∀ f, frameAt memory pgd v false = some f →
    ∀ va < taskSize, ∀ q, TableByte memory pgd va q → q < f ∨ f + page ≤ q
  apart : ∀ v < taskSize / page, ∀ f, frameAt memory pgd v false = some f →
    kaddr + size ≤ f ∨ f + page ≤ kaddr
  kernel : toUser = false →
    ∀ va < taskSize, ∀ q, TableByte memory pgd va q → q < kaddr ∨ kaddr + size ≤ q

/-- Where a user byte is, if the access is allowed. -/
def translate (memory : List UInt8) (pgd : ℕ) (write : Bool) (va : ℕ) : Option ℕ :=
  if va < taskSize then physAt memory pgd write va else none

variable {memory : List UInt8} {pgd kaddr size va : ℕ} {toUser write : Bool}

theorem toUint32_pgd (h : Populated memory pgd toUser kaddr size) : toUint32 (pgd : ℤ) = pgd := by
  have hsmall := h.small
  have hroot := h.root
  rw [toUint32_natCast, Nat.mod_eq_of_lt]
  unfold page at hroot
  omega

theorem field_lt {off v : ℕ} (h : field memory off 4 = some v) : v < 2 ^ 32 := by
  obtain ⟨bytes, hload, rfl⟩ := Option.map_eq_some_iff.mp h
  have hlt := leValue_lt bytes
  rwa [load_length hload] at hlt

theorem readLong_eq {off v : ℕ} (h : field memory off 4 = some v) :
    readLong off memory = .ok v memory := by
  have hrun : readLong off memory = (match field memory off 4 with
    | some v => pure v
    | none => throw .outOfBounds : Kernel ℕ) memory := rfl
  rw [hrun, h]
  rfl

theorem and_mask10 (x : ℕ) : x &&& 0x3ff = x % 1024 := Nat.and_two_pow_sub_one_eq_mod x 10

/-- The two entry addresses, where the host's walk has them. -/
theorem pgdIndex_eq (hva : va < 2 ^ 32) : pgdIndex va * 4 = ((va / page) >>> 10) <<< 2 := by
  rw [pgdIndex, and_mask10, Nat.shiftLeft_eq, Nat.shiftRight_eq_div_pow, Nat.shiftRight_eq_div_pow]
  unfold page
  omega

theorem pteIndex_eq (va : ℕ) : pteIndex va * 4 = ((va / page) &&& 0x3ff) <<< 2 := by
  rw [pteIndex, and_mask10, and_mask10, Nat.shiftLeft_eq, Nat.shiftRight_eq_div_pow]
  rfl

theorem frameOf_eq {x : ℕ} (hx : x < 2 ^ 32) : frameOf x = x / page * page := by
  have hmask : (0xfffff000 : ℕ) = (2 ^ 20 - 1) <<< 12 := by decide
  rw [frameOf, hmask]
  exact WordFlags.and_shiftedMask hx

/-- The kernel's walk never leaves the memory, and finds what the host's walk finds. -/
theorem userPagePhys_eq (h : Populated memory pgd toUser kaddr size) (va : ℕ) (write : Bool) :
    userPagePhys (some pgd) va write memory = .ok (translate memory pgd write va) memory := by
  have hsmall := h.small
  obtain ⟨hzero, haligned, hroot⟩ := h.root
  rw [translate]
  by_cases hva : va < taskSize
  · have hlt : va < 2 ^ 32 := by
      unfold taskSize at hva
      omega
    have hpgdIndex := pgdIndex_eq hlt
    have hindex : pgdIndex va * 4 + 4 ≤ page := by
      rw [pgdIndex, and_mask10]
      unfold page
      omega
    have hbound : va >>> 22 < taskSize / 2 ^ 22 := by
      rw [Nat.shiftRight_eq_div_pow]
      unfold taskSize at hva ⊢
      omega
    have hsame : pgdIndex va = va >>> 22 := by
      rw [pgdIndex, and_mask10, Nat.mod_eq_of_lt]
      unfold taskSize at hbound
      omega
    obtain ⟨pmd, hpmd⟩ : ∃ pmd, field memory (pgd + pgdIndex va * 4) 4 = some pmd :=
      field_isSome (by omega)
    rw [if_pos hva, physAt_eq, toUint32_pgd h, Nat.mod_eq_of_lt hlt, frameAt, if_neg hzero,
      pgdOffset, ← hpgdIndex, hpmd, Option.bind_some]
    have hwalk : userPagePhys (some pgd) va write memory =
        EStateM.bind (readLong ((pgd + pgdIndex va * 4) % 2 ^ 32)) (fun pmd =>
          if pmd = 0 then pure none else
            readLong ((frameOf pmd + pteIndex va * 4) % 2 ^ 32) >>= fun pte =>
              if pte &&& pagePresent = 0 then pure none
              else if write ∧ pte &&& pageWrite = 0 then pure none
              else pure (some ((frameOf pte + (va &&& pageMask)) % 2 ^ 32))) memory := by
      exact congrFun (if_neg (Nat.not_le_of_lt hva)) memory
    rw [hwalk, EStateM.bind, Nat.mod_eq_of_lt (by omega), readLong_eq hpmd]
    dsimp only
    by_cases hnone : pmd = 0
    · rw [if_pos hnone, if_pos hnone]
      rfl
    · obtain ⟨hdvd, htable⟩ := h.table _ hbound pmd (hsame ▸ hpmd) hnone
      have hframe : frameOf pmd = pmd := by
        rw [frameOf_eq (field_lt hpmd)]
        unfold page at hdvd ⊢
        omega
      have hindex' : pteIndex va * 4 + 4 ≤ page := by
        rw [pteIndex, and_mask10]
        unfold page
        omega
      obtain ⟨pte, hpte⟩ : ∃ pte, field memory (frameOf pmd + pteIndex va * 4) 4 = some pte :=
        field_isSome (by omega)
      rw [if_neg hnone, if_neg hnone, pteOffset, ← pteIndex_eq, hpte, Option.bind_some]
      change EStateM.bind (readLong _) _ memory = _
      rw [EStateM.bind, Nat.mod_eq_of_lt (by omega), readLong_eq hpte]
      dsimp only
      have hle := frameOf_le pte
      have hmask := and_pageMask va
      have hsum : (frameOf pte + va % page) % 2 ^ 32 = frameOf pte + va % page := by
        rw [Nat.mod_eq_of_lt]
        unfold page
        omega
      rw [hmask, hsum]
      by_cases hpresent : pte &&& 1 = 0
      · rw [if_pos (Or.inl hpresent)]
        exact congrFun (if_pos hpresent) memory
      · by_cases hwrite : write = true ∧ pte &&& 2 = 0
        · rw [if_pos (Or.inr hwrite)]
          exact congrFun ((if_neg hpresent).trans (if_pos hwrite)) memory
        · rw [if_neg (not_or.mpr ⟨hpresent, hwrite⟩)]
          exact congrFun ((if_neg hpresent).trans (if_neg hwrite)) memory
  · rw [if_neg hva]
    have hout : va ≥ taskSize := Nat.le_of_not_lt hva
    exact congrFun (if_pos hout) memory

end Tables

end NixWasm.UserCopy
