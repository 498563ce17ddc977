import Mathlib.Algebra.Group.Nat.Defs
import Mathlib.Data.Nat.Size
import Mathlib.Data.List.Nodup
import Mathlib.Data.List.Range

/-!
Growing a file in ramfs that is set up for shared mappings. The file's pages are frames of
physical memory, found through the page cache by their index; an absent page is a hole. The
grown file moves into one new block. The sizes that the kernel accepts, the block that it
hands out and the insertions into the page cache that fail are its answers.
-/
namespace NixWasm.RamfsRegrow

def pageSize : ℕ := 4096

/-- `CONFIG_ARCH_FORCE_MAX_ORDER`, in the range that the configuration allows. -/
structure MaxPageOrder where
  order : ℕ
  inRange : 10 ≤ order ∧ order ≤ 17

abbrev Memory := ℕ → UInt8

def memset (mem : Memory) (dst n : ℕ) : Memory :=
  fun a => if dst ≤ a ∧ a < dst + n then 0 else mem a

def memcpy (mem : Memory) (dst src n : ℕ) : Memory :=
  fun a => if dst ≤ a ∧ a < dst + n then mem (src + (a - dst)) else mem a

/-- The inode with its page cache, and what `__free_page` was called for. -/
structure Inode where
  memory : Memory
  cache : ℕ → Option ℕ
  size : ℕ
  isPrivate : Bool
  freed : List ℕ

/-- The kernel's answers: `inode_newsize_ok`, the first frame of `alloc_pages`, and
`add_to_page_cache_lru` at each index. -/
structure Answers where
  newsizeOk : ℤ
  block : Option ℕ
  added : ℕ → ℤ

def efbig : ℤ := -27
def enomem : ℤ := -12

/-- `get_order`: the power of two of pages that holds the size. -/
def getOrder (size : ℕ) : ℕ := ((size - 1) / pageSize).size

/-- `(size + PAGE_SIZE - 1) >> PAGE_SHIFT`, in 32 bits. -/
def pages (size : ℕ) : ℕ := (size + pageSize - 1) % 2 ^ 32 / pageSize

/-- The copying loop, with `n` pages to go from `loop` on. -/
def copyPages (base : ℕ) (cache : ℕ → Option ℕ) : ℕ → ℕ → Memory → Memory
  | 0, _, mem => mem
  | n + 1, loop, mem =>
    copyPages base cache n (loop + 1)
      (match cache loop with
        | some old => memcpy mem ((base + loop) * pageSize) (old * pageSize) pageSize
        | none => mem)

/-- The inserting loop, with `n` pages to go; a failure frees the pages that are left. -/
def insertPages (ans : Answers) (base : ℕ) : ℕ → ℕ → Inode → ℤ × Inode
  | 0, _, inode => (0, { inode with isPrivate := true })
  | n + 1, loop, inode =>
    if ans.added loop < 0 then
      (ans.added loop, { inode with freed := inode.freed ++ List.range' (base + loop) (n + 1) })
    else
      insertPages ans base n (loop + 1)
        { inode with cache := fun i => if i = loop then some (base + loop) else inode.cache i }

/-- The new block is zeroed, the old pages are copied, the pages that the file does not need
are freed, the old pages are dropped, and the size is written. -/
def moveToBlock (inode : Inode) (newsize oldsize base : ℕ) : Inode :=
  let xpages := 2 ^ getOrder newsize
  let npages := pages newsize
  let zeroed := memset inode.memory (base * pageSize) (pageSize * npages)
  { inode with
    memory := copyPages base inode.cache (min (pages oldsize) npages) 0 zeroed
    cache := fun _ => none
    size := newsize
    freed := inode.freed ++ List.range' (base + npages) (xpages - npages) }

/-- `ramfs_nommu_regrow_for_mapping`. -/
def regrowForMapping (max : MaxPageOrder) (ans : Answers) (inode : Inode)
    (newsize oldsize : ℕ) : ℤ × Inode :=
  if max.order < getOrder newsize then (efbig, inode)
  else if ans.newsizeOk ≠ 0 then (ans.newsizeOk, inode)
  else
    match ans.block with
    | none => (enomem, inode)
    | some base =>
      insertPages ans base (pages newsize) 0 (moveToBlock inode newsize oldsize base)

/-- The branch of `ramfs_nommu_resize` for an inode that is marked and grows. -/
def resizeMarked (max : MaxPageOrder) (ans : Answers) (inode : Inode) (newsize : ℕ) : ℤ × Inode :=
  if newsize / 2 ^ 32 ≠ 0 then (efbig, inode)
  else regrowForMapping max ans inode newsize inode.size

/-- What a reader of the file sees at a position. -/
def fileByte (inode : Inode) (pos : ℕ) : UInt8 :=
  match inode.cache (pos / pageSize) with
  | some frame => inode.memory (frame * pageSize + pos % pageSize)
  | none => 0

section Pages

theorem pages_eq {size : ℕ} (h : size + pageSize - 1 < 2 ^ 32) :
    pages size = (size + (pageSize - 1)) / pageSize := by
  rw [pages, Nat.mod_eq_of_lt h]
  rfl

/-- A block of that order holds the whole file. -/
theorem size_le_of_getOrder (size : ℕ) : size ≤ 2 ^ getOrder size * pageSize := by
  have hlt := Nat.lt_size_self ((size - 1) / pageSize)
  change (size - 1) / 4096 < 2 ^ getOrder size at hlt
  change size ≤ 2 ^ getOrder size * 4096
  omega

theorem size_small {max : MaxPageOrder} {size : ℕ} (h : getOrder size ≤ max.order) :
    size ≤ 2 ^ 29 := by
  have hpow : 2 ^ getOrder size ≤ 2 ^ 17 :=
    Nat.pow_le_pow_right (by decide) (Nat.le_trans h max.inRange.2)
  have hsize := size_le_of_getOrder size
  change size ≤ 2 ^ getOrder size * 4096 at hsize
  omega

theorem lt_pages_iff {size i : ℕ} (h : size ≤ 2 ^ 29) : i < pages size ↔ i * pageSize < size := by
  rw [pages_eq (by change size + 4096 - 1 < 2 ^ 32; omega)]
  change i < (size + 4095) / 4096 ↔ i * 4096 < size
  omega

theorem pages_le_order {size : ℕ} (h : size ≤ 2 ^ 29) : pages size ≤ 2 ^ getOrder size := by
  have hsize := size_le_of_getOrder size
  rw [pages_eq (by change size + 4096 - 1 < 2 ^ 32; omega)]
  change size ≤ 2 ^ getOrder size * 4096 at hsize
  change (size + 4095) / 4096 ≤ 2 ^ getOrder size
  omega

theorem pages_mono {a b : ℕ} (h : a ≤ b) (hb : b ≤ 2 ^ 29) : pages a ≤ pages b := by
  rw [pages_eq (by change a + 4096 - 1 < 2 ^ 32; omega),
    pages_eq (by change b + 4096 - 1 < 2 ^ 32; omega)]
  exact Nat.div_le_div_right (by omega)

end Pages

section Copy

/-- The frames that the page cache holds are not in the block. -/
def Fresh (cache : ℕ → Option ℕ) (base n : ℕ) : Prop :=
  ∀ i frame, cache i = some frame → frame < base ∨ base + n ≤ frame

/-- What a page of the block gets from the cache. -/
def pageByte (cache : ℕ → Option ℕ) (mem : Memory) (i off : ℕ) : UInt8 :=
  match cache i with
  | some frame => mem (frame * pageSize + off)
  | none => 0

theorem memcpy_inside {mem : Memory} {dst src n a : ℕ} (hlow : dst ≤ a) (hhigh : a < dst + n) :
    memcpy mem dst src n a = mem (src + (a - dst)) := if_pos ⟨hlow, hhigh⟩

theorem memcpy_outside {mem : Memory} {dst src n a : ℕ} (h : a < dst ∨ dst + n ≤ a) :
    memcpy mem dst src n a = mem a := if_neg (by omega)

/-- The memory while the loop runs: the pages before `loop` are copied, the others of the
block are zero, and nothing else has changed. -/
structure Copying (before : Memory) (cache : ℕ → Option ℕ) (base npages loop : ℕ)
    (mem : Memory) : Prop where
  copied : ∀ i off, i < loop → off < pageSize →
    mem ((base + i) * pageSize + off) = pageByte cache before i off
  zero : ∀ i off, loop ≤ i → i < npages → off < pageSize → mem ((base + i) * pageSize + off) = 0
  outside : ∀ a, a < base * pageSize ∨ (base + npages) * pageSize ≤ a → mem a = before a

theorem copying_zeroed (before : Memory) (cache : ℕ → Option ℕ) (base npages : ℕ) :
    Copying before cache base npages 0 (memset before (base * pageSize) (pageSize * npages)) where
  copied := fun i off hi _ => absurd hi (Nat.not_lt_zero i)
  zero := fun i off _ hi hoff => by
    change off < 4096 at hoff
    refine if_pos ⟨?_, ?_⟩
    · change base * 4096 ≤ (base + i) * 4096 + off
      omega
    · change (base + i) * 4096 + off < base * 4096 + 4096 * npages
      omega
  outside := fun a ha => by
    refine if_neg ?_
    change a < base * 4096 ∨ (base + npages) * 4096 ≤ a at ha
    change ¬ (base * 4096 ≤ a ∧ a < base * 4096 + 4096 * npages)
    omega

/-- One page more is copied. -/
theorem copying_step {before : Memory} {cache : ℕ → Option ℕ} {base npages loop : ℕ}
    {mem : Memory} (h : Copying before cache base npages loop mem) (hloop : loop < npages)
    (hfresh : Fresh cache base npages) :
    Copying before cache base npages (loop + 1)
      (match cache loop with
        | some old => memcpy mem ((base + loop) * pageSize) (old * pageSize) pageSize
        | none => mem) := by
  cases hcached : cache loop with
  | none =>
    dsimp only
    refine ⟨fun i off hi hoff => ?_, fun i off hlow => h.zero i off (by omega), h.outside⟩
    by_cases hlast : i = loop
    · subst hlast
      rw [h.zero i off (Nat.le_refl i) hloop hoff, pageByte, hcached]
    · exact h.copied i off (by omega) hoff
  | some old =>
    have hold := hfresh loop old hcached
    dsimp only
    refine ⟨fun i off hi hoff => ?_, fun i off hlow hhigh hoff => ?_, fun a ha => ?_⟩
    · by_cases hlast : i = loop
      · subst hlast
        rw [memcpy_inside (by omega) (by omega), Nat.add_sub_cancel_left, pageByte, hcached]
        refine h.outside _ ?_
        change off < 4096 at hoff
        change old * 4096 + off < base * 4096 ∨ (base + npages) * 4096 ≤ old * 4096 + off
        omega
      · rw [← h.copied i off (by omega) hoff]
        refine memcpy_outside ?_
        change off < 4096 at hoff
        change (base + i) * 4096 + off < (base + loop) * 4096 ∨
          (base + loop) * 4096 + 4096 ≤ (base + i) * 4096 + off
        omega
    · rw [← h.zero i off (by omega) hhigh hoff]
      refine memcpy_outside ?_
      change off < 4096 at hoff
      change (base + i) * 4096 + off < (base + loop) * 4096 ∨
        (base + loop) * 4096 + 4096 ≤ (base + i) * 4096 + off
      omega
    · have hout : a < (base + loop) * pageSize ∨ (base + loop) * pageSize + pageSize ≤ a := by
        have hpage : 0 < pageSize := by decide
        have hlow : base * pageSize ≤ (base + loop) * pageSize :=
          Nat.mul_le_mul_right pageSize (Nat.le_add_right base loop)
        have hhigh : (base + loop + 1) * pageSize ≤ (base + npages) * pageSize :=
          Nat.mul_le_mul_right pageSize (by omega)
        rw [Nat.succ_mul] at hhigh
        generalize pageSize = p at *
        omega
      exact (memcpy_outside hout).trans (h.outside a ha)

theorem copying_run {before : Memory} {cache : ℕ → Option ℕ} {base npages : ℕ} (n loop : ℕ)
    {mem : Memory} (h : Copying before cache base npages loop mem) (hfits : loop + n ≤ npages)
    (hfresh : Fresh cache base npages) :
    Copying before cache base npages (loop + n) (copyPages base cache n loop mem) := by
  induction n generalizing loop mem with
  | zero => exact h
  | succ n ih =>
    have hstep := copying_step h (by omega) hfresh
    have hrest := ih (loop + 1) hstep (by omega)
    rwa [show loop + 1 + n = loop + (n + 1) by omega] at hrest

end Copy

section Insert

/-- Without a failure each page of the block is inserted at its index. -/
theorem insertPages_ok (ans : Answers) (base n loop : ℕ) (inode : Inode)
    (hadded : ∀ i, loop ≤ i → i < loop + n → ¬ ans.added i < 0) :
    insertPages ans base n loop inode = (0, { inode with
      cache := fun i => if loop ≤ i ∧ i < loop + n then some (base + i) else inode.cache i
      isPrivate := true }) := by
  induction n generalizing loop inode with
  | zero =>
    have hnone : ∀ i, ¬ (loop ≤ i ∧ i < loop + 0) := fun i => by omega
    simp only [insertPages, hnone, if_false]
  | succ n ih =>
    rw [insertPages, if_neg (hadded loop (Nat.le_refl loop) (by omega)),
      ih (loop + 1) _ fun i hlow hhigh => hadded i (by omega) (by omega)]
    congr 3
    funext i
    dsimp only
    by_cases hfirst : i = loop
    · subst hfirst
      rw [if_neg (by omega), if_pos rfl, if_pos (by omega)]
    · by_cases hin : loop + 1 ≤ i ∧ i < loop + 1 + n
      · rw [if_pos hin, if_pos (by omega)]
      · rw [if_neg hin, if_neg hfirst, if_neg (by omega)]

/-- The first insertion that fails ends the loop, with the new size and the pages so far. -/
theorem insertPages_failed (ans : Answers) (base n loop k : ℕ) (inode : Inode) (hk : k < n)
    (hbefore : ∀ i, loop ≤ i → i < loop + k → ¬ ans.added i < 0)
    (hfails : ans.added (loop + k) < 0) :
    insertPages ans base n loop inode = (ans.added (loop + k), { inode with
      cache := fun i => if loop ≤ i ∧ i < loop + k then some (base + i) else inode.cache i
      freed := inode.freed ++ List.range' (base + (loop + k)) (n - k) }) := by
  induction k generalizing n loop inode with
  | zero =>
    obtain ⟨m, rfl⟩ : ∃ m, n = m + 1 := ⟨n - 1, by omega⟩
    have hnone : ∀ i, ¬ (loop ≤ i ∧ i < loop) := fun i => by omega
    rw [Nat.add_zero] at hfails
    simp only [insertPages, hfails, Nat.add_zero, hnone, if_true, if_false, Nat.sub_zero]
  | succ k ih =>
    obtain ⟨m, rfl⟩ : ∃ m, n = m + 1 := ⟨n - 1, by omega⟩
    have hshift : loop + 1 + k = loop + (k + 1) := by omega
    rw [insertPages, if_neg (hbefore loop (Nat.le_refl loop) (by omega)),
      ih m (loop + 1) _ (by omega) (fun i hlow hhigh => hbefore i (by omega) (by omega))
        (by rwa [hshift]), hshift, Nat.add_sub_add_right]
    congr 2
    funext i
    dsimp only
    by_cases hfirst : i = loop
    · subst hfirst
      rw [if_neg (by omega), if_pos rfl, if_pos (by omega)]
    · by_cases hin : loop + 1 ≤ i ∧ i < loop + (k + 1)
      · rw [if_pos hin, if_pos (by omega)]
      · rw [if_neg hin, if_neg hfirst, if_neg (by omega)]

end Insert

end NixWasm.RamfsRegrow
