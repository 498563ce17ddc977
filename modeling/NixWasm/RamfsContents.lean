import NixWasm.RamfsRegrow
import Mathlib.Data.Nat.Find
import Mathlib.Tactic.Tauto

/-!
What a grown file holds. The move into the new block is exact where the kernel's answers let
it run to its end; once it has begun, an insertion that fails leaves a file of the new size
without the old contents.
-/
namespace NixWasm.RamfsRegrow

/-- All the checks are passed, and `alloc_pages` returns the block at `base`. -/
def Obtains (max : MaxPageOrder) (ans : Answers) (newsize base : ℕ) : Prop :=
  newsize / 2 ^ 32 = 0 ∧ getOrder newsize ≤ max.order ∧ ans.newsizeOk = 0 ∧ ans.block = some base

theorem resizeMarked_obtained {max : MaxPageOrder} {ans : Answers} {newsize base : ℕ}
    (inode : Inode) (h : Obtains max ans newsize base) :
    resizeMarked max ans inode newsize =
      insertPages ans base (pages newsize) 0 (moveToBlock inode newsize inode.size base) := by
  obtain ⟨hsmall, horder, hok, hblock⟩ := h
  rw [resizeMarked, if_neg (fun hne => hne hsmall), regrowForMapping,
    if_neg (Nat.not_lt.mpr horder), if_neg (fun hne => hne hok), hblock]

theorem efbig_ne_zero : efbig ≠ 0 := by decide

theorem enomem_ne_zero : enomem ≠ 0 := by decide

/-- Before a block is obtained nothing has changed. -/
theorem resizeMarked_refused {max : MaxPageOrder} {ans : Answers} {newsize : ℕ} (inode : Inode)
    (h : ∀ base, ¬ Obtains max ans newsize base) :
    (resizeMarked max ans inode newsize).1 ≠ 0 ∧
      (resizeMarked max ans inode newsize).2 = inode := by
  unfold resizeMarked
  by_cases hsmall : newsize / 2 ^ 32 = 0
  · rw [if_neg (fun hne => hne hsmall)]
    unfold regrowForMapping
    by_cases horder : max.order < getOrder newsize
    · rw [if_pos horder]
      exact ⟨efbig_ne_zero, rfl⟩
    · rw [if_neg horder]
      by_cases hok : ans.newsizeOk = 0
      · rw [if_neg (fun hne => hne hok)]
        cases hblock : ans.block with
        | none => exact ⟨enomem_ne_zero, rfl⟩
        | some base => exact absurd ⟨hsmall, Nat.not_lt.mp horder, hok, hblock⟩ (h base)
      · rw [if_pos hok]
        exact ⟨hok, rfl⟩
  · rw [if_pos hsmall]
    exact ⟨efbig_ne_zero, rfl⟩

/-- The two ways in which the insertions end. -/
theorem insertions_end (ans : Answers) (base n : ℕ) (inode : Inode) :
    ((∀ i, i < n → ¬ ans.added i < 0) ∧ insertPages ans base n 0 inode = (0, { inode with
      cache := fun i => if 0 ≤ i ∧ i < 0 + n then some (base + i) else inode.cache i
      isPrivate := true })) ∨
    ∃ k, k < n ∧ ans.added k < 0 ∧ insertPages ans base n 0 inode = (ans.added k, { inode with
      cache := fun i => if 0 ≤ i ∧ i < 0 + k then some (base + i) else inode.cache i
      freed := inode.freed ++ List.range' (base + k) (n - k) }) := by
  by_cases hall : ∀ i, i < n → ¬ ans.added i < 0
  · exact Or.inl ⟨hall, insertPages_ok ans base n 0 inode fun i _ hi => hall i (by omega)⟩
  · have hsome : ∃ k, k < n ∧ ans.added k < 0 := by
      obtain ⟨k, hk⟩ := not_forall.mp hall
      exact ⟨k, by tauto⟩
    have hfirst := Nat.find_spec hsome
    have hbefore : ∀ i, i < Nat.find hsome → ¬ ans.added i < 0 := fun i hi hneg =>
      Nat.find_min hsome hi ⟨Nat.lt_trans hi hfirst.1, hneg⟩
    generalize Nat.find hsome = k at hfirst hbefore
    have hfailed := insertPages_failed ans base n 0 k inode hfirst.1
      (fun i _ hi => hbefore i (by omega)) (by rw [Nat.zero_add]; exact hfirst.2)
    rw [Nat.zero_add] at hfailed
    exact Or.inr ⟨k, hfirst.1, hfirst.2, by rw [hfailed, Nat.zero_add]⟩

section Contents

/-- A byte of the block: the old pages as a whole, and zeros behind them. -/
theorem fileByte_moved {max : MaxPageOrder} {ans : Answers} {inode later : Inode}
    {newsize base pos : ℕ} (hobtains : Obtains max ans newsize base)
    (hgrow : inode.size < newsize) (hfresh : Fresh inode.cache base (2 ^ getOrder newsize))
    (hmemory : later.memory = (moveToBlock inode newsize inode.size base).memory)
    (hcache : later.cache (pos / pageSize) = some (base + pos / pageSize))
    (hpos : pos / pageSize < pages newsize) :
    fileByte later pos = if pos / pageSize < pages inode.size then fileByte inode pos else 0 := by
  have hsmall := size_small hobtains.2.1
  have hmono := pages_mono (Nat.le_of_lt hgrow) hsmall
  have horder := pages_le_order hsmall
  have hfresh' : Fresh inode.cache base (pages newsize) := fun i frame hi => by
    have := hfresh i frame hi
    omega
  have hrun := copying_run (min (pages inode.size) (pages newsize)) 0
    (copying_zeroed inode.memory inode.cache base (pages newsize)) (by omega) hfresh'
  rw [Nat.zero_add, Nat.min_eq_left hmono] at hrun
  have hoff : pos % pageSize < pageSize := Nat.mod_lt _ (by decide)
  rw [fileByte, hcache, hmemory]
  dsimp only [moveToBlock]
  rw [Nat.min_eq_left hmono]
  by_cases hold : pos / pageSize < pages inode.size
  · rw [if_pos hold, hrun.copied _ _ hold hoff]
    rfl
  · rw [if_neg hold, hrun.zero _ _ (Nat.not_lt.mp hold) hpos hoff]

/-- The file's size and its bytes. -/
def SameFile (inode later : Inode) : Prop :=
  later.size = inode.size ∧ ∀ pos, pos < inode.size → fileByte later pos = fileByte inode pos

/-- The block was allocated, and this frame belongs to it. -/
def Allocated (max : MaxPageOrder) (ans : Answers) (newsize frame : ℕ) : Prop :=
  ∃ base, Obtains max ans newsize base ∧ base ≤ frame ∧ frame < base + 2 ^ getOrder newsize

/-- `__free_page` is called once for each allocated page that the page cache did not get. -/
def FreesTheRest (max : MaxPageOrder) (ans : Answers) (inode : Inode) (newsize : ℕ)
    (later : Inode) : Prop :=
  ∃ out, later.freed = inode.freed ++ out ∧ out.Nodup ∧
    ∀ frame, frame ∈ out ↔ Allocated max ans newsize frame ∧ ∀ i, later.cache i ≠ some frame

/-- What a regrow is to do: on success a longer file in consecutive pages, with zeros behind
the old contents, and otherwise the old file and nothing left over. -/
def Regrows (max : MaxPageOrder) (ans : Answers) (inode : Inode) (newsize : ℕ) (ret : ℤ)
    (later : Inode) : Prop :=
  (ret = 0 → later.size = newsize ∧
    (∀ pos, pos < inode.size → fileByte later pos = fileByte inode pos) ∧
    (∀ pos, inode.size ≤ pos → pos < newsize → fileByte later pos = 0) ∧
    ∃ base, ∀ i, i < pages newsize → later.cache i = some (base + i)) ∧
  (ret ≠ 0 → SameFile inode later ∧ FreesTheRest max ans inode newsize later)

end Contents

section Frees

theorem allocated_iff {max : MaxPageOrder} {ans : Answers} {newsize base : ℕ}
    (h : Obtains max ans newsize base) (frame : ℕ) : Allocated max ans newsize frame ↔
      base ≤ frame ∧ frame < base + 2 ^ getOrder newsize := by
  constructor
  · rintro ⟨other, hother, hframe⟩
    obtain rfl : other = base := Option.some.inj (hother.2.2.2.symm.trans h.2.2.2)
    exact hframe
  · exact fun hframe => ⟨base, h, hframe⟩

/-- The pages behind the file and those behind the inserted ones make up the rest. -/
theorem frees_rest {max : MaxPageOrder} {ans : Answers} {newsize base k : ℕ} {inode later : Inode}
    (h : Obtains max ans newsize base) (hk : k ≤ pages newsize)
    (hcache : ∀ i, later.cache i = if 0 ≤ i ∧ i < 0 + k then some (base + i) else none)
    (hfreed : later.freed = (moveToBlock inode newsize inode.size base).freed ++
      List.range' (base + k) (pages newsize - k)) :
    FreesTheRest max ans inode newsize later := by
  have horder := pages_le_order (size_small h.2.1)
  refine ⟨List.range' (base + pages newsize) (2 ^ getOrder newsize - pages newsize) ++
    List.range' (base + k) (pages newsize - k), ?_, ?_, fun frame => ?_⟩
  · rw [hfreed, moveToBlock, List.append_assoc]
  · refine List.nodup_append.mpr ⟨List.nodup_range', List.nodup_range', ?_⟩
    intro a ha b hb
    rw [List.mem_range'_1] at ha hb
    omega
  · rw [List.mem_append, List.mem_range'_1, List.mem_range'_1, allocated_iff h]
    constructor
    · intro hframe
      refine ⟨by omega, fun i hi => ?_⟩
      rw [hcache i] at hi
      by_cases hin : 0 ≤ i ∧ i < 0 + k
      · rw [if_pos hin] at hi
        have heq := Option.some.inj hi
        omega
      · rw [if_neg hin] at hi
        cases hi
    · rintro ⟨hframe, hnot⟩
      have hnot' := hnot (frame - base)
      rw [hcache] at hnot'
      by_cases hin : 0 ≤ frame - base ∧ frame - base < 0 + k
      · rw [if_pos hin, Nat.add_sub_cancel' hframe.1] at hnot'
        exact absurd rfl hnot'
      · omega

/-- Whatever the kernel answers, the freed pages are exactly those that were not handed over. -/
theorem resizeMarked_frees (max : MaxPageOrder) (ans : Answers) (inode : Inode) (newsize : ℕ) :
    FreesTheRest max ans inode newsize (resizeMarked max ans inode newsize).2 := by
  by_cases hobtains : ∃ base, Obtains max ans newsize base
  · obtain ⟨base, hobtains⟩ := hobtains
    rw [resizeMarked_obtained inode hobtains]
    rcases insertions_end ans base (pages newsize) (moveToBlock inode newsize inode.size base) with
      ⟨-, hend⟩ | ⟨k, hk, -, hend⟩
    · rw [hend]
      exact frees_rest hobtains (Nat.le_refl _) (fun i => rfl) (by simp)
    · rw [hend]
      exact frees_rest hobtains (Nat.le_of_lt hk) (fun i => rfl) rfl
  · have hrefused := not_exists.mp hobtains
    rw [(resizeMarked_refused inode hrefused).2]
    exact ⟨[], (List.append_nil _).symm, List.nodup_nil, fun frame =>
      ⟨fun hmem => absurd hmem List.not_mem_nil,
        fun h => absurd h.1 fun ⟨base, hbase, _⟩ => hrefused base hbase⟩⟩

end Frees

/-- A regrow does what it is to do exactly if, once the block is obtained, every insertion
succeeds and the page in which the old size ends is zero behind it. -/
theorem regrows_iff (max : MaxPageOrder) (ans : Answers) (inode : Inode) (newsize : ℕ)
    (hgrow : inode.size < newsize)
    (hfresh : ∀ base, Obtains max ans newsize base →
      Fresh inode.cache base (2 ^ getOrder newsize)) :
    Regrows max ans inode newsize (resizeMarked max ans inode newsize).1
        (resizeMarked max ans inode newsize).2 ↔
      ∀ base, Obtains max ans newsize base →
        (∀ i, i < pages newsize → ¬ ans.added i < 0) ∧
        ∀ pos, inode.size ≤ pos → pos < newsize → pos / pageSize < pages inode.size →
          fileByte inode pos = 0 := by
  have hfrees := resizeMarked_frees max ans inode newsize
  by_cases hobtains : ∃ base, Obtains max ans newsize base
  · obtain ⟨base, hobtains⟩ := hobtains
    have hsmall := size_small hobtains.2.1
    have hindex : ∀ pos size, size ≤ 2 ^ 29 → pos < size → pos / pageSize < pages size := by
      intro pos size hsize hpos
      rw [lt_pages_iff hsize]
      exact Nat.lt_of_le_of_lt (Nat.div_mul_le_self pos pageSize) hpos
    rw [resizeMarked_obtained inode hobtains] at hfrees ⊢
    rcases insertions_end ans base (pages newsize) (moveToBlock inode newsize inode.size base) with
      ⟨hall, hend⟩ | ⟨k, hk, hneg, hend⟩
    · rw [hend] at hfrees ⊢
      have hbyte : ∀ pos, pos < newsize → fileByte { moveToBlock inode newsize inode.size base with
          cache := fun i => if 0 ≤ i ∧ i < 0 + pages newsize then some (base + i)
            else (moveToBlock inode newsize inode.size base).cache i
          isPrivate := true } pos =
            if pos / pageSize < pages inode.size then fileByte inode pos else 0 := by
        intro pos hpos
        have hin := hindex pos newsize hsmall hpos
        exact fileByte_moved hobtains hgrow (hfresh base hobtains) rfl
          (if_pos ⟨Nat.zero_le _, by omega⟩) hin
      constructor
      · rintro ⟨hsuccess, -⟩ other -
        obtain ⟨-, -, hzero, -⟩ := hsuccess rfl
        refine ⟨hall, fun pos hlow hhigh hold => ?_⟩
        have heq := hzero pos hlow hhigh
        rwa [hbyte pos hhigh, if_pos hold] at heq
      · intro hholds
        obtain ⟨-, htail⟩ := hholds base hobtains
        refine ⟨fun _ => ⟨rfl, fun pos hpos => ?_, fun pos hlow hhigh => ?_, base, fun i hi => ?_⟩,
          fun hne => absurd rfl hne⟩
        · rw [hbyte pos (Nat.lt_trans hpos hgrow),
            if_pos (hindex pos inode.size (by omega) hpos)]
        · rw [hbyte pos hhigh]
          by_cases hold : pos / pageSize < pages inode.size
          · rw [if_pos hold, htail pos hlow hhigh hold]
          · rw [if_neg hold]
        · exact if_pos ⟨Nat.zero_le i, by omega⟩
    · rw [hend]
      constructor
      · rintro ⟨-, hfailure⟩
        have hsize := (hfailure (by dsimp only; omega)).1.1
        change newsize = inode.size at hsize
        omega
      · intro hholds
        exact absurd hneg ((hholds base hobtains).1 k hk)
  · have hrefused := not_exists.mp hobtains
    obtain ⟨hret, hlater⟩ := resizeMarked_refused inode hrefused
    rw [hlater] at hfrees ⊢
    constructor
    · intro _ base hbase
      exact absurd hbase (hrefused base)
    · intro _
      exact ⟨fun hzero => absurd hzero hret, fun _ => ⟨⟨rfl, fun _ _ => rfl⟩, hfrees⟩⟩

/-- A cursor pool of one page, which ends within it. -/
def cursorPool : Inode where
  memory := fun a => if a < 100 then 7 else 0
  cache := fun i => if i = 0 then some 0 else none
  size := 100
  isPrivate := true
  freed := []

/-- A block from frame 16 on, and insertions that end as told. -/
def answersWith (added : ℕ → ℤ) : Answers where
  newsizeOk := 0
  block := some 16
  added := added

def configured : MaxPageOrder := ⟨16, by decide⟩

theorem cursorPool_fresh (added : ℕ → ℤ) (base : ℕ)
    (h : Obtains configured (answersWith added) 8192 base) :
    Fresh cursorPool.cache base (2 ^ getOrder 8192) := by
  intro i frame hi
  obtain rfl : 16 = base := Option.some.inj h.2.2.2
  change (if i = 0 then some 0 else none) = some frame at hi
  split at hi
  · obtain rfl : 0 = frame := Option.some.inj hi
    omega
  · cases hi

theorem regrows_cursorPool :
    Regrows configured (answersWith fun _ => 0) cursorPool 8192
      (resizeMarked configured (answersWith fun _ => 0) cursorPool 8192).1
      (resizeMarked configured (answersWith fun _ => 0) cursorPool 8192).2 := by
  refine (regrows_iff configured (answersWith fun _ => 0) cursorPool 8192 (by decide)
    (cursorPool_fresh _)).mpr fun base _ => ⟨fun _ _ => Int.lt_irrefl 0, fun pos hlow _ _ => ?_⟩
  change 100 ≤ pos at hlow
  unfold fileByte
  cases hcached : cursorPool.cache (pos / pageSize) with
  | none => rfl
  | some frame =>
    change (if pos / 4096 = 0 then some 0 else none) = some frame at hcached
    split at hcached
    · obtain rfl : 0 = frame := Option.some.inj hcached
      refine if_neg ?_
      change ¬ 0 * 4096 + pos % 4096 < 100
      omega
    · cases hcached

/-- The second page does not get into the page cache: the file has the new size all the same. -/
theorem not_regrows_cursorPool :
    cursorPool.isPrivate = true ∧ cursorPool.size < 8192 ∧
      (∀ base, Obtains configured (answersWith fun i => if i = 1 then enomem else 0) 8192 base →
        Fresh cursorPool.cache base (2 ^ getOrder 8192)) ∧
      ¬ Regrows configured (answersWith fun i => if i = 1 then enomem else 0) cursorPool 8192
        (resizeMarked configured (answersWith fun i => if i = 1 then enomem else 0) cursorPool
          8192).1
        (resizeMarked configured (answersWith fun i => if i = 1 then enomem else 0) cursorPool
          8192).2 := by
  refine ⟨rfl, by decide, cursorPool_fresh _, fun h => ?_⟩
  have horder : getOrder 8192 ≤ 16 := Nat.size_le.mpr (by decide)
  have hobtains : Obtains configured (answersWith fun i => if i = 1 then enomem else 0) 8192 16 :=
    ⟨by decide, horder, rfl, rfl⟩
  rw [resizeMarked_obtained cursorPool hobtains] at h
  rcases insertions_end (answersWith fun i => if i = 1 then enomem else 0) 16 (pages 8192)
    (moveToBlock cursorPool 8192 cursorPool.size 16) with ⟨hall, -⟩ | ⟨k, -, hneg, hend⟩
  · exact hall 1 (by decide) (show enomem < 0 by decide)
  · rw [hend] at h
    have hsize : (8192 : ℕ) = 100 := (h.2 (by dsimp only; omega)).1.1
    omega

end NixWasm.RamfsRegrow
