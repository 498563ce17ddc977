import NixWasm.Runs
import NixWasm.WordFlags

/-!
Page protection in the software MMU. A page-table entry is built from a frame
number and the protection of its mapping, and later rewritten bit by bit. Three
readers decide about an access: the test compiled into the program, the kernel's
own walk for user copies, and the rule of the fault handler, which reads the
mapping and not the entry.
-/
namespace NixWasm.PageProtection

open Runs WordFlags

/-- `unsigned long`, `pte_t` and `pgprot_t` of the 32-bit kernel. -/
abbrev Word := BitVec 32

def pageShift : ℕ := 12

def pageMask : Word := ~~~0xfff#32

def pagePresent : Word := 1#32 <<< 0

def pageWrite : Word := 1#32 <<< 1

def pageUser : Word := 1#32 <<< 2

def pageAccessed : Word := 1#32 <<< 3

def pageDirty : Word := 1#32 <<< 4

def pageChgMask : Word := pageMask ||| pageAccessed ||| pageDirty

def pageNone : Word := pagePresent ||| pageAccessed

def pageShared : Word := pagePresent ||| pageWrite ||| pageUser ||| pageAccessed

def pageCopy : Word := pagePresent ||| pageUser ||| pageAccessed

def pageReadonly : Word := pagePresent ||| pageUser ||| pageAccessed

def vmRead : Word := 1#32

def vmWrite : Word := 2#32

def vmExec : Word := 4#32

def vmShared : Word := 8#32

/-- Indexed by the low four `vm_flags`, in the order of the source's table: the
eight private combinations, then the eight shared ones. -/
def protectionMap : Vector Word 16 :=
  #v[pageNone, pageReadonly, pageCopy, pageCopy,
    pageReadonly, pageReadonly, pageCopy, pageCopy,
    pageNone, pageReadonly, pageShared, pageShared,
    pageReadonly, pageReadonly, pageShared, pageShared]

/-- The table index of a mapping's flags. -/
def protectionIndex (vmFlags : Word) : Fin 16 :=
  ⟨(vmFlags &&& (vmRead ||| vmWrite ||| vmExec ||| vmShared)).toNat, by
    have hle := BitVec.toNat_and vmFlags (vmRead ||| vmWrite ||| vmExec ||| vmShared)
    have hbound := @Nat.and_le_right vmFlags.toNat 15
    change (vmFlags &&& 15#32).toNat < 16
    change (vmFlags &&& 15#32).toNat = vmFlags.toNat &&& 15 at hle
    omega⟩

def vmGetPageProt (vmFlags : Word) : Word :=
  protectionMap.get (protectionIndex vmFlags)

def ptePresent (pte : Word) : Word := pte &&& pagePresent

def pteWrite (pte : Word) : Word := pte &&& pageWrite

def pteWrprotect (pte : Word) : Word := pte &&& ~~~pageWrite

def pteMkclean (pte : Word) : Word := pte &&& ~~~pageDirty

def pteMkold (pte : Word) : Word := pte &&& ~~~pageAccessed

def pteMkwriteNovma (pte : Word) : Word := pte ||| pageWrite

def pteMkdirty (pte : Word) : Word := pte ||| pageDirty

def pteMkyoung (pte : Word) : Word := pte ||| pageAccessed

def ptePfn (pte : Word) : Word := pte >>> pageShift

def pfnPte (pfn prot : Word) : Word := (pfn <<< pageShift) ||| prot

def pteModify (pte newprot : Word) : Word := (pte &&& pageChgMask) ||| newprot

/-- An entry of the page table with the flags its mapping has now. -/
structure Entry where
  pte : Word
  vmFlags : Word
deriving DecidableEq, Repr

/-- The entry the kernel installs for a frame of a mapping. -/
def mapped (pfn vmFlags : Word) : Entry :=
  ⟨pfnPte pfn (vmGetPageProt vmFlags), vmFlags⟩

inductive PteOp where
  /-- `mprotect` gives the mapping new flags and rewrites the entry. -/
  | modify (vmFlags : Word)
  | mkyoung
  | mkold
  | mkclean
  | mkdirty
  | wrprotect
  | mkwrite
deriving DecidableEq, Repr

def apply (e : Entry) : PteOp → Entry
  | .modify vmFlags => ⟨pteModify e.pte (vmGetPageProt vmFlags), vmFlags⟩
  | .mkyoung => { e with pte := pteMkyoung e.pte }
  | .mkold => { e with pte := pteMkold e.pte }
  | .mkclean => { e with pte := pteMkclean e.pte }
  | .mkdirty => { e with pte := pteMkdirty e.pte }
  | .wrprotect => { e with pte := pteWrprotect e.pte }
  | .mkwrite => { e with pte := pteMkwriteNovma e.pte }

/-- The generic memory manager makes an entry writable only in a writable mapping. -/
def mayApply (e : Entry) : PteOp → Prop
  | .mkwrite => e.vmFlags &&& vmWrite ≠ 0
  | _ => True

instance (e : Entry) (op : PteOp) : Decidable (mayApply e op) := by
  cases op <;> unfold mayApply <;> infer_instance

/-- The kinds of access, with the numbers the pass hands to the fault handler. -/
inductive Access where
  | read
  | write
deriving DecidableEq, Repr

def Access.kind : Access → ℕ
  | .read => 0
  | .write => 1

/-- The mapping check of `__wasm_mmu_fault`: what is refused here gets a signal. -/
def faultAllows (vmFlags : Word) : Access → Prop
  | .write => vmFlags &&& vmWrite ≠ 0
  | .read => vmFlags &&& (vmRead ||| vmWrite ||| vmExec) ≠ 0

instance (vmFlags : Word) (a : Access) : Decidable (faultAllows vmFlags a) := by
  cases a <;> unfold faultAllows <;> infer_instance

/-- A wasm comparison leaves 0 or 1 on the stack. -/
def i32Bool (b : Bool) : Word := if b then 1 else 0

/-- The level-1 entry of an address, in a memory read by 32-bit words. -/
def pgdEntry (u32 : Word → Word) (ptBase va : Word) : Word :=
  u32 (ptBase + ((va >>> 22) <<< 2))

/-- The level-2 entry of an address: the page-table entry of its page. -/
def pteEntry (u32 : Word → Word) (ptBase va : Word) : Word :=
  u32 ((pgdEntry u32 ptBase va &&& pageMask) + (((va >>> 12) &&& 0x3ff#32) <<< 2))

/-- The value the compiled test leaves: both level tests, joined without a branch. -/
def checkedPresentPredicate (u32 : Word → Word) (ptBase ea : Word) (kind : ℕ) : Word :=
  let pgdE := pgdEntry u32 ptBase ea
  let pte := pteEntry u32 ptBase ea
  let permitted :=
    if kind = 1 then i32Bool (pte &&& 3#32 == 3#32) else i32Bool (pte &&& 1#32 == 1#32)
  i32Bool (pgdE != 0#32) &&& permitted

def taskSize : Word := 0xC0000000#32

/-- `current->mm` is given by its page directory; a kernel thread has none. The
levels between the directory and the entry are folded and never empty. -/
def userPagePhys (u32 : Word → Word) (mm : Option Word) (va : Word) (write : Bool) :
    Option Word :=
  match mm with
  | none => none
  | some pgd =>
    if taskSize ≤ va then none
    else if pgdEntry u32 pgd va = 0 then none
    else
      let pte := pteEntry u32 pgd va
      if ptePresent pte = 0 then none
      else if write ∧ pteWrite pte = 0 then none
      else some ((pte &&& pageMask) + (va &&& ~~~pageMask))

/-- An access to the address goes through without the fault handler, in the
compiled program or in a copy made by the kernel. -/
def Admits (u32 : Word → Word) (ptBase va : Word) (a : Access) : Prop :=
  checkedPresentPredicate u32 ptBase va a.kind ≠ 0 ∨
    (userPagePhys u32 (some ptBase) va (a = .write)).isSome

/-- Whatever page the entry maps, in whatever tables, no access is admitted that
the fault handler would refuse. -/
def Sound (e : Entry) : Prop :=
  ∀ (u32 : Word → Word) (ptBase va : Word), pteEntry u32 ptBase va = e.pte →
    ∀ a, Admits u32 ptBase va a → faultAllows e.vmFlags a

theorem protectionMap_present : ∀ i : Fin 16, (protectionMap.get i).getLsbD 0 = true := by
  decide

theorem protectionMap_write :
    ∀ i : Fin 16, (protectionMap.get i).getLsbD 1 = true → i.val.testBit 1 = true := by
  decide

theorem protectionMap_small : ∀ i : Fin 16, (protectionMap.get i).toNat < 2 ^ 12 := by
  decide

/-- Flags have no bits in the frame number. -/
theorem flag_frame {m : Word} (hm : m.toNat < 2 ^ 12) (j : ℕ) (hj : 12 ≤ j) :
    m.getLsbD j = false :=
  Nat.testBit_lt_two_pow (lt_of_lt_of_le hm (Nat.pow_le_pow_right (by omega) hj))

/-- The flags of a protection stay below the frame number. -/
theorem vmGetPageProt_frame (vmFlags : Word) (j : ℕ) (hj : 12 ≤ j) :
    (vmGetPageProt vmFlags).getLsbD j = false := by
  exact flag_frame (protectionMap_small (protectionIndex vmFlags)) j hj

theorem vmGetPageProt_write (vmFlags : Word)
    (h : (vmGetPageProt vmFlags).getLsbD 1 = true) : vmFlags.getLsbD 1 = true := by
  have hindex : (protectionIndex vmFlags).val.testBit 1 = true :=
    protectionMap_write _ h
  change (vmFlags &&& 15#32).getLsbD 1 = true at hindex
  simpa using hindex

theorem vmWrite_iff (vmFlags : Word) : vmFlags &&& vmWrite ≠ 0 ↔ vmFlags.getLsbD 1 = true :=
  and_twoPow_ne_zero_iff vmFlags (i := 1) (by omega)

theorem pteWrite_iff (pte : Word) : pteWrite pte ≠ 0 ↔ pte.getLsbD 1 = true :=
  and_twoPow_ne_zero_iff pte (i := 1) (by omega)

/-- What every entry of a run keeps: it is present, it is writable only in a
writable mapping, and its frame is the one it was made with. -/
structure Kept (pfn : Word) (e : Entry) : Prop where
  present : e.pte.getLsbD 0 = true
  writable : e.pte.getLsbD 1 = true → e.vmFlags.getLsbD 1 = true
  frame : ∀ j, 12 ≤ j → e.pte.getLsbD j = (pfn <<< pageShift).getLsbD j

theorem kept_mapped (pfn vmFlags : Word) : Kept pfn (mapped pfn vmFlags) where
  present := by
    have hprot := protectionMap_present (protectionIndex vmFlags)
    simp only [mapped, pfnPte, vmGetPageProt, BitVec.getLsbD_or, hprot, Bool.or_true]
  writable := by
    intro h
    apply vmGetPageProt_write
    simpa [mapped, pfnPte, pageShift] using h
  frame := by
    intro j hj
    simp only [mapped, pfnPte, BitVec.getLsbD_or, vmGetPageProt_frame vmFlags j hj, Bool.or_false]

/-- An update of one flag above the two that decide about accesses. -/
theorem Kept.setPte {pfn : Word} {e : Entry} (h : Kept pfn e) (pte : Word)
    (hpresent : pte.getLsbD 0 = e.pte.getLsbD 0)
    (hwrite : pte.getLsbD 1 = true → e.vmFlags.getLsbD 1 = true)
    (hframe : ∀ j, 12 ≤ j → pte.getLsbD j = e.pte.getLsbD j) :
    Kept pfn { e with pte := pte } where
  present := hpresent.trans h.present
  writable := hwrite
  frame := fun j hj => (hframe j hj).trans (h.frame j hj)

/-- Clearing flags that do not decide about accesses, or the write flag. -/
theorem Kept.clear {pfn : Word} {e : Entry} (h : Kept pfn e) {m : Word}
    (hm : m.toNat < 2 ^ 12) (hpresent : m.getLsbD 0 = false) :
    Kept pfn { e with pte := e.pte &&& ~~~m } := by
  apply h.setPte
  · exact getLsbD_clear e.pte hpresent
  · intro hbit
    apply h.writable
    simp only [BitVec.getLsbD_and, Bool.and_eq_true] at hbit
    exact hbit.1
  · intro j hj
    exact getLsbD_clear e.pte (flag_frame hm j hj)

/-- Setting a flag; the write flag only in a writable mapping. -/
theorem Kept.raise {pfn : Word} {e : Entry} (h : Kept pfn e) {m : Word}
    (hm : m.toNat < 2 ^ 12) (hpresent : m.getLsbD 0 = false)
    (hwrite : m.getLsbD 1 = true → e.vmFlags.getLsbD 1 = true) :
    Kept pfn { e with pte := e.pte ||| m } := by
  apply h.setPte
  · exact getLsbD_raise e.pte hpresent
  · intro hbit
    simp only [BitVec.getLsbD_or, Bool.or_eq_true] at hbit
    rcases hbit with hold | hnew
    · exact h.writable hold
    · exact hwrite hnew
  · intro j hj
    exact getLsbD_raise e.pte (flag_frame hm j hj)

/-- `mprotect` keeps the frame and takes the flags of the new protection. -/
theorem Kept.modify {pfn : Word} {e : Entry} (h : Kept pfn e) (vmFlags : Word) :
    Kept pfn ⟨pteModify e.pte (vmGetPageProt vmFlags), vmFlags⟩ where
  present := by
    have hprot := protectionMap_present (protectionIndex vmFlags)
    simp only [pteModify, vmGetPageProt, BitVec.getLsbD_or, hprot, Bool.or_true]
  writable := by
    intro hbit
    apply vmGetPageProt_write
    have hmask : pageChgMask.getLsbD 1 = false := by decide
    simpa only [pteModify, BitVec.getLsbD_or, BitVec.getLsbD_and, hmask, Bool.and_false,
      Bool.false_or] using hbit
  frame := by
    intro j hj
    rw [← h.frame j hj]
    simp only [pteModify, BitVec.getLsbD_or, vmGetPageProt_frame vmFlags j hj, Bool.or_false,
      BitVec.getLsbD_and]
    by_cases hw : j < 32
    · have hmask : pageChgMask.getLsbD j = true := by
        have hflags : (0xfff#32).getLsbD j = false := flag_frame (by decide) j hj
        simp only [pageChgMask, pageMask, BitVec.getLsbD_or, BitVec.getLsbD_not, hflags, hw]
        simp
      rw [hmask, Bool.and_true]
    · rw [BitVec.getLsbD_of_ge e.pte j (by omega), Bool.false_and]

theorem Kept.apply {pfn : Word} {e : Entry} (h : Kept pfn e) (op : PteOp)
    (hop : mayApply e op) : Kept pfn (apply e op) := by
  cases op with
  | modify vmFlags => exact h.modify vmFlags
  | mkyoung => exact h.raise (by decide) (by decide) (by simp [pageAccessed])
  | mkold => exact h.clear (by decide) (by decide)
  | mkclean => exact h.clear (by decide) (by decide)
  | mkdirty => exact h.raise (by decide) (by decide) (by simp [pageDirty])
  | wrprotect => exact h.clear (by decide) (by decide)
  | mkwrite => exact h.raise (by decide) (by decide) (fun _ => (vmWrite_iff e.vmFlags).mp hop)

/-- Every entry reached by the memory manager's operations is kept. -/
theorem kept_run (pfn vmFlags : Word) (ops : List PteOp)
    (hops : Along mayApply apply (mapped pfn vmFlags) ops) :
    Kept pfn (run apply (mapped pfn vmFlags) ops) :=
  run_along (Kept pfn) (fun _ op h hop => h.apply op hop) ops (kept_mapped pfn vmFlags) hops

theorem Kept.frame_eq {pfn : Word} {e : Entry} (h : Kept pfn e) :
    ptePfn e.pte = (pfn <<< pageShift) >>> pageShift :=
  ushiftRight_congr pageShift h.frame

theorem i32Bool_and_ne_zero (a b : Bool) : i32Bool a &&& i32Bool b ≠ 0 ↔ a = true ∧ b = true := by
  cases a <;> cases b <;> decide

/-- The compiled test of a load, as a statement about the entry. -/
theorem checked_read_iff (u32 : Word → Word) (ptBase ea : Word) :
    checkedPresentPredicate u32 ptBase ea Access.read.kind ≠ 0 ↔
      pgdEntry u32 ptBase ea ≠ 0 ∧ (pteEntry u32 ptBase ea).getLsbD 0 = true := by
  have hkind : Access.read.kind = 0 := rfl
  simp only [checkedPresentPredicate, hkind]
  rw [if_neg (by decide), i32Bool_and_ne_zero, bne_iff_ne, beq_iff_eq, and_eq_mask_iff]
  refine and_congr_right fun _ => ?_
  constructor
  · intro h
    exact h 0 (by decide)
  · intro h i hi
    have hzero : i = 0 := by
      by_contra hne
      simp [hne] at hi
    rwa [hzero]

/-- The compiled test of a store needs the write flag. -/
theorem write_of_checked {u32 : Word → Word} {ptBase ea : Word}
    (h : checkedPresentPredicate u32 ptBase ea Access.write.kind ≠ 0) :
    (pteEntry u32 ptBase ea).getLsbD 1 = true := by
  have hkind : Access.write.kind = 1 := rfl
  simp only [checkedPresentPredicate, hkind, if_true] at h
  rw [i32Bool_and_ne_zero, bne_iff_ne, beq_iff_eq, and_eq_mask_iff] at h
  exact h.2 1 (by decide)

theorem write_of_userPagePhys {u32 : Word → Word} {ptBase va : Word}
    (h : (userPagePhys u32 (some ptBase) va true).isSome) :
    (pteEntry u32 ptBase va).getLsbD 1 = true := by
  rw [← pteWrite_iff]
  intro hzero
  simp [userPagePhys, hzero] at h

/-- No store is admitted through an entry outside a writable mapping. -/
theorem Kept.write_sound {pfn : Word} {e : Entry} (h : Kept pfn e)
    {u32 : Word → Word} {ptBase va : Word} (hentry : pteEntry u32 ptBase va = e.pte)
    (hadmits : Admits u32 ptBase va .write) : faultAllows e.vmFlags .write := by
  apply (vmWrite_iff e.vmFlags).mpr
  apply h.writable
  rw [← hentry]
  rcases hadmits with hchecked | hwalk
  · exact write_of_checked hchecked
  · exact write_of_userPagePhys (by simpa using hwalk)

/-- Every entry of a run admits loads, as soon as its table is there. -/
theorem Kept.admits_read {pfn : Word} {e : Entry} (h : Kept pfn e)
    {u32 : Word → Word} {ptBase va : Word} (hentry : pteEntry u32 ptBase va = e.pte)
    (htable : pgdEntry u32 ptBase va ≠ 0) : Admits u32 ptBase va .read := by
  refine Or.inl ((checked_read_iff u32 ptBase va).mpr ⟨htable, ?_⟩)
  rw [hentry]
  exact h.present

/-- The entry protects its page exactly when its mapping may be read at all. -/
theorem Kept.sound_iff {pfn : Word} {e : Entry} (h : Kept pfn e) :
    Sound e ↔ faultAllows e.vmFlags .read := by
  constructor
  · intro hsound
    -- in tables whose every word is the entry itself, every walk ends at it
    have hne : e.pte ≠ 0 := by
      intro hzero
      have hbit := h.present
      rw [hzero] at hbit
      simp at hbit
    exact hsound (fun _ => e.pte) 0 0 rfl .read (h.admits_read rfl hne)
  · intro hread u32 ptBase va hentry a hadmits
    cases a with
    | read => exact hread
    | write => exact h.write_sound hentry hadmits

/-- Only `mprotect` moves the flags of the mapping. -/
theorem apply_vmFlags (e : Entry) (op : PteOp) :
    (apply e op).vmFlags = e.vmFlags ∨ op = .modify (apply e op).vmFlags := by
  cases op with
  | modify vmFlags => exact Or.inr rfl
  | mkyoung | mkold | mkclean | mkdirty | wrprotect | mkwrite => exact Or.inl rfl

/-- The mapping stays readable along a run when every set of flags it gets is. -/
theorem readable_along (ops : List PteOp) (e : Entry) :
    (∀ before after, ops = before ++ after → faultAllows (run apply e before).vmFlags .read) ↔
      faultAllows e.vmFlags .read ∧
        ∀ new, PteOp.modify new ∈ ops → faultAllows new .read := by
  induction ops generalizing e with
  | nil =>
    constructor
    · intro h
      exact ⟨h [] [] rfl, by simp⟩
    · rintro ⟨hread, -⟩ before after hnil
      obtain ⟨rfl, rfl⟩ := List.append_eq_nil_iff.mp hnil.symm
      exact hread
  | cons op ops ih =>
    constructor
    · intro h
      have hrest := (ih (apply e op)).mp fun before after heq =>
        h (op :: before) after (by rw [heq, List.cons_append])
      refine ⟨h [] (op :: ops) rfl, ?_⟩
      intro new hmem
      rcases List.mem_cons.mp hmem with rfl | htail
      · exact hrest.1
      · exact hrest.2 new htail
    · rintro ⟨hread, hnew⟩ before after heq
      cases before with
      | nil => exact hread
      | cons first before =>
        obtain ⟨rfl, htail⟩ := List.cons.inj heq
        refine (ih (apply e op)).mpr ⟨?_, ?_⟩ before after htail
        · rcases apply_vmFlags e op with hsame | hmodify
          · rwa [hsame]
          · exact hnew _ (by rw [← hmodify]; exact List.mem_cons_self)
        · intro new hmem
          exact hnew new (List.mem_cons_of_mem op hmem)

/-- A frame number of the 32-bit machine survives the shift into the entry. -/
theorem frame_shift (pfn : Word) :
    ((pfn <<< pageShift) >>> pageShift).toNat = pfn.toNat % 2 ^ 20 := by
  simp only [pageShift, BitVec.toNat_ushiftRight, BitVec.toNat_shiftLeft, Nat.shiftLeft_eq,
    Nat.shiftRight_eq_div_pow]
  omega

/-- Along every run of the memory manager's operations the entry protects its page
and keeps its frame, exactly when the mapping is made and remade with flags that
let it be read, written or executed. -/
theorem protection_sound_iff (pfn vmFlags : Word) (ops : List PteOp)
    (hops : Along mayApply apply (mapped pfn vmFlags) ops) :
    (∀ before after, ops = before ++ after →
      Sound (run apply (mapped pfn vmFlags) before) ∧
        (ptePfn (run apply (mapped pfn vmFlags) before).pte).toNat = pfn.toNat % 2 ^ 20) ↔
      faultAllows vmFlags .read ∧ ∀ new, PteOp.modify new ∈ ops → faultAllows new .read := by
  have hkept : ∀ before after, ops = before ++ after →
      Kept pfn (run apply (mapped pfn vmFlags) before) := by
    intro before after heq
    rw [heq, along_append] at hops
    exact kept_run pfn vmFlags before hops.1
  have hreadable := readable_along ops (mapped pfn vmFlags)
  constructor
  · intro hall
    refine hreadable.mp fun before after heq => ?_
    exact (hkept before after heq).sound_iff.mp (hall before after heq).1
  · intro hflags before after heq
    have hentry := hkept before after heq
    refine ⟨hentry.sound_iff.mpr (hreadable.mpr hflags before after heq), ?_⟩
    rw [hentry.frame_eq, frame_shift]

/-- A private page, written after a fault and then made read-only. -/
theorem protection_sound_mprotect :
    let s := run apply (mapped 0x80 (vmRead ||| vmWrite)) [.mkdirty, .mkwrite, .modify vmRead]
    Sound s ∧ (ptePfn s.pte).toNat = (0x80 : Word).toNat % 2 ^ 20 := by
  refine (protection_sound_iff 0x80 (vmRead ||| vmWrite) [.mkdirty, .mkwrite, .modify vmRead]
    ?_).mpr ⟨by decide, ?_⟩ _ [] rfl
  · refine ⟨trivial, by decide, trivial, trivial⟩
  · intro new hnew
    have heq : new = vmRead := by simpa using hnew
    rw [heq]
    decide

/-- The tables of one populated page: a directory at 0x10000 whose first entry
names the table at 0x11000, and the entry of the page at 0x1000 there. -/
def onePage (pte : Word) (address : Word) : Word :=
  if address = 0x10000 then 0x11000
  else if address = 0x11004 then pte
  else 0

/-- A populated page made inaccessible is still read: the entry of an inaccessible
mapping is present, and neither reader looks at the flag it lacks. -/
theorem inaccessible_page_read :
    Along mayApply apply (mapped 0x80 (vmRead ||| vmWrite)) [.modify 0] ∧
      checkedPresentPredicate
        (onePage (run apply (mapped 0x80 (vmRead ||| vmWrite)) [.modify 0]).pte)
        0x10000 0x1234 Access.read.kind = 1 ∧
      userPagePhys
        (onePage (run apply (mapped 0x80 (vmRead ||| vmWrite)) [.modify 0]).pte)
        (some 0x10000) 0x1234 false = some 0x80234 ∧
      ¬ faultAllows (run apply (mapped 0x80 (vmRead ||| vmWrite)) [.modify 0]).vmFlags .read ∧
      ¬ Sound (run apply (mapped 0x80 (vmRead ||| vmWrite)) [.modify 0]) := by
  refine ⟨⟨trivial, trivial⟩, by decide, by decide, by decide, ?_⟩
  intro hsound
  have hread := hsound
    (onePage (run apply (mapped 0x80 (vmRead ||| vmWrite)) [.modify 0]).pte)
    0x10000 0x1234 (by decide) .read (Or.inl (by decide))
  exact absurd hread (by decide)

end NixWasm.PageProtection
