import NixWasm.ExecImageBooks

/-!
The programs of the image cache keep the account. Each ends with what it gives its caller,
and a pool of calls stays in order whatever the interleaving: no reference is lost, none is
used after the release of its image.
-/
namespace NixWasm.ExecImage

open Coroutines Runs

section Programs

/-- The label shows what the call holds; nothing is held where the mutex is waited for. -/
structure Fits (m : Multiset Token × Multiset Claim) (label : Label) : Prop where
  shown : m.1 = label.holds
  waiting : label.point = .mutexLock → label.holds = []

/-- A program that turns what it is given into what it leaves to its caller. -/
abbrev Turns {α : Type} (before : Multiset Token × Multiset Claim) (program : Program α)
    (after : α → Multiset Token × Multiset Claim) : Prop :=
  Owning Books Fits Enabled (fun m a => m = after a) before program

section Rules

variable {α β : Type} {label : Label} {f : Kernel → α × Kernel} {tokens : List Token}
  {claims : Multiset Claim}

theorem turns_act {after : α → Multiset Token × Multiset Claim}
    (hlabel : label.holds = tokens ∧ (label.point = .mutexLock → label.holds = []))
    (h : ∀ k, Enabled label k →
      Swaps Books (own tokens claims) label k (after (f k).1) (f k).2) :
    Turns (own tokens claims) (.act label f) after := by
  refine owning_act ?_ fun k _ henabled _ => ⟨_, h k henabled, rfl⟩
  refine ⟨?_, hlabel.2⟩
  rw [hlabel.1]
  rfl

theorem turns_bind {before : Multiset Token × Multiset Claim} {program : Program α}
    {next : α → Program β} {after : β → Multiset Token × Multiset Claim}
    (mid : α → Multiset Token × Multiset Claim) (h : Turns before program mid)
    (hnext : ∀ a, Turns (mid a) (next a) after) : Turns before (program >>= next) after := by
  refine owning_bind h fun m a hm => ?_
  rw [hm]
  exact hnext a

end Rules

variable (outer : List Token) (claims : Multiset Claim)

theorem turns_releaseAll (dead : List ℕ) :
    Turns (own (dead.map .evicted ++ outer) claims) (releaseAll outer dead)
      fun _ => own outer claims := by
  induction dead with
  | nil => exact rfl
  | cons image dead ih =>
    refine turns_bind (fun _ => own (dead.map .evicted ++ outer) claims)
      (turns_act ⟨rfl, nofun⟩ fun k _ => ?_)
      fun _ => ih
    simpa using (swaps_release (k := k) _ image _ (Or.inl rfl)).frame
      (own (dead.map .evicted ++ outer) claims)

theorem turns_evictIdle (reason : Reason) (maxBytes : ℕ) :
    Turns (own outer claims) (wasmExecImageEvictIdle outer reason maxBytes)
      fun _ => own outer claims := by
  refine turns_bind (fun dead => own (dead.map .evicted ++ outer) claims)
    (turns_act ⟨rfl, nofun⟩ fun k _ => ?_)
    fun dead => turns_releaseAll outer claims dead
  simpa using (swaps_evictWalk (k := k) _ maxBytes).frame (own outer claims)

/-- A section that leaves the account alone. -/
theorem turns_quiet {α : Type} {label : Label} {f : Kernel → α × Kernel}
    (hlabel : label.holds = outer ∧ (label.point = .mutexLock → label.holds = []))
    (h : ∀ k, (f k).2 = { k with inodes := (f k).2.inodes, draws := (f k).2.draws }) :
    Turns (own outer claims) (.act label f) fun _ => own outer claims := by
  refine turns_act hlabel fun k _ => ?_
  simpa using (swaps_quiet _ (h k)).frame (own outer claims)

theorem turns_enforceCap :
    Turns (own outer claims) (enforceCap outer) fun _ => own outer claims := by
  refine turns_bind (fun _ => own outer claims) (turns_quiet outer claims ⟨rfl, nofun⟩ fun k => rfl)
    fun idle => ?_
  split
  · exact turns_evictIdle outer claims .cap _
  · exact rfl

theorem turns_put (image : ℕ) :
    Turns (own (.ref image :: outer) claims) (wasmExecImagePut outer image)
      fun _ => own outer claims := by
  refine turns_bind (fun zero : Bool => own ((if zero then [.dropped image] else []) ++
    outer) claims)
    (turns_act ⟨rfl, nofun⟩ fun k _ => ?_) fun zero => ?_
  · simpa using (swaps_refcountDecAndTest (k := k) _ image).frame (own outer claims)
  · cases zero with
    | true =>
      refine turns_act ⟨rfl, nofun⟩ fun k _ => ?_
      simpa using (swaps_release (k := k) _ image _ (Or.inr rfl)).frame (own outer claims)
    | false => exact turns_enforceCap outer claims

/-- After the unhash the list has no image of the file. -/
theorem turns_unhashStaleAndPut (req : Request) :
    Turns (own [.loadMutex] {.unmatched req}) (unhashStaleAndPut [.loadMutex] req)
      fun _ => own [.loadMutex] {.absent req.key} := by
  refine turns_bind (fun found => own ((found.elim [] fun image => [.ref image]) ++ [.loadMutex])
    {.absent req.key}) (turns_act ⟨rfl, nofun⟩ fun k _ => ?_) fun found => ?_
  · cases hfound : (unhashStale req k).1 with
    | none => exact swaps_unhashStale_none _ hfound
    | some image =>
      have hswap := swaps_unhashStale (k := k) ⟨.unhash, [.loadMutex]⟩ hfound
      rw [own_pair] at hswap
      exact hswap
  · cases found with
    | none => exact rfl
    | some image => exact turns_bind _ (turns_put [.loadMutex] {.absent req.key} image) fun _ => rfl

/-- What a call of `wasm_exec_image_get` leaves its caller with. -/
def obtainedTokens : Except Err ℕ → List Token
  | .ok image => [.ref image]
  | .error _ => []

@[simp] theorem obtainedTokens_ok (image : ℕ) : obtainedTokens (.ok image) = [.ref image] := rfl

theorem turns_mutexUnlock (claim : Claim) :
    Turns (own (.loadMutex :: outer) {claim}) (.act ⟨.mutexUnlock, .loadMutex :: outer⟩ mutexUnlock)
      fun _ => own outer 0 := by
  refine turns_act ⟨rfl, nofun⟩ fun k _ => ?_
  simpa using (swaps_mutexUnlock (k := k) _ claim).frame (own outer 0)

theorem turns_lookup (req : Request) :
    Turns (own outer claims) (.act ⟨.lookup, outer⟩ (findAndRef req))
      fun found => own ((found.elim [] fun image => [.ref image]) ++ outer) claims := by
  refine turns_act ⟨rfl, nofun⟩ fun k _ => ?_
  cases hfind : k.lru.find? (k.hits req) with
  | none =>
    have hnone : findAndRef req k = (none, k) := by
      unfold findAndRef
      rw [hfind]
    rw [hnone]
    exact fun frame hbooks => hbooks
  | some image =>
    have hfound : (findAndRef req k).1 = some image := by
      unfold findAndRef
      rw [hfind]
    rw [hfound]
    simpa using (swaps_findAndRef (k := k) _ hfind).frame (own outer claims)

/-- A failed load frees its buffer and gives the mutex back. -/
theorem turns_giveUp (buf : ℕ) (claim : Claim) (e : Err) :
    Turns (own [.loadMutex, .buffer buf] {claim})
      (do
        Task.act ⟨.freePages, [.loadMutex, .buffer buf]⟩ (freePagesExact buf)
        Task.act ⟨.mutexUnlock, [.loadMutex]⟩ mutexUnlock
        return (.error e : Except Err ℕ)) fun result => own (obtainedTokens result) 0 := by
  refine turns_bind (fun _ => own [.loadMutex] {claim})
    (turns_act ⟨rfl, nofun⟩ fun k _ => ?_) fun _ =>
    turns_bind _ (turns_mutexUnlock [] claim) fun _ => rfl
  rw [own_pair]
  simpa using (swaps_freePagesExact (k := k) _ buf).frame (own [.loadMutex] {claim})

theorem turns_loadImage (req : Request) (buf : ℕ) :
    Turns (own [.loadMutex, .buffer buf] {.absent req.key}) (loadImage req buf)
      fun result => own (obtainedTokens result) 0 := by
  refine turns_bind (fun _ => own [.loadMutex, .buffer buf] {.absent req.key})
    (turns_quiet [.loadMutex, .buffer buf] _ ⟨rfl, by simp⟩ fun k => rfl) fun result => ?_
  cases result with
  | error e => exact turns_giveUp buf _ e
  | ok bytes =>
    refine turns_bind (fun _ => own [.loadMutex, .buffer buf] {.absent req.key})
      (turns_quiet [.loadMutex, .buffer buf] _ ⟨rfl, by simp⟩ fun k => rfl) fun allocated => ?_
    cases allocated with
    | false => exact turns_giveUp buf _ .enomem
    | true =>
      refine turns_bind (fun image => own [.loadMutex, .ref image] {.nothing})
        (turns_act ⟨rfl, nofun⟩ fun k _ => swaps_insertImage _ req buf bytes) fun image => ?_
      exact turns_bind _ (turns_mutexUnlock [.ref image] .nothing) fun _ =>
        turns_bind _ (turns_enforceCap [.ref image] 0) fun _ => rfl

theorem turns_allocPages (claim : Claim) :
    Turns (own [.loadMutex] {claim}) (.act ⟨.allocPages, [.loadMutex]⟩ allocPagesExact)
      fun result => own (.loadMutex :: result.elim [] fun buf => [.buffer buf]) {claim} := by
  refine turns_act ⟨rfl, nofun⟩ fun k _ => ?_
  cases halloc : (allocPagesExact k).1 with
  | none =>
    have hk : (allocPagesExact k).2 = { k with draws := k.draws + 1 } := by
      unfold allocPagesExact at halloc ⊢
      split at halloc
      · cases halloc
      · rename_i hmemory
        rw [if_neg hmemory]
    rw [hk]
    simpa using (swaps_quiet (k := k) _ rfl).frame (own [.loadMutex] {claim})
  | some buf =>
    have hswap := (swaps_allocPagesExact (k := k) ⟨.allocPages, [.loadMutex]⟩ halloc).frame
      (own [.loadMutex] {claim})
    simp only [zero_add, own_add, List.singleton_append] at hswap
    rw [own_pair] at hswap
    exact hswap

theorem turns_allocOrEvict (claim : Claim) :
    Turns (own [.loadMutex] {claim}) allocOrEvict
      fun result => own (.loadMutex :: result.elim [] fun buf => [.buffer buf]) {claim} := by
  refine turns_bind _ (turns_allocPages claim) fun result => ?_
  cases result with
  | some buf => exact rfl
  | none => exact turns_bind _ (turns_evictIdle [.loadMutex] {claim} .allocation _) fun _ =>
    turns_allocPages claim

/-- A lookup under the mutex that does not hit rules a hit out. -/
theorem turns_recheck (req : Request) :
    Turns (own [.loadMutex] {.nothing}) (.act ⟨.recheck, [.loadMutex]⟩ (findAndRef req))
      fun found => found.elim (own [.loadMutex] {.unmatched req})
        fun image => own [.loadMutex, .ref image] {.nothing} := by
  refine turns_act ⟨rfl, nofun⟩ fun k _ => ?_
  cases hfind : k.lru.find? (k.hits req) with
  | none =>
    have hnone : findAndRef req k = (none, k) := by
      unfold findAndRef
      rw [hfind]
    rw [hnone]
    intro frame hbooks
    refine hbooks.reclaim fun image hmem => ?_
    simpa using List.find?_eq_none.mp hfind image hmem
  | some image =>
    have hfound : (findAndRef req k).1 = some image := by
      unfold findAndRef
      rw [hfind]
    rw [hfound]
    have hswap := (swaps_findAndRef (k := k) ⟨.recheck, [.loadMutex]⟩ hfind).frame
      (own [.loadMutex] {.nothing})
    simp only [zero_add, own_add, List.singleton_append] at hswap
    rw [own_pair] at hswap
    exact hswap

theorem turns_lookupOrLoad (req : Request) :
    Turns 0 (lookupOrLoad req) fun result => own (obtainedTokens result) 0 := by
  refine turns_bind _ (turns_lookup [] 0 req) fun found => ?_
  cases found with
  | some image => exact rfl
  | none =>
    refine turns_bind (fun _ => own [.loadMutex] {Claim.nothing})
      (turns_act ⟨rfl, fun _ => rfl⟩ fun k henabled => swaps_mutexLock _ (henabled rfl)) fun _ => ?_
    refine turns_bind _ (turns_recheck req) fun found => ?_
    cases found with
    | some image => exact turns_bind _ (turns_mutexUnlock [.ref image] .nothing) fun _ => rfl
    | none =>
      refine turns_bind _ (turns_unhashStaleAndPut req) fun _ => ?_
      refine turns_bind _ (turns_allocOrEvict (.absent req.key)) fun result => ?_
      cases result with
      | some buf => exact turns_loadImage req buf
      | none => exact turns_bind _ (turns_mutexUnlock [] (.absent req.key)) fun _ => rfl

theorem turns_get (key : Key) (wholeSize : ℕ) (head : List ℕ) :
    Turns 0 (wasmExecImageGet key wholeSize head) fun result => own (obtainedTokens result) 0 :=
  turns_bind _ (turns_quiet [] 0 ⟨rfl, nofun⟩ fun _ => rfl) fun _ =>
    turns_bind _ (turns_quiet [] 0 ⟨rfl, nofun⟩ fun _ => rfl) fun _ => turns_lookupOrLoad _

/-- Every call ends with nothing in hand. -/
theorem turns_call (call : Call) : Turns (own [] 0) call.program fun _ => own [] 0 := by
  cases call with
  | exec key =>
    refine turns_bind _ (turns_quiet [] 0 ⟨rfl, nofun⟩ fun k => rfl) fun head => ?_
    refine turns_bind _ (turns_quiet [] 0 ⟨rfl, nofun⟩ fun k => rfl) fun wholeSize => ?_
    refine turns_bind _ (turns_get key wholeSize head) fun result => ?_
    cases result with
    | error e => exact rfl
    | ok image =>
      refine turns_bind (fun rejected : Bool => if rejected then own [.ref image] 0 else 0)
        (turns_act ⟨rfl, nofun⟩ fun k _ => ?_) fun rejected => ?_
      · unfold attach
        split
        · simpa using (swaps_quiet (k := k) _ rfl).frame (own [.ref image] 0)
        · exact swaps_attach _ image _ _
      · cases rejected with
        | true => exact turns_put [] 0 image
        | false => exact rfl
  | fork oldmm =>
    refine turns_act ⟨rfl, nofun⟩ fun k _ => ?_
    cases himage : k.image oldmm with
    | some image => exact swaps_dupMmap _ himage
    | none => exact fun frame hbooks => hbooks
  | exit mm =>
    refine turns_bind (fun found => own (found.elim [] fun image => [.ref image]) 0)
      (turns_act ⟨rfl, nofun⟩ fun k _ => ?_) fun found => ?_
    · cases himage : k.image mm with
      | some image => exact swaps_destroyContext _ himage
      | none =>
        have hsame : k.mms.eraseP (fun entry => entry.1 = mm) = k.mms :=
          List.eraseP_of_forall_not (List.find?_eq_none.mp (Option.map_eq_none_iff.mp himage))
        rw [hsame]
        exact fun frame hbooks => hbooks
    · cases found with
      | some image => exact turns_put [] 0 image
      | none => exact rfl
  | shrinkCount => exact turns_bind _ (turns_quiet [] 0 ⟨rfl, nofun⟩ fun k => rfl) fun _ => rfl
  | shrinkScan maxBytes => exact turns_evictIdle [] 0 .shrinker maxBytes

end Programs

section Runs

variable {ι : Type} [Fintype ι] [DecidableEq ι]

/-- What a call holds before its next step; a call that returned holds nothing. -/
def holds (task : Program Unit) : List Token := (task.label.map Label.holds).getD []

/-- What all the calls in flight hold. -/
def inFlight (system : System ι) : Multiset Token := ∑ i, (holds (system.2 i) : Multiset Token)

/-- The references are counted; an image is there as long as it is listed, held by an
address space or in the hands of a call; it is released once, by a call that has it to
itself; no two images on the list are of one file; a buffer belongs to an image or to a
call. -/
structure Accounted (k : Kernel) (held : Multiset Token) : Prop where
  counted : ∀ image img, k.images.get image = some img → img.refs =
    (if image ∈ k.lru then 1 else 0) + k.users image +
      (held.count (.ref image) + held.count (.evicted image))
  owned : ∀ image, (k.images.get image).isSome ↔ image ∈ k.lru ∨ 0 < k.users image ∨
    .ref image ∈ held ∨ .evicted image ∈ held ∨ .dropped image ∈ held
  alone : ∀ image, .evicted image ∈ held ∨ .dropped image ∈ held →
    image ∉ k.lru ∧ k.users image = 0 ∧ .ref image ∉ held ∧
      held.count (.evicted image) + held.count (.dropped image) = 1
  once : k.released.Nodup
  gone : ∀ image ∈ k.released, k.images.get image = none ∧ image ∉ k.lru
  listed : k.lru.Nodup
  keys : ∀ image ∈ k.lru, ∀ image' ∈ k.lru, ∀ img img', k.images.get image = some img →
    k.images.get image' = some img' → img.key = img'.key → image = image'
  buffers : ∀ buf, buf ∈ k.buffers ↔
    (∃ image img, k.images.get image = some img ∧ img.buf = buf) ∨ .buffer buf ∈ held

theorem Books.accounted {k : Kernel} {m : Multiset Token × Multiset Claim} (h : Books k m) :
    Accounted k m.1 := by
  obtain ⟨hreferences, hreleases, hbuffers, hlocked⟩ := h
  have hnodup := hreferences.nodup
  have hcount : ∀ image, k.lru.count image = if image ∈ k.lru then 1 else 0 := by
    intro image
    split
    · exact List.count_eq_one_of_mem hnodup ‹_›
    · exact List.count_eq_zero.mpr ‹_›
  have hgone : ∀ image ∈ k.released, k.images.get image = none := fun image hmem =>
    Option.map_eq_none_iff.mp (hreleases.gone image hmem).1
  refine ⟨?_, ?_, ?_, hreleases.once, ?_, hnodup, ?_, ?_⟩
  · intro image img hget
    have hrefs := (hreferences.some hget).1
    rw [hcount] at hrefs
    omega
  · intro image
    constructor
    · intro hsome
      obtain ⟨img, hget⟩ := Option.isSome_iff_exists.mp hsome
      obtain ⟨hrefs, hpos, -⟩ := hreferences.some hget
      by_contra hnone
      push Not at hnone
      obtain ⟨hlisted, husers, href, hevicted, hdropped⟩ := hnone
      rw [List.count_eq_zero.mpr hlisted, Multiset.count_eq_zero.mpr href,
        Multiset.count_eq_zero.mpr hevicted] at hrefs
      rw [Multiset.count_eq_zero.mpr hdropped] at hpos
      omega
    · intro hheld
      refine Option.isSome_iff_exists.mpr (hreferences.live image ?_)
      rcases hheld with hmem | hpos | hmem | hmem | hmem
      · exact Or.inr (Or.inr (Or.inr (Or.inl hmem)))
      · exact Or.inr (Or.inr (Or.inr (Or.inr (List.count_pos_iff.mp hpos))))
      · exact Or.inl hmem
      · exact Or.inr (Or.inl hmem)
      · exact Or.inr (Or.inr (Or.inl hmem))
  · intro image hheld
    obtain ⟨img, hget⟩ := hreferences.live image (Or.inr (hheld.imp_right Or.inl))
    obtain ⟨hrefs, hpos, hone, -⟩ := hreferences.some hget
    have hshare : 0 < m.1.count (.evicted image) + m.1.count (.dropped image) := by
      rcases hheld with hmem | hmem
      · exact Nat.add_pos_left (Multiset.count_pos.mpr hmem) _
      · exact Nat.add_pos_right _ (Multiset.count_pos.mpr hmem)
    have hone' := hone hshare
    refine ⟨List.count_eq_zero.mp ?_, ?_, Multiset.count_eq_zero.mp ?_, ?_⟩ <;> omega
  · intro image hmem
    refine ⟨hgone image hmem, fun hlisted => ?_⟩
    obtain ⟨img, hget⟩ := hreferences.live image (Or.inr (Or.inr (Or.inr (Or.inl hlisted))))
    rw [hgone image hmem] at hget
    cases hget
  · intro image hmem image' hmem' img img' hget hget' heq
    exact hlocked.keys image hmem image' hmem' _ _ (fixed_of_get hget) (fixed_of_get hget') heq
  · intro buf
    rw [hbuffers.owned]
    refine or_congr ⟨?_, ?_⟩ Iff.rfl
    · rintro ⟨image, img, hfixed, rfl⟩
      obtain ⟨img', hget, rfl⟩ := Option.map_eq_some_iff.mp hfixed
      exact ⟨image, img', hget, rfl⟩
    · rintro ⟨image, img, hget, rfl⟩
      exact ⟨image, _, fixed_of_get hget, rfl⟩

/-- The pool is in order: each call goes on with a part of the account. -/
def InOrder (system : System ι) : Prop :=
  ∃ parts : ι → Multiset Token × Multiset Claim,
    (∀ i, Turns (parts i) (system.2 i) fun _ => own [] 0) ∧ Books system.1 (∑ i, parts i)

theorem tokens_of_turns {m : Multiset Token × Multiset Claim} {task : Program Unit}
    (h : Turns m task fun _ => own [] 0) : m.1 = holds task := by
  cases task with
  | ret a =>
    have hm : m = own [] 0 := h
    rw [hm]
    rfl
  | fail e => exact e.elim
  | step label effect next => exact h.1.shown

omit [DecidableEq ι] in
theorem InOrder.accounted {system : System ι} (h : InOrder system) :
    Accounted system.1 (inFlight system) := by
  obtain ⟨parts, hturns, hbooks⟩ := h
  have hheld : (∑ i, parts i).1 = inFlight system := by
    rw [Prod.fst_sum]
    exact Finset.sum_congr rfl fun i _ => tokens_of_turns (hturns i)
  rw [← hheld]
  exact hbooks.accounted

theorem InOrder.step {system : System ι} (h : InOrder system) (event : Event ι) :
    InOrder (step system event) := by
  obtain ⟨parts, hturns, hbooks⟩ := h
  cases event with
  | turn i =>
    simp only [ExecImage.step, takeTurn]
    split
    · rename_i label hlabel
      split
      · rename_i henabled
        refine owning_turn hturns hbooks fun label' hlabel' => ?_
        cases hlabel.symm.trans hlabel'
        exact henabled
      · exact ⟨parts, hturns, hbooks⟩
    · exact ⟨parts, hturns, hbooks⟩
  | modify key version =>
    refine ⟨parts, hturns, ?_⟩
    have hquiet : Swaps Books 0 (⟨.head, []⟩ : Label) system.1 0 (writeFile key version system.1) :=
      swaps_quiet _ rfl
    have hwritten := hquiet (∑ i, parts i) (by rwa [zero_add])
    rwa [zero_add] at hwritten

theorem boot_books (inodes : Key → Inode) (chance : ℕ → Draw) :
    Books (Kernel.boot inodes chance) (own [] 0) := by
  have hnone : ∀ image, (Kernel.boot inodes chance).fixed image = none := fun _ => rfl
  constructor
  · exact fun image => rfl
  · exact ⟨List.nodup_nil, fun image hmem => (List.not_mem_nil hmem).elim,
      fun image _ => hnone image⟩
  · refine ⟨List.nodup_nil, fun buf => ⟨fun hmem => (List.not_mem_nil hmem).elim, ?_⟩, ?_,
      fun buf => Nat.zero_le _, ?_, fun buf hmem => (List.not_mem_nil hmem).elim⟩
    · rintro (⟨image, img, hfixed, -⟩ | hmem)
      · cases (hnone image).symm.trans hfixed
      · exact (List.not_mem_nil hmem).elim
    · intro image image' img img' hfixed
      cases (hnone image).symm.trans hfixed
    · intro image img hfixed
      cases (hnone image).symm.trans hfixed
  · exact ⟨fun image hmem => (List.not_mem_nil hmem).elim, rfl, rfl, fun claim hmem =>
      (Multiset.notMem_zero claim hmem).elim⟩

omit [DecidableEq ι] in
theorem inOrder_boot (inodes : Key → Inode) (chance : ℕ → Draw) (calls : ι → Call) :
    InOrder (start inodes chance calls) := by
  refine ⟨fun _ => own [] 0, fun i => turns_call (calls i), ?_⟩
  have hzero : ∑ _i : ι, own [] 0 = own [] 0 := Finset.sum_const_zero
  rw [hzero]
  exact boot_books inodes chance

/-- The references of the image cache are in order after every step of every interleaving
of execs, forks, exits and shrinks. -/
theorem references_safe (inodes : Key → Inode) (chance : ℕ → Draw) (calls : ι → Call)
    (events : List (Event ι)) :
    Accounted (run step (start inodes chance calls) events).1
      (inFlight (run step (start inodes chance calls) events)) :=
  InOrder.accounted (run_invariant InOrder (fun _ event h => h.step event) events
    (inOrder_boot inodes chance calls))

end Runs

end NixWasm.ExecImage
