import NixWasm.ExecImage
import Mathlib.Algebra.BigOperators.Pi

/-!
The reference counts of the image cache. What the calls in flight hold is accounted for at
every step: a reference is in the list, in an address space or in the hands of a call; an
image that is about to be released belongs to one call alone; a buffer belongs to an image
or to a call. The holder of the load mutex may also rely on what it found in the list.
-/
namespace NixWasm.ExecImage

open Coroutines

/-- What the holder of the mutex knows of the list: no hit, or no image of the file. -/
inductive Claim where
  | nothing
  | unmatched (req : Request)
  | absent (key : Key)

def Kernel.refs (k : Kernel) (image : ℕ) : Option ℕ := (k.images.get image).map Image.refs

/-- An image but for its count. -/
def Kernel.fixed (k : Kernel) (image : ℕ) : Option Image :=
  (k.images.get image).map fun img => { img with refs := 0 }

def Claim.Holds (k : Kernel) : Claim → Prop
  | .nothing => True
  | .unmatched req => ∀ image ∈ k.lru, k.hits req image = false
  | .absent key => ∀ image ∈ k.lru, k.keyed key image = false

/-- The number of references to an image, against what there is in the list, in address
spaces and in the hands of calls. -/
def Balanced (refs : Option ℕ) (listed mms held evicted dropped : ℕ) : Prop :=
  match refs with
  | some n => n = listed + mms + held + evicted ∧ 0 < n + dropped ∧
      (0 < evicted + dropped → n + dropped = 1) ∧ listed ≤ 1
  | none => listed + mms + held + evicted + dropped = 0

def Kernel.users (k : Kernel) (image : ℕ) : ℕ := (k.mms.map Prod.snd).count image

def References (k : Kernel) (held : Multiset Token) : Prop :=
  ∀ image, Balanced (k.refs image) (k.lru.count image) (k.users image) (held.count (.ref image))
    (held.count (.evicted image)) (held.count (.dropped image))

structure Releases (k : Kernel) : Prop where
  once : k.released.Nodup
  gone : ∀ image ∈ k.released, k.fixed image = none ∧ image < k.nextImage
  bound : ∀ image, k.nextImage ≤ image → k.fixed image = none

structure Buffers (k : Kernel) (held : Multiset Token) : Prop where
  nodup : k.buffers.Nodup
  owned : ∀ buf, buf ∈ k.buffers ↔
    (∃ image img, k.fixed image = some img ∧ img.buf = buf) ∨ .buffer buf ∈ held
  shared : ∀ image image' img img', k.fixed image = some img → k.fixed image' = some img' →
    img.buf = img'.buf → image = image'
  single : ∀ buf, held.count (.buffer buf) ≤ 1
  apart : ∀ image img, k.fixed image = some img → .buffer img.buf ∉ held
  bound : ∀ buf ∈ k.buffers, buf < k.nextBuffer

structure Locked (k : Kernel) (held : Multiset Token) (claims : Multiset Claim) : Prop where
  keys : ∀ image ∈ k.lru, ∀ image' ∈ k.lru, ∀ img img', k.fixed image = some img →
    k.fixed image' = some img' → img.key = img'.key → image = image'
  mutex : held.count .loadMutex = if k.loadMutex then 1 else 0
  claimed : claims.card = held.count .loadMutex
  claims : ∀ claim ∈ claims, claim.Holds k

/-- The account of what all calls hold and claim together. -/
structure Books (k : Kernel) (m : Multiset Token × Multiset Claim) : Prop where
  references : References k m.1
  releases : Releases k
  buffers : Buffers k m.1
  locked : Locked k m.1 m.2

section Facts

variable {k k' : Kernel}

/-- Kernels that agree on an image but for its count. -/
theorem fixed_cases {image : ℕ} (h : k'.fixed image = k.fixed image) :
    k.images.get image = none ∧ k'.images.get image = none ∨
      ∃ img refs, k.images.get image = some img ∧
        k'.images.get image = some { img with refs := refs } := by
  unfold Kernel.fixed at h
  cases hget : k.images.get image with
  | none =>
    rw [hget, Option.map_none, Option.map_eq_none_iff] at h
    exact Or.inl ⟨rfl, h⟩
  | some img =>
    rw [hget, Option.map_some, Option.map_eq_some_iff] at h
    obtain ⟨img', hget', heq⟩ := h
    refine Or.inr ⟨img, img'.refs, rfl, ?_⟩
    rw [hget']
    obtain ⟨refs, key, size, mtime, haveIVersion, iVersion, buf, bytes, bufSize⟩ := img
    obtain ⟨refs', key', size', mtime', haveIVersion', iVersion', buf', bytes', bufSize'⟩ := img'
    cases heq
    rfl

theorem hits_congr {image : ℕ} (h : k'.fixed image = k.fixed image) (req : Request) :
    k'.hits req image = k.hits req image := by
  unfold Kernel.hits
  rcases fixed_cases h with ⟨hget, hget'⟩ | ⟨img, refs, hget, hget'⟩
  · rw [hget, hget']
  · rw [hget, hget']
    rfl

theorem keyed_congr {image : ℕ} (h : k'.fixed image = k.fixed image) (key : Key) :
    k'.keyed key image = k.keyed key image := by
  unfold Kernel.keyed
  rcases fixed_cases h with ⟨hget, hget'⟩ | ⟨img, refs, hget, hget'⟩
  · rw [hget, hget']
  · rw [hget, hget']
    rfl

/-- A claim survives where the list only loses images. -/
theorem Claim.Holds.shrink {claim : Claim} (h : claim.Holds k)
    (hlru : ∀ image ∈ k'.lru, image ∈ k.lru ∧ k'.fixed image = k.fixed image) :
    claim.Holds k' := by
  cases claim with
  | nothing => trivial
  | unmatched req =>
    intro image hmem
    rw [hits_congr (hlru image hmem).2]
    exact h image (hlru image hmem).1
  | absent key =>
    intro image hmem
    rw [keyed_congr (hlru image hmem).2]
    exact h image (hlru image hmem).1

/-- An image that a call refers to is there. -/
theorem References.live {held : Multiset Token} (h : References k held) (image : ℕ)
    (hheld : .ref image ∈ held ∨ .evicted image ∈ held ∨ .dropped image ∈ held ∨
      image ∈ k.lru ∨ image ∈ k.mms.map Prod.snd) :
    ∃ img, k.images.get image = some img := by
  have hbalanced := h image
  cases hget : k.images.get image with
  | some img => exact ⟨img, rfl⟩
  | none =>
    exfalso
    simp only [Kernel.refs, hget, Option.map_none, Balanced] at hbalanced
    have hcounts : held.count (.ref image) = 0 ∧ held.count (.evicted image) = 0 ∧
        held.count (.dropped image) = 0 ∧ k.lru.count image = 0 ∧ k.users image = 0 := by
      omega
    obtain ⟨href, hevicted, hdropped, hlisted, husers⟩ := hcounts
    rcases hheld with hmem | hmem | hmem | hmem | hmem
    · exact Multiset.count_eq_zero.mp href hmem
    · exact Multiset.count_eq_zero.mp hevicted hmem
    · exact Multiset.count_eq_zero.mp hdropped hmem
    · exact List.count_eq_zero.mp hlisted hmem
    · exact List.count_eq_zero.mp husers hmem

theorem References.nodup {held : Multiset Token} (h : References k held) : k.lru.Nodup := by
  rw [List.nodup_iff_count_le_one]
  intro image
  have hbalanced := h image
  unfold Balanced at hbalanced
  cases hrefs : k.refs image with
  | none =>
    simp only [hrefs] at hbalanced
    omega
  | some n =>
    simp only [hrefs] at hbalanced
    exact hbalanced.2.2.2

theorem Releases.congr (h : Releases k) (hfixed : ∀ image, k'.fixed image = k.fixed image)
    (hreleased : k'.released = k.released) (hnext : k'.nextImage = k.nextImage) : Releases k' := by
  obtain ⟨honce, hgone, hbound⟩ := h
  constructor
  · rw [hreleased]
    exact honce
  · intro image hmem
    rw [hreleased] at hmem
    rw [hfixed, hnext]
    exact hgone image hmem
  · intro image hle
    rw [hfixed]
    exact hbound image (hnext ▸ hle)

theorem Buffers.congr {held held' : Multiset Token} (h : Buffers k held)
    (hfixed : ∀ image, k'.fixed image = k.fixed image) (hbuffers : k'.buffers = k.buffers)
    (hnext : k'.nextBuffer = k.nextBuffer)
    (hheld : ∀ buf, held'.count (.buffer buf) = held.count (.buffer buf)) : Buffers k' held' := by
  have hmem : ∀ buf, .buffer buf ∈ held' ↔ .buffer buf ∈ held := by
    intro buf
    rw [← Multiset.count_pos, ← Multiset.count_pos, hheld]
  obtain ⟨hnodup, howned, hshared, hsingle, hapart, hbound⟩ := h
  constructor
  · rw [hbuffers]
    exact hnodup
  · intro buf
    simp only [hbuffers, hfixed, hmem]
    exact howned buf
  · simpa only [hfixed] using hshared
  · intro buf
    rw [hheld]
    exact hsingle buf
  · intro image img himg
    rw [hmem]
    exact hapart image img (hfixed image ▸ himg)
  · rw [hbuffers, hnext]
    exact hbound

theorem Locked.shrink {held held' : Multiset Token} {claims : Multiset Claim}
    (h : Locked k held claims)
    (hlru : ∀ image ∈ k'.lru, image ∈ k.lru ∧ k'.fixed image = k.fixed image)
    (hmutex : k'.loadMutex = k.loadMutex)
    (hheld : held'.count .loadMutex = held.count .loadMutex) : Locked k' held' claims := by
  obtain ⟨hkeys, hmutex', hclaimed, hclaims⟩ := h
  constructor
  · intro image hmem image' hmem' img img' himg himg'
    rw [(hlru image hmem).2] at himg
    rw [(hlru image' hmem').2] at himg'
    exact hkeys image (hlru image hmem).1 image' (hlru image' hmem').1 img img' himg himg'
  · rw [hheld, hmutex, hmutex']
  · rw [hheld]
    exact hclaimed
  · intro claim hmem
    exact (hclaims claim hmem).shrink hlru

/-- Steps that only move references: the images and buffers stay, and the list gains
nothing. -/
theorem Books.move {m m' : Multiset Token × Multiset Claim} (h : Books k m)
    (hfixed : ∀ image, k'.fixed image = k.fixed image) (hlru : ∀ image ∈ k'.lru, image ∈ k.lru)
    (hsame : k'.released = k.released ∧ k'.nextImage = k.nextImage ∧ k'.buffers = k.buffers ∧
      k'.nextBuffer = k.nextBuffer ∧ k'.loadMutex = k.loadMutex)
    (hbuffer : ∀ buf, m'.1.count (.buffer buf) = m.1.count (.buffer buf))
    (hmutex : m'.1.count .loadMutex = m.1.count .loadMutex) (hclaims : m'.2 = m.2)
    (hreferences : References k' m'.1) : Books k' m' := by
  obtain ⟨hreleased, hnextImage, hbuffers, hnextBuffer, hloadMutex⟩ := hsame
  obtain ⟨held, claims⟩ := m
  obtain ⟨held', claims'⟩ := m'
  obtain rfl : claims' = claims := hclaims
  exact ⟨hreferences, h.releases.congr hfixed hreleased hnextImage,
    h.buffers.congr hfixed hbuffers hnextBuffer hbuffer,
    h.locked.shrink (fun image hmem => ⟨hlru image hmem, hfixed image⟩) hloadMutex hmutex⟩

end Facts

section Counts

variable {k : Kernel}

/-- A write to the count of one image. -/
def Kernel.setRefs (k : Kernel) (image : ℕ) (img : Image) (refs : ℕ) : Kernel :=
  { k with images := k.images.set image { img with refs := refs } }

theorem setRefs_refs {image : ℕ} {img : Image} (refs image' : ℕ) :
    (k.setRefs image img refs).refs image' =
      if image' = image then some refs else k.refs image' := by
  unfold Kernel.setRefs Kernel.refs
  by_cases heq : image' = image
  · rw [if_pos heq, heq, JsMap.get_set_self]
    rfl
  · rw [if_neg heq, JsMap.get_set_of_ne _ _ heq]

theorem setRefs_fixed {image : ℕ} {img : Image} (hget : k.images.get image = some img)
    (refs image' : ℕ) : (k.setRefs image img refs).fixed image' = k.fixed image' := by
  unfold Kernel.setRefs Kernel.fixed
  by_cases heq : image' = image
  · rw [heq, JsMap.get_set_self, hget]
    rfl
  · rw [JsMap.get_set_of_ne _ _ heq]

theorem refcountInc_eq {image : ℕ} {img : Image} (hget : k.images.get image = some img) :
    refcountInc image k = k.setRefs image img (img.refs + 1) := by
  unfold refcountInc
  rw [hget]
  rfl

theorem refcountDecAndTest_eq {image : ℕ} {img : Image} (hget : k.images.get image = some img) :
    refcountDecAndTest image k =
      (decide (img.refs = 1), k.setRefs image img (img.refs - 1)) := by
  unfold refcountDecAndTest
  rw [hget]
  rfl

end Counts

/-- What a call holds and claims. -/
def own (tokens : List Token) (claims : Multiset Claim) : Multiset Token × Multiset Claim :=
  (tokens, claims)

@[simp] theorem own_add (tokens tokens' : List Token) (claims claims' : Multiset Claim) :
    own tokens claims + own tokens' claims' = own (tokens ++ tokens') (claims + claims') := by
  simp [own]

theorem own_pair (token token' : Token) (claims : Multiset Claim) :
    own [token, token'] claims = own [token', token] claims := by
  unfold own
  rw [Multiset.coe_eq_coe.mpr (List.Perm.swap token' token [])]

@[simp] theorem own_tokens (tokens : List Token) (claims : Multiset Claim) :
    (own tokens claims).1 = tokens := rfl

@[simp] theorem own_claims (tokens : List Token) (claims : Multiset Claim) :
    (own tokens claims).2 = claims := rfl

theorem held_count (tokens : List Token) (claims : Multiset Claim)
    (frame : Multiset Token × Multiset Claim) (token : Token) :
    (own tokens claims + frame).1.count token = tokens.count token + frame.1.count token := by
  rw [Prod.fst_add, own_tokens, Multiset.count_add, Multiset.coe_count]

/-- A step that concerns one image. -/
theorem References.update {k k' : Kernel} {held held' : Multiset Token} (h : References k held)
    (image : ℕ) (hother : ∀ image', image' ≠ image → k'.refs image' = k.refs image' ∧
      k'.lru.count image' = k.lru.count image' ∧ k'.users image' = k.users image' ∧
      held'.count (.ref image') = held.count (.ref image') ∧
      held'.count (.evicted image') = held.count (.evicted image') ∧
      held'.count (.dropped image') = held.count (.dropped image'))
    (hself : Balanced (k'.refs image) (k'.lru.count image) (k'.users image)
      (held'.count (.ref image)) (held'.count (.evicted image)) (held'.count (.dropped image))) :
    References k' held' := by
  intro image'
  by_cases heq : image' = image
  · rw [heq]
    exact hself
  · obtain ⟨hrefs, hlru, husers, href, hevicted, hdropped⟩ := hother image' heq
    rw [hrefs, hlru, husers, href, hevicted, hdropped]
    exact h image'

/-- The account of an image that is there. -/
theorem References.some {k : Kernel} {held : Multiset Token} (h : References k held) {image : ℕ}
    {img : Image} (hget : k.images.get image = some img) :
    img.refs = k.lru.count image + k.users image + held.count (.ref image) +
        held.count (.evicted image) ∧ 0 < img.refs + held.count (.dropped image) ∧
      (0 < held.count (.evicted image) + held.count (.dropped image) →
        img.refs + held.count (.dropped image) = 1) ∧ k.lru.count image ≤ 1 := by
  have hbalanced := h image
  simp only [Kernel.refs, hget, Option.map_some, Balanced] at hbalanced
  exact hbalanced

section Sections

variable {k : Kernel} (label : Label)

/-- A lookup that hits takes a reference. -/
theorem swaps_findAndRef {req : Request} {image : ℕ} (hfind : k.lru.find? (k.hits req) =
    some image) : Swaps Books 0 label k (own [.ref image] 0) (findAndRef req k).2 := by
  intro frame hbooks
  rw [zero_add] at hbooks
  have hmem : image ∈ k.lru := List.mem_of_find?_eq_some hfind
  obtain ⟨img, hget⟩ := hbooks.references.live image (Or.inr (Or.inr (Or.inr (Or.inl hmem))))
  have hk : (findAndRef req k).2 = { k.setRefs image img (img.refs + 1) with
      lru := image :: k.lru.erase image
      obtained := image :: k.obtained } := by
    simp only [findAndRef, hfind, refcountInc_eq hget]
  rw [hk]
  refine hbooks.move (setRefs_fixed hget _) ?_ ⟨rfl, rfl, rfl, rfl, rfl⟩ (by simp)
    (by simp) (by simp)
    (hbooks.references.update image (fun image' hne => ?_) ?_)
  · intro image' hmem'
    rcases List.mem_cons.mp hmem' with rfl | hmem'
    · exact hmem
    · exact List.mem_of_mem_erase hmem'
  · refine ⟨(setRefs_refs _ image').trans (if_neg hne), ?_, rfl, ?_, ?_, ?_⟩
    · simp [hne, hne.symm]
    · rw [held_count]
      simp [hne.symm]
    · simp
    · simp
  · have hbalanced := hbooks.references.some hget
    have hcount := List.count_pos_iff.mpr hmem
    have hrefs : (k.setRefs image img (img.refs + 1)).refs image = some (img.refs + 1) :=
      (setRefs_refs _ image).trans (if_pos rfl)
    change Balanced ((k.setRefs image img (img.refs + 1)).refs image)
      ((image :: k.lru.erase image).count image) (k.users image) _ _ _
    rw [hrefs]
    simp [Balanced]
    omega

theorem swaps_mutexLock (hfree : k.loadMutex = false) :
    Swaps Books 0 label k (own [.loadMutex] {.nothing}) (mutexLock k).2 := by
  intro frame hbooks
  rw [zero_add] at hbooks
  obtain ⟨hreferences, hreleases, hbuffers, hlocked⟩ := hbooks
  refine ⟨fun image => ?_, hreleases.congr (fun _ => rfl) rfl rfl,
    hbuffers.congr (fun _ => rfl) rfl rfl (by simp), ?_⟩
  · have hbalanced := hreferences image
    simp only [held_count] at hbalanced ⊢
    simpa [mutexLock, Kernel.refs, Kernel.users] using hbalanced
  · obtain ⟨hkeys, hmutex, hclaimed, hclaims⟩ := hlocked
    rw [hfree] at hmutex
    refine ⟨hkeys, ?_, ?_, ?_⟩
    · simpa [mutexLock] using hmutex
    · simpa [add_comm] using hclaimed
    · intro claim hmem
      rcases Multiset.mem_add.mp hmem with hmem | hmem
      · cases Multiset.mem_singleton.mp hmem
        trivial
      · exact (hclaims claim hmem).shrink fun image hmem => ⟨hmem, rfl⟩

/-- The mutex goes with the claim of its holder. -/
theorem swaps_mutexUnlock (claim : Claim) :
    Swaps Books (own [.loadMutex] {claim}) label k 0 (mutexUnlock k).2 := by
  intro frame hbooks
  rw [zero_add]
  obtain ⟨hreferences, hreleases, hbuffers, hlocked⟩ := hbooks
  refine ⟨fun image => ?_, hreleases.congr (fun _ => rfl) rfl rfl,
    hbuffers.congr (fun _ => rfl) rfl rfl (by simp), ?_⟩
  · have hbalanced := hreferences image
    simp only [held_count] at hbalanced
    simpa [mutexUnlock, Kernel.refs, Kernel.users] using hbalanced
  · obtain ⟨hkeys, hmutex, hclaimed, hclaims⟩ := hlocked
    simp at hmutex hclaimed
    refine ⟨hkeys, ?_, ?_, ?_⟩
    · change _ = 0
      split at hmutex <;> omega
    · omega
    · intro claim' hmem
      exact (hclaims claim' (Multiset.mem_add.mpr (Or.inr hmem))).shrink
        fun image hmem => ⟨hmem, rfl⟩

/-- The holder of the mutex may change its claim. -/
theorem Books.reclaim {tokens : List Token} {claim claim' : Claim}
    {frame : Multiset Token × Multiset Claim} (h : Books k (own tokens {claim} + frame))
    (hclaim : claim'.Holds k) : Books k (own tokens {claim'} + frame) := by
  obtain ⟨hreferences, hreleases, hbuffers, hkeys, hmutex, hclaimed, hclaims⟩ := h
  refine ⟨hreferences, hreleases, hbuffers, hkeys, hmutex, ?_, ?_⟩
  · simpa using hclaimed
  · intro claim'' hmem
    rcases Multiset.mem_add.mp hmem with hmem | hmem
    · rw [Multiset.mem_singleton.mp hmem]
      exact hclaim
    · exact hclaims claim'' (Multiset.mem_add.mpr (Or.inr hmem))

/-- The last reference leaves the image in the hands of the call. -/
theorem swaps_refcountDecAndTest (image : ℕ) :
    Swaps Books (own [.ref image] 0) label k
      (own (if (refcountDecAndTest image k).1 then [.dropped image] else []) 0)
      (refcountDecAndTest image k).2 := by
  intro frame hbooks
  obtain ⟨img, hget⟩ := hbooks.references.live image (Or.inl (by simp))
  have hbalanced := hbooks.references.some hget
  simp only [held_count] at hbalanced
  simp at hbalanced
  rw [refcountDecAndTest_eq hget]
  refine hbooks.move (setRefs_fixed hget _) (fun _ hmem => hmem) ⟨rfl, rfl, rfl, rfl, rfl⟩ ?_ ?_ rfl
    (hbooks.references.update image (fun image' hne => ?_) ?_)
  · intro buf
    simp only [held_count]
    split <;> simp
  · simp only [held_count]
    split <;> simp
  · refine ⟨(setRefs_refs _ image').trans (if_neg hne), rfl, rfl, ?_, ?_, ?_⟩ <;>
      simp only [held_count] <;> split <;> simp [hne.symm]
  · have hrefs : (k.setRefs image img (img.refs - 1)).refs image = some (img.refs - 1) :=
      (setRefs_refs _ image).trans (if_pos rfl)
    change Balanced ((k.setRefs image img (img.refs - 1)).refs image)
      (k.lru.count image) (k.users image) _ _ _
    rw [hrefs]
    simp only [held_count, Balanced, decide_eq_true_eq]
    split <;> simp <;> omega

theorem release_fixed {image : ℕ} {img : Image} (hget : k.images.get image = some img)
    (image' : ℕ) : (wasmExecImageRelease image k).fixed image' =
      if image' = image then none else k.fixed image' := by
  unfold wasmExecImageRelease Kernel.fixed
  simp only [hget]
  by_cases heq : image' = image
  · rw [if_pos heq, heq, JsMap.get_delete_self]
    rfl
  · rw [if_neg heq, JsMap.get_delete_of_ne _ heq]

theorem release_refs {image : ℕ} {img : Image} (hget : k.images.get image = some img) (image' : ℕ) :
    (wasmExecImageRelease image k).refs image' =
      if image' = image then none else k.refs image' := by
  unfold wasmExecImageRelease Kernel.refs
  simp only [hget]
  by_cases heq : image' = image
  · rw [if_pos heq, heq, JsMap.get_delete_self]
    rfl
  · rw [if_neg heq, JsMap.get_delete_of_ne _ heq]

theorem release_eq {image : ℕ} {img : Image} (hget : k.images.get image = some img) :
    wasmExecImageRelease image k = { k with
      images := k.images.delete image
      buffers := k.buffers.erase img.buf
      released := image :: k.released } := by
  unfold wasmExecImageRelease
  rw [hget]

theorem fixed_of_get {image : ℕ} {img : Image} (hget : k.images.get image = some img) :
    k.fixed image = some { img with refs := 0 } := by
  unfold Kernel.fixed
  rw [hget]
  rfl

theorem Releases.release (h : Releases k) {image : ℕ} {img : Image}
    (hget : k.images.get image = some img) : Releases (wasmExecImageRelease image k) := by
  obtain ⟨honce, hgone, hbound⟩ := h
  have hfixed := fixed_of_get hget
  constructor
  · rw [release_eq hget]
    refine List.nodup_cons.mpr ⟨fun hmem => ?_, honce⟩
    rw [(hgone image hmem).1] at hfixed
    cases hfixed
  · intro image' hmem
    rw [release_fixed hget, release_eq hget]
    rw [release_eq hget] at hmem
    rcases List.mem_cons.mp hmem with rfl | hmem
    · refine ⟨if_pos rfl, ?_⟩
      by_contra hle
      rw [hbound image' (Nat.le_of_not_lt hle)] at hfixed
      cases hfixed
    · refine ⟨?_, (hgone image' hmem).2⟩
      split
      · rfl
      · exact (hgone image' hmem).1
  · intro image' hle
    rw [release_fixed hget]
    rw [release_eq hget] at hle
    split
    · rfl
    · exact hbound image' hle

theorem Buffers.release {held held' : Multiset Token} (h : Buffers k held) {image : ℕ} {img : Image}
    (hget : k.images.get image = some img)
    (hheld : ∀ buf, held'.count (.buffer buf) = held.count (.buffer buf)) :
    Buffers (wasmExecImageRelease image k) held' := by
  have hfixed := fixed_of_get hget
  have hmem : ∀ buf, Token.buffer buf ∈ held' ↔ Token.buffer buf ∈ held := by
    intro buf
    rw [← Multiset.count_pos, ← Multiset.count_pos, hheld]
  obtain ⟨hnodup, howned, hshared, hsingle, hapart, hbound⟩ := h
  constructor
  · rw [release_eq hget]
    exact hnodup.erase img.buf
  · intro buf
    have hbuffers : (wasmExecImageRelease image k).buffers = k.buffers.erase img.buf := by
      rw [release_eq hget]
    rw [hbuffers, hnodup.mem_erase_iff, howned]
    simp only [release_fixed hget, hmem]
    constructor
    · rintro ⟨hne, ⟨image', img', himg', rfl⟩ | hbuf⟩
      · refine Or.inl ⟨image', img', ?_, rfl⟩
        rw [if_neg, himg']
        rintro rfl
        cases hfixed.symm.trans himg'
        exact hne rfl
      · exact Or.inr hbuf
    · rintro (⟨image', img', himg', rfl⟩ | hbuf)
      · split at himg'
        · cases himg'
        · rename_i hne
          refine ⟨fun heq => hne ?_, Or.inl ⟨image', img', himg', rfl⟩⟩
          exact hshared image' image img' _ himg' hfixed heq
      · refine ⟨?_, Or.inr hbuf⟩
        rintro rfl
        exact hapart image _ hfixed hbuf
  · intro image' image'' img' img'' himg' himg'' heq
    rw [release_fixed hget] at himg' himg''
    split at himg'
    · cases himg'
    · split at himg''
      · cases himg''
      · exact hshared image' image'' img' img'' himg' himg'' heq
  · intro buf
    rw [hheld]
    exact hsingle buf
  · intro image' img' himg'
    rw [release_fixed hget] at himg'
    split at himg'
    · cases himg'
    · rw [hmem]
      exact hapart image' img' himg'
  · intro buf hbuf
    rw [release_eq hget] at hbuf ⊢
    exact hbound buf (List.mem_of_mem_erase hbuf)

/-- A call that alone owns an image may release it, with its buffer. -/
theorem swaps_release (image : ℕ) (token : Token)
    (htoken : token = .evicted image ∨ token = .dropped image) :
    Swaps Books (own [token] 0) label k 0 (wasmExecImageRelease image k) := by
  intro frame hbooks
  rw [zero_add]
  have hheld : Token.evicted image ∈ (own [token] 0 + frame).1 ∨
      Token.dropped image ∈ (own [token] 0 + frame).1 := by
    rcases htoken with rfl | rfl
    · exact Or.inl (by simp)
    · exact Or.inr (by simp)
  obtain ⟨img, hget⟩ := hbooks.references.live image (Or.inr (hheld.imp_right Or.inl))
  have hbalanced := hbooks.references.some hget
  simp only [held_count] at hbalanced
  have hcount : ∀ t : Token, t ≠ token → frame.1.count t = (own [token] 0 + frame).1.count t := by
    intro t hne
    rw [held_count, List.count_singleton]
    simp [Ne.symm hne]
  -- the call's token is the only share there is
  have hshares : k.lru.count image = 0 ∧ k.users image = 0 ∧ frame.1.count (.ref image) = 0 ∧
      frame.1.count (.evicted image) = 0 ∧ frame.1.count (.dropped image) = 0 := by
    rcases htoken with rfl | rfl <;> simp at hbalanced <;> omega
  obtain ⟨hlisted, husers, href, hevicted, hdropped⟩ := hshares
  have hlocked : Locked k (own [token] 0 + frame).1 frame.2 := by
    simpa using hbooks.locked
  refine ⟨hbooks.references.update image (fun image' hne => ?_) ?_, hbooks.releases.release hget,
    hbooks.buffers.release hget fun buf => hcount _ ?_, hlocked.shrink ?_ ?_ ?_⟩
  · refine ⟨(release_refs hget image').trans (if_neg hne), by rw [release_eq hget],
      by rw [release_eq hget]; rfl, hcount _ ?_, hcount _ ?_, hcount _ ?_⟩ <;>
      rcases htoken with rfl | rfl <;> simp [hne]
  · rw [(release_refs hget image).trans (if_pos rfl), release_eq hget]
    change k.lru.count image + k.users image + _ + _ + _ = 0
    omega
  · rcases htoken with rfl | rfl <;> simp
  · intro image' hmem
    rw [release_eq hget] at hmem
    refine ⟨hmem, (release_fixed hget image').trans (if_neg ?_)⟩
    rintro rfl
    exact List.count_eq_zero.mp hlisted hmem
  · rw [release_eq hget]
  · exact hcount _ (by rcases htoken with rfl | rfl <;> simp)

theorem keyed_of_fixed {image : ℕ} {img : Image} {key : Key} (hfixed : k.fixed image = some img) :
    k.keyed key image = true ↔ img.key = key := by
  unfold Kernel.fixed at hfixed
  rw [Option.map_eq_some_iff] at hfixed
  obtain ⟨img', hget, rfl⟩ := hfixed
  unfold Kernel.keyed imageKeyMatches
  rw [hget]
  obtain ⟨sDev, iIno⟩ := key
  obtain ⟨refs, ⟨sDev', iIno'⟩, size, mtime, haveIVersion, iVersion, buf, bytes, bufSize⟩ := img'
  simp

/-- The image that leaves the list was the only one of its file. -/
theorem swaps_unhashStale {req : Request} {image : ℕ} (h : (unhashStale req k).1 = some image) :
    Swaps Books (own [.loadMutex] {.unmatched req}) label k
      (own [.loadMutex, .ref image] {.absent req.key}) (unhashStale req k).2 := by
  intro frame hbooks
  obtain ⟨hfind, hk⟩ : k.lru.find? (k.keyed req.key) = some image ∧
      (unhashStale req k).2 = { k with lru := k.lru.erase image } := by
    unfold unhashStale at h ⊢
    split at h
    · rename_i image' hfind
      split at h
      · cases h
      · rename_i hhits
        cases h
        exact ⟨hfind, by rw [if_neg hhits]⟩
    · cases h
  have hmem : image ∈ k.lru := List.mem_of_find?_eq_some hfind
  have hkeyed : k.keyed req.key image = true := List.find?_some hfind
  have hcount := List.count_pos_iff.mpr hmem
  have hnodup := hbooks.references.nodup
  obtain ⟨img, hget⟩ := hbooks.references.live image (Or.inr (Or.inr (Or.inr (Or.inl hmem))))
  have hbalanced := hbooks.references.some hget
  rw [hk]
  have hmoved : Books { k with lru := k.lru.erase image }
      (own [.loadMutex, .ref image] {.unmatched req} + frame) := by
    refine hbooks.move (fun _ => rfl) (fun _ hmem' => List.mem_of_mem_erase hmem')
      ⟨rfl, rfl, rfl, rfl, rfl⟩ (by simp) ?_ rfl
      (hbooks.references.update image (fun image' hne => ?_) ?_)
    · simp only [held_count]
      simp
    · refine ⟨rfl, List.count_erase_of_ne hne, rfl, ?_, ?_, ?_⟩
      all_goals
        simp only [held_count]
        simp [hne.symm]
    · simp only [held_count] at hbalanced ⊢
      change Balanced (k.refs image) ((k.lru.erase image).count image) (k.users image) _ _ _
      have hrefs : k.refs image = some img.refs := by
        unfold Kernel.refs
        rw [hget]
        rfl
      rw [hrefs]
      simp [Balanced] at hbalanced ⊢
      omega
  refine hmoved.reclaim fun image' hmem' => ?_
  have hold : image' ∈ k.lru ∧ image' ≠ image := by
    rw [hnodup.mem_erase_iff] at hmem'
    exact ⟨hmem'.2, hmem'.1⟩
  change k.keyed req.key image' = false
  by_contra hother
  have hkeyed' : k.keyed req.key image' = true := by simpa using hother
  obtain ⟨img', hget'⟩ := hbooks.references.live image' (Or.inr (Or.inr (Or.inr (Or.inl hold.1))))
  refine hold.2 (hbooks.locked.keys image' hold.1 image hmem _ _ (fixed_of_get hget')
    (fixed_of_get hget) ?_)
  rw [(keyed_of_fixed (fixed_of_get hget')).mp hkeyed',
    (keyed_of_fixed (fixed_of_get hget)).mp hkeyed]

/-- Where nothing leaves the list there was no image of the file: a match was ruled out
under the mutex. -/
theorem swaps_unhashStale_none {req : Request} (h : (unhashStale req k).1 = none) :
    Swaps Books (own [.loadMutex] {.unmatched req}) label k (own [.loadMutex] {.absent req.key})
      (unhashStale req k).2 := by
  intro frame hbooks
  have hunmatched : Claim.Holds k (.unmatched req) := hbooks.locked.claims _ (by simp)
  obtain ⟨hfind, hk⟩ : k.lru.find? (k.keyed req.key) = none ∧ (unhashStale req k).2 = k := by
    unfold unhashStale at h ⊢
    split at h
    · rename_i image hfind
      split at h
      · rename_i hhits
        rw [hunmatched image (List.mem_of_find?_eq_some hfind)] at hhits
        cases hhits
      · cases h
    · rename_i hfind
      exact ⟨hfind, rfl⟩
  rw [hk]
  refine hbooks.reclaim fun image hmem => ?_
  simpa using List.find?_eq_none.mp hfind image hmem

theorem takeIdle_spec (maxBytes : ℕ) (images : List ℕ) (evicted : ℕ) :
    (takeIdle k maxBytes images evicted).Sublist images ∧
      ∀ image ∈ takeIdle k maxBytes images evicted, k.idle image = true := by
  induction images generalizing evicted with
  | nil => exact ⟨List.Sublist.refl _, fun image hmem => by cases hmem⟩
  | cons image images ih =>
    simp only [takeIdle]
    split
    · exact ⟨List.nil_sublist _, fun image hmem => by cases hmem⟩
    · split
      · rename_i hidle
        obtain ⟨hsub, hall⟩ := ih (evicted + k.bufSize image)
        refine ⟨hsub.cons_cons image, fun image' hmem => ?_⟩
        rcases List.mem_cons.mp hmem with rfl | hmem
        · exact hidle
        · exact hall image' hmem
      · obtain ⟨hsub, hall⟩ := ih evicted
        exact ⟨hsub.cons image, hall⟩

/-- Idle images leave the list with the reference of the list. -/
theorem swaps_evictWalk (maxBytes : ℕ) :
    Swaps Books 0 label k (own ((evictWalk maxBytes k).1.map .evicted) 0)
      (evictWalk maxBytes k).2 := by
  intro frame hbooks
  rw [zero_add] at hbooks
  obtain ⟨hsub, hidle⟩ := takeIdle_spec (k := k) maxBytes k.lru.reverse 0
  have hnodup := hbooks.references.nodup
  have htaken : (takeIdle k maxBytes k.lru.reverse 0).Nodup :=
    (List.nodup_reverse.mpr hnodup).sublist hsub
  have htokens : ∀ image, ((evictWalk maxBytes k).1.map Token.evicted).count (.evicted image) =
      (takeIdle k maxBytes k.lru.reverse 0).count image := by
    intro image
    rw [List.count_map_of_injective _ _ fun a b heq => Token.evicted.inj heq]
    exact List.count_reverse
  have hothers : ∀ token : Token, (∀ image, token ≠ .evicted image) →
      ((evictWalk maxBytes k).1.map Token.evicted).count token = 0 := by
    intro token hne
    rw [List.count_eq_zero]
    intro hmem
    obtain ⟨image, -, rfl⟩ := List.mem_map.mp hmem
    exact hne image rfl
  refine hbooks.move (fun _ => rfl) (fun _ hmem => List.mem_of_mem_filter hmem)
    ⟨rfl, rfl, rfl, rfl, rfl⟩ ?_ ?_ (zero_add _) fun image => ?_
  · intro buf
    rw [held_count, hothers _ (by simp), zero_add]
  · rw [held_count, hothers _ (by simp), zero_add]
  · rw [held_count, held_count, held_count, htokens, hothers (.ref image) (by simp),
      hothers (.dropped image) (by simp), zero_add, zero_add]
    have hbalanced := hbooks.references image
    change Balanced (k.refs image)
      ((k.lru.filter fun image => image ∉ takeIdle k maxBytes k.lru.reverse 0).count image)
      (k.users image) _ _ _
    by_cases hmem : image ∈ takeIdle k maxBytes k.lru.reverse 0
    · have hlisted : image ∈ k.lru := List.mem_reverse.mp (hsub.subset hmem)
      have hone : k.lru.count image = 1 := List.count_eq_one_of_mem hnodup hlisted
      have hgone : (k.lru.filter fun image => image ∉ takeIdle k maxBytes k.lru.reverse 0).count
          image = 0 := by
        rw [List.count_eq_zero]
        simp [hmem]
      have hrefs : k.refs image = some 1 := by
        have himage := hidle image hmem
        unfold Kernel.idle at himage
        unfold Kernel.refs
        cases hget : k.images.get image with
        | none => simp [hget] at himage
        | some img => simpa [hget] using himage
      rw [hgone, List.count_eq_one_of_mem htaken hmem, hrefs]
      rw [hrefs, hone] at hbalanced
      simp only [Balanced] at hbalanced ⊢
      omega
    · have hsame : (k.lru.filter fun image => image ∉ takeIdle k maxBytes k.lru.reverse 0).count
          image = k.lru.count image := List.count_filter (by simpa using hmem)
      rw [hsame, List.count_eq_zero.mpr hmem, zero_add]
      exact hbalanced

theorem swaps_allocPagesExact {buf : ℕ} (h : (allocPagesExact k).1 = some buf) :
    Swaps Books 0 label k (own [.buffer buf] 0) (allocPagesExact k).2 := by
  intro frame hbooks
  rw [zero_add] at hbooks
  obtain ⟨rfl, hk⟩ : k.nextBuffer = buf ∧ (allocPagesExact k).2 = { k with
      buffers := k.nextBuffer :: k.buffers
      nextBuffer := k.nextBuffer + 1
      draws := k.draws + 1 } := by
    unfold allocPagesExact at h ⊢
    split at h
    · rename_i hmemory
      cases h
      exact ⟨rfl, by rw [if_pos hmemory]⟩
    · cases h
  rw [hk]
  obtain ⟨hreferences, hreleases, ⟨hnodup, howned, hshared, hsingle, hapart, hbound⟩, hlocked⟩ :=
    hbooks
  have hnew : k.nextBuffer ∉ k.buffers := fun hmem => Nat.lt_irrefl _ (hbound _ hmem)
  refine ⟨fun image => ?_, hreleases.congr (fun _ => rfl) rfl rfl, ?_, ?_⟩
  · have hbalanced := hreferences image
    simp only [held_count]
    simpa [Kernel.refs, Kernel.users] using hbalanced
  · refine ⟨List.nodup_cons.mpr ⟨hnew, hnodup⟩, fun buf => ?_, hshared, fun buf => ?_,
      fun image img himg => ?_, fun buf hmem => ?_⟩
    · have hbuf := howned buf
      change buf ∈ k.nextBuffer :: k.buffers ↔ (∃ image img, k.fixed image = some img ∧ _) ∨ _
      rw [List.mem_cons, hbuf]
      simp only [Prod.fst_add, own_tokens, Multiset.mem_add, Multiset.mem_coe, List.mem_singleton,
        Token.buffer.injEq]
      exact or_left_comm
    · have hle := hsingle buf
      rw [held_count]
      by_cases heq : buf = k.nextBuffer
      · subst heq
        have hzero : frame.1.count (.buffer k.nextBuffer) = 0 :=
          Multiset.count_eq_zero.mpr fun hmem => hnew ((howned _).mpr (Or.inr hmem))
        simp [hzero]
      · simpa [Ne.symm heq] using hle
    · have hnot := hapart image img himg
      intro hmem
      rcases Multiset.mem_add.mp hmem with hmem | hmem
      · have heq : img.buf = k.nextBuffer := by simpa using hmem
        exact hnew (heq ▸ (howned _).mpr (Or.inl ⟨image, img, himg, rfl⟩))
      · exact hnot hmem
    · rcases List.mem_cons.mp hmem with rfl | hmem
      · exact Nat.lt_succ_self _
      · exact Nat.lt_succ_of_lt (hbound buf hmem)
  · have hlocked' : Locked k frame.1 (own [.buffer k.nextBuffer] 0 + frame).2 := by
      simpa using hlocked
    exact hlocked'.shrink (fun _ hmem => ⟨hmem, rfl⟩) rfl (by simp)

theorem swaps_freePagesExact (buf : ℕ) :
    Swaps Books (own [.buffer buf] 0) label k 0 (freePagesExact buf k).2 := by
  intro frame hbooks
  rw [zero_add]
  obtain ⟨hreferences, hreleases, ⟨hnodup, howned, hshared, hsingle, hapart, hbound⟩, hlocked⟩ :=
    hbooks
  have hzero : frame.1.count (.buffer buf) = 0 := by
    have hle := hsingle buf
    rw [held_count, List.count_cons_self] at hle
    omega
  have hother : ∀ buf', buf' ≠ buf → (Token.buffer buf' ∈ frame.1 ↔
      Token.buffer buf' ∈ (own [.buffer buf] 0 + frame).1) := by
    intro buf' hne
    rw [← Multiset.count_pos, ← Multiset.count_pos, held_count]
    simp [hne.symm]
  refine ⟨fun image => ?_, hreleases.congr (fun _ => rfl) rfl rfl, ?_, ?_⟩
  · have hbalanced := hreferences image
    simp only [held_count] at hbalanced
    simpa [freePagesExact, Kernel.refs, Kernel.users] using hbalanced
  · refine ⟨hnodup.erase buf, fun buf' => ?_, hshared, fun buf' => ?_,
      fun image img himg hmem => ?_, fun buf' hmem => hbound buf' (List.mem_of_mem_erase hmem)⟩
    · change buf' ∈ k.buffers.erase buf ↔ (∃ image img, k.fixed image = some img ∧ _) ∨ _
      rw [hnodup.mem_erase_iff, howned]
      by_cases heq : buf' = buf
      · subst heq
        constructor
        · rintro ⟨hne, -⟩
          exact absurd rfl hne
        · rintro (⟨image, img, himg, rfl⟩ | hmem)
          · exact absurd (by simp) (hapart image img himg)
          · exact absurd hmem (Multiset.count_eq_zero.mp hzero)
      · rw [hother buf' heq]
        exact and_iff_right heq
    · have hle := hsingle buf'
      rw [held_count] at hle
      omega
    · exact hapart image img himg (Multiset.mem_add.mpr (Or.inr hmem))
  · have hlocked' : Locked k (own [.buffer buf] 0 + frame).1 frame.2 := by
      simpa using hlocked
    exact hlocked'.shrink (fun _ hmem => ⟨hmem, rfl⟩) rfl (by simp)

theorem insert_get (req : Request) (buf : ℕ) (bytes : List ℕ) (image : ℕ) :
    (insertImage req buf bytes k).2.images.get image =
      if image = k.nextImage then some ⟨2, req.key, req.wholeSize, req.mtime, req.haveIVersion,
        req.iVersion, buf, bytes, req.wholeSize⟩ else k.images.get image := by
  unfold insertImage
  by_cases heq : image = k.nextImage
  · rw [if_pos heq, heq, JsMap.get_set_self]
  · rw [if_neg heq, JsMap.get_set_of_ne _ _ heq]

theorem insert_fixed (req : Request) (buf : ℕ) (bytes : List ℕ) (image : ℕ) :
    (insertImage req buf bytes k).2.fixed image =
      if image = k.nextImage then some ⟨0, req.key, req.wholeSize, req.mtime, req.haveIVersion,
        req.iVersion, buf, bytes, req.wholeSize⟩ else k.fixed image := by
  unfold Kernel.fixed
  rw [insert_get]
  split <;> rfl

theorem Releases.insert (h : Releases k) (req : Request) (buf : ℕ) (bytes : List ℕ) :
    Releases (insertImage req buf bytes k).2 := by
  obtain ⟨honce, hgone, hbound⟩ := h
  refine ⟨honce, fun image hmem => ?_, fun image hle => ?_⟩
  · have hlt := (hgone image hmem).2
    rw [insert_fixed, if_neg (Nat.ne_of_lt hlt)]
    exact ⟨(hgone image hmem).1, Nat.lt_succ_of_lt hlt⟩
  · have hlt : k.nextImage < image := hle
    rw [insert_fixed, if_neg (Nat.ne_of_gt hlt)]
    exact hbound image hlt.le

/-- The buffer goes from the call to the new image. -/
theorem Buffers.insert {held held' : Multiset Token} (h : Buffers k held) (hreleases : Releases k)
    {buf : ℕ} (hbuf : .buffer buf ∈ held) (hmoved : ∀ buf', held'.count (.buffer buf') =
      held.count (.buffer buf') - if buf' = buf then 1 else 0) (req : Request) (bytes : List ℕ) :
    Buffers (insertImage req buf bytes k).2 held' := by
  obtain ⟨hnodup, howned, hshared, hsingle, hapart, hbound⟩ := h
  have hmem : ∀ buf', .buffer buf' ∈ held' ↔ .buffer buf' ∈ held ∧ buf' ≠ buf := by
    intro buf'
    have hle := hsingle buf'
    rw [← Multiset.count_pos, ← Multiset.count_pos, hmoved]
    split <;> omega
  have hnew : ∀ image img, k.fixed image = some img → image ≠ k.nextImage := by
    rintro image img himg rfl
    rw [hreleases.bound k.nextImage (Nat.le_refl _)] at himg
    cases himg
  refine ⟨hnodup, fun buf' => ?_, ?_, fun buf' => ?_, ?_, hbound⟩
  · change buf' ∈ k.buffers ↔ _
    rw [howned]
    simp only [insert_fixed, hmem]
    constructor
    · rintro (⟨image, img, himg, rfl⟩ | hheld)
      · exact Or.inl ⟨image, img, by rw [if_neg (hnew image img himg), himg], rfl⟩
      · by_cases heq : buf' = buf
        · exact Or.inl ⟨k.nextImage, _, if_pos rfl, heq.symm⟩
        · exact Or.inr ⟨hheld, heq⟩
    · rintro (⟨image, img, himg, rfl⟩ | hheld)
      · split at himg
        · cases himg
          exact Or.inr hbuf
        · exact Or.inl ⟨image, img, himg, rfl⟩
      · exact Or.inr hheld.1
  · intro image image' img img' himg himg' heq
    rw [insert_fixed] at himg himg'
    split at himg
    · rename_i hnext
      split at himg'
      · rename_i hnext'
        rw [hnext, hnext']
      · cases himg
        exact absurd (show Token.buffer img'.buf ∈ held from heq ▸ hbuf) (hapart image' img' himg')
    · split at himg'
      · cases himg'
        exact absurd (show Token.buffer img.buf ∈ held from heq ▸ hbuf) (hapart image img himg)
      · exact hshared image image' img img' himg himg' heq
  · rw [hmoved]
    exact (Nat.sub_le _ _).trans (hsingle buf')
  · intro image img himg
    rw [insert_fixed] at himg
    rw [hmem]
    split at himg
    · cases himg
      exact fun hheld => hheld.2 rfl
    · exact fun hheld => hapart image img himg hheld.1

/-- A new image goes to the front of the list, where none of its file is. -/
theorem swaps_insertImage (req : Request) (buf : ℕ) (bytes : List ℕ) :
    Swaps Books (own [.loadMutex, .buffer buf] {.absent req.key}) label k
      (own [.loadMutex, .ref k.nextImage] {.nothing}) (insertImage req buf bytes k).2 := by
  intro frame hbooks
  obtain ⟨hreferences, hreleases, hbuffers, hlocked⟩ := hbooks
  have hnone : k.images.get k.nextImage = none := by
    have hfixed := hreleases.bound k.nextImage (Nat.le_refl _)
    unfold Kernel.fixed at hfixed
    exact Option.map_eq_none_iff.mp hfixed
  have hfresh := hreferences k.nextImage
  simp only [Kernel.refs, hnone, Option.map_none, Balanced, held_count] at hfresh
  refine ⟨hreferences.update k.nextImage (fun image hne => ?_) ?_, hreleases.insert req buf bytes,
    hbuffers.insert hreleases (by simp) ?_ req bytes, ?_⟩
  · refine ⟨?_, ?_, rfl, ?_, ?_, ?_⟩
    · unfold Kernel.refs
      rw [insert_get, if_neg hne]
    · exact List.count_cons_of_ne hne.symm
    all_goals
      simp only [held_count]
      simp [hne.symm]
  · have hrefs : (insertImage req buf bytes k).2.refs k.nextImage = some 2 := by
      unfold Kernel.refs
      rw [insert_get, if_pos rfl]
      rfl
    rw [hrefs]
    change Balanced (some 2) ((k.nextImage :: k.lru).count k.nextImage) (k.users k.nextImage) _ _ _
    obtain ⟨hlisted, husers, href, hevicted, hdropped⟩ : k.lru.count k.nextImage = 0 ∧
        k.users k.nextImage = 0 ∧ frame.1.count (.ref k.nextImage) = 0 ∧
        frame.1.count (.evicted k.nextImage) = 0 ∧ frame.1.count (.dropped k.nextImage) = 0 := by
      omega
    simp only [held_count, Balanced, List.count_cons_self, hlisted, husers, href,
      hevicted, hdropped]
    simp
  · intro buf'
    simp only [held_count]
    by_cases heq : buf' = buf
    · subst heq
      simp
    · simp [heq, Ne.symm heq]
  · obtain ⟨hkeys, hmutex, hclaimed, hclaims⟩ := hlocked
    have habsent : Claim.Holds k (.absent req.key) := hclaims _ (by simp)
    have hnotNew : ∀ image ∈ k.lru, image ≠ k.nextImage := by
      rintro image hmem rfl
      have hzero : k.lru.count k.nextImage = 0 := by omega
      exact List.count_eq_zero.mp hzero hmem
    have hother : ∀ image ∈ k.lru, ∀ img, (insertImage req buf bytes k).2.fixed image = some img →
        img.key ≠ req.key := by
      intro image hmem img himg heq
      rw [insert_fixed, if_neg (hnotNew image hmem)] at himg
      have hkeyed := (keyed_of_fixed himg).mpr heq
      rw [habsent image hmem] at hkeyed
      cases hkeyed
    have hself : ∀ img, (insertImage req buf bytes k).2.fixed k.nextImage = some img →
        img.key = req.key := by
      intro img himg
      rw [insert_fixed, if_pos rfl] at himg
      cases himg
      rfl
    refine ⟨?_, ?_, ?_, ?_⟩
    · intro image hmem image' hmem' img img' himg himg' heq
      rcases List.mem_cons.mp hmem with rfl | hmem
      · rcases List.mem_cons.mp hmem' with rfl | hmem'
        · rfl
        · exact absurd (heq.symm.trans (hself img himg)) (hother image' hmem' img' himg')
      · rcases List.mem_cons.mp hmem' with rfl | hmem'
        · exact absurd (heq.trans (hself img' himg')) (hother image hmem img himg)
        · rw [insert_fixed, if_neg (hnotNew image hmem)] at himg
          rw [insert_fixed, if_neg (hnotNew image' hmem')] at himg'
          exact hkeys image hmem image' hmem' img img' himg himg' heq
    · change _ = if k.loadMutex then 1 else 0
      rw [← hmutex]
      simp only [held_count]
      simp
    · simp only [held_count] at hclaimed ⊢
      simpa using hclaimed
    · -- nobody else can claim anything: there is one mutex
      intro claim hmem
      simp only [held_count] at hmutex hclaimed
      have hrest : frame.2 = 0 := by
        rw [← Multiset.card_eq_zero]
        simp at hmutex hclaimed
        split at hmutex <;> omega
      rw [Prod.snd_add, own_claims, hrest, add_zero] at hmem
      rw [Multiset.mem_singleton.mp hmem]
      trivial

/-- A new address space takes over the reference of a call. -/
theorem swaps_attach (image mm : ℕ) (draws : ℕ) :
    Swaps Books (own [.ref image] 0) label k 0
      { k with mms := (k.nextMm, image) :: k.mms, nextMm := mm, draws := draws } := by
  intro frame hbooks
  rw [zero_add]
  obtain ⟨img, hget⟩ := hbooks.references.live image (Or.inl (by simp))
  have hbalanced := hbooks.references.some hget
  refine hbooks.move (fun _ => rfl) (fun _ hmem => hmem) ⟨rfl, rfl, rfl, rfl, rfl⟩
    (by simp) (by simp)
    (by simp) (hbooks.references.update image (fun image' hne => ?_) ?_)
  · refine ⟨rfl, rfl, List.count_cons_of_ne hne.symm, ?_, ?_, ?_⟩
    all_goals
      simp only [held_count]
      simp [hne.symm]
  · have hrefs : k.refs image = some img.refs := by
      unfold Kernel.refs
      rw [hget]
      rfl
    change Balanced (k.refs image) _ ((image :: k.mms.map Prod.snd).count image) _ _ _
    have husers : k.users image = (k.mms.map Prod.snd).count image := rfl
    simp only [held_count, List.count_cons_self] at hbalanced
    rw [hrefs, List.count_cons_self]
    simp [Balanced] at hbalanced ⊢
    omega

theorem mem_of_image {mm image : ℕ} (h : k.image mm = some image) : image ∈ k.mms.map Prod.snd := by
  unfold Kernel.image at h
  obtain ⟨entry, hfind, rfl⟩ := Option.map_eq_some_iff.mp h
  exact List.mem_map_of_mem (List.mem_of_find?_eq_some hfind)

/-- A fork takes a reference for the child. -/
theorem swaps_dupMmap {oldmm image : ℕ} (h : k.image oldmm = some image) :
    Swaps Books 0 label k 0 { refcountInc image k with
      mms := (k.nextMm, image) :: k.mms
      nextMm := k.nextMm + 1 } := by
  intro frame hbooks
  rw [zero_add] at hbooks ⊢
  obtain ⟨img, hget⟩ :=
    hbooks.references.live image (Or.inr (Or.inr (Or.inr (Or.inr (mem_of_image h)))))
  have hbalanced := hbooks.references.some hget
  rw [refcountInc_eq hget]
  refine hbooks.move (setRefs_fixed hget _) (fun _ hmem => hmem) ⟨rfl, rfl, rfl, rfl, rfl⟩
    (fun _ => rfl) rfl rfl (hbooks.references.update image (fun image' hne => ?_) ?_)
  · exact ⟨(setRefs_refs _ image').trans (if_neg hne), rfl,
      List.count_cons_of_ne hne.symm, rfl, rfl,
      rfl⟩
  · have hrefs : (k.setRefs image img (img.refs + 1)).refs image = some (img.refs + 1) :=
      (setRefs_refs _ image).trans (if_pos rfl)
    have husers : k.users image = (k.mms.map Prod.snd).count image := rfl
    change Balanced ((k.setRefs image img (img.refs + 1)).refs image) (k.lru.count image)
      ((image :: k.mms.map Prod.snd).count image) _ _ _
    have hpos := List.count_pos_iff.mpr (mem_of_image h)
    rw [hrefs, List.count_cons_self]
    simp only [Balanced]
    omega

/-- The entry that is found is the one that is erased. -/
theorem count_eraseP {mms : List (ℕ × ℕ)} {mm image : ℕ}
    (h : (mms.find? fun entry => entry.1 = mm).map Prod.snd = some image) (image' : ℕ) :
    ((mms.eraseP fun entry => entry.1 = mm).map Prod.snd).count image' +
      (if image' = image then 1 else 0) = (mms.map Prod.snd).count image' := by
  induction mms with
  | nil => simp at h
  | cons entry mms ih =>
    by_cases heq : entry.1 = mm
    · have himage : entry.2 = image := by simpa [heq] using h
      rw [List.eraseP_cons_of_pos (by simpa using heq), List.map_cons, List.count_cons, himage]
      by_cases hsame : image' = image
      · simp [hsame]
      · simp [hsame, Ne.symm hsame]
    · have hrest : (mms.find? fun entry => entry.1 = mm).map Prod.snd = some image := by
        simpa [heq] using h
      rw [List.eraseP_cons_of_neg (by simpa using heq), List.map_cons, List.map_cons,
        List.count_cons, List.count_cons, ← ih hrest]
      omega

/-- The reference of an address space goes to the call that ends it. -/
theorem swaps_destroyContext {mm image : ℕ} (h : k.image mm = some image) :
    Swaps Books 0 label k (own [.ref image] 0)
      { k with mms := k.mms.eraseP fun entry => entry.1 = mm } := by
  intro frame hbooks
  rw [zero_add] at hbooks
  obtain ⟨img, hget⟩ :=
    hbooks.references.live image (Or.inr (Or.inr (Or.inr (Or.inr (mem_of_image h)))))
  have hbalanced := hbooks.references.some hget
  refine hbooks.move (fun _ => rfl) (fun _ hmem => hmem) ⟨rfl, rfl, rfl, rfl, rfl⟩
    (by simp) (by simp)
    (by simp) (hbooks.references.update image (fun image' hne => ?_) ?_)
  · refine ⟨rfl, rfl, ?_, ?_, ?_, ?_⟩
    · have hcount := count_eraseP h image'
      rw [if_neg hne] at hcount
      exact hcount
    all_goals
      simp only [held_count]
      simp [hne.symm]
  · have hrefs : k.refs image = some img.refs := by
      unfold Kernel.refs
      rw [hget]
      rfl
    have hcount := count_eraseP h image
    rw [if_pos rfl] at hcount
    have husers : k.users image = (k.mms.map Prod.snd).count image := rfl
    change Balanced (k.refs image) _
      (((k.mms.eraseP fun entry => entry.1 = mm).map Prod.snd).count image) _ _ _
    rw [hrefs]
    simp only [held_count, Balanced]
    simp
    omega

/-- Steps that leave the account alone. -/
theorem swaps_quiet {k' : Kernel} (hk : k' = { k with inodes := k'.inodes, draws := k'.draws }) :
    Swaps Books 0 label k 0 k' := by
  intro frame hbooks
  rw [zero_add] at hbooks ⊢
  rw [hk]
  exact hbooks.move (fun _ => rfl) (fun _ hmem => hmem) ⟨rfl, rfl, rfl, rfl, rfl⟩
    (fun _ => rfl) rfl rfl
    hbooks.references

end Sections

end NixWasm.ExecImage
