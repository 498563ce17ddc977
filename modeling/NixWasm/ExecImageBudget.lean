import NixWasm.ExecImageRefs
import Mathlib.Algebra.Order.BigOperators.Group.List
import Mathlib.Algebra.Order.Group.Nat

/-!
The budget of the image cache, in runs of one call after the other. Images that only the
list refers to are kept up to a number of bytes; beyond it the least recently obtained go
first, and no more of them than needed.
-/
namespace NixWasm.ExecImage

open Coroutines Effects Runs

/-- One use of the cache: an image that is obtained goes to a new address space. Files
may be modified between uses. -/
inductive Use where
  | get (key : Key) (wholeSize : ℕ) (head : List ℕ)
  | put (mm : ℕ)
  | ref (mm : ℕ)
  | modify (key : Key) (version : Version)

def hold (image : ℕ) (k : Kernel) : Unit × Kernel :=
  ((), { k with mms := (k.nextMm, image) :: k.mms, nextMm := k.nextMm + 1 })

def Use.program : Use → Program Unit
  | .get key wholeSize head => do
    match ← wasmExecImageGet key wholeSize head with
    | .ok image => .act ⟨.returned image wholeSize, [.ref image]⟩ (hold image)
    | .error _ => return ()
  | .put mm => destroyContext mm
  | .ref mm => archDupMmap mm
  | .modify _ _ => return ()

/-- A use without an interruption. -/
def Use.apply (k : Kernel) (use : Use) : Kernel :=
  match use with
  | .modify key version => writeFile key version k
  | use => final (use.program.alone k)

/-- The images in the order in which they were last obtained, the latest first. -/
def latestFirst : List ℕ → List ℕ
  | [] => []
  | image :: earlier => image :: (latestFirst earlier).erase image

/-- The idle images of the list, the least recently obtained first. -/
def Kernel.idleByAge (k : Kernel) : List ℕ :=
  ((latestFirst k.obtained).filter fun image => image ∈ k.lru ∧ k.idle image).reverse

def Kernel.total (k : Kernel) (images : List ℕ) : ℕ := (images.map k.bufSize).sum

/-- The shortest first part of the images that covers the excess. -/
structure Covers (k : Kernel) (excess : ℕ) (images series : List ℕ) : Prop where
  first : series <+: images
  covers : excess ≤ k.total series
  shortest : ∀ shorter, shorter <+: images → shorter.length < series.length →
    k.total shorter < excess

/-- The images that a step takes off the list, the latest first. -/
def Kernel.leaving (k k' : Kernel) : List ℕ := k.lru.filter fun image => image ∉ k'.lru

/-- What a step does to the list. Apart from a stale image, only an eviction takes images off
it, and none that an address space holds; an eviction for the cap takes the oldest idle images
as far as they are needed. -/
structure Evicts (label : Label) (k k' : Kernel) : Prop where
  only : k.leaving k' ≠ [] →
    label.point = .unhash ∨ ∃ reason maxBytes, label.point = .evictWalk reason maxBytes
  unheld : label.point ≠ .unhash → ∀ image ∈ k.leaving k', k.users image = 0
  cap : ∀ maxBytes, label.point = .evictWalk .cap maxBytes → capBytes < k.idleTotal ∧
    Covers k (k.idleTotal - capBytes) k.idleByAge (k.leaving k').reverse ∧ k'.lru.Sublist k.lru

section Lists

theorem latestFirst_nodup (images : List ℕ) : (latestFirst images).Nodup := by
  induction images with
  | nil => exact List.nodup_nil
  | cons image images ih =>
    exact List.nodup_cons.mpr ⟨ih.not_mem_erase, ih.erase image⟩

/-- A part of a list without repetitions, found again in the list. -/
theorem filter_mem_of_sublist {part whole : List ℕ} (h : part.Sublist whole)
    (hnodup : whole.Nodup) : whole.filter (fun image => image ∈ part) = part := by
  induction h with
  | slnil => rfl
  | @cons part whole image h ih =>
    have hnot : image ∉ part := fun hmem => (List.nodup_cons.mp hnodup).1 (h.subset hmem)
    rw [List.filter_cons_of_neg (by simpa using hnot)]
    exact ih (List.nodup_cons.mp hnodup).2
  | @cons_cons part whole image h ih =>
    obtain ⟨hnot, hnodup⟩ := List.nodup_cons.mp hnodup
    rw [List.filter_cons_of_pos (by simp)]
    have hsame : whole.filter (fun image' => image' ∈ image :: part) =
        whole.filter (fun image' => image' ∈ part) := by
      refine List.filter_congr fun image' hmem => ?_
      have hne : image' ≠ image := fun heq => hnot (heq ▸ hmem)
      simp [hne]
    rw [hsame, ih hnodup]

end Lists

section Idle

variable {k k' : Kernel}

theorem idleTotal_eq (k : Kernel) : k.idleTotal = k.total (k.lru.filter k.idle) := rfl

theorem total_append (k : Kernel) (images images' : List ℕ) :
    k.total (images ++ images') = k.total images + k.total images' := by
  simp [Kernel.total]

theorem total_reverse (k : Kernel) (images : List ℕ) : k.total images.reverse = k.total images := by
  simp [Kernel.total]

/-- What an image adds to the idle total. -/
def Kernel.idleSize (k : Kernel) (image : ℕ) : ℕ := if k.idle image then k.bufSize image else 0

theorem idleTotal_eq_sum (k : Kernel) : k.idleTotal = (k.lru.map k.idleSize).sum := by
  unfold Kernel.idleTotal
  induction k.lru with
  | nil => rfl
  | cons image images ih =>
    by_cases hidle : k.idle image = true
    · simp [Kernel.idleSize, hidle, ih]
    · simp [Kernel.idleSize, hidle, ih]

/-- The idle total only grows where an image becomes idle. -/
theorem idleTotal_le (hlru : k'.lru.Subperm k.lru)
    (hidle : ∀ image ∈ k'.lru, k'.idle image = true →
      k.idle image = true ∧ k'.bufSize image = k.bufSize image) : k'.idleTotal ≤ k.idleTotal := by
  rw [idleTotal_eq_sum, idleTotal_eq_sum]
  obtain ⟨images, hperm, hsub⟩ := hlru
  calc (k'.lru.map k'.idleSize).sum ≤ (k'.lru.map k.idleSize).sum := by
        refine List.sum_le_sum fun image hmem => ?_
        unfold Kernel.idleSize
        split
        · rename_i hnow
          rw [if_pos (hidle image hmem hnow).1, (hidle image hmem hnow).2]
        · exact Nat.zero_le _
    _ = (images.map k.idleSize).sum := ((hperm.map k.idleSize).sum_eq).symm
    _ ≤ (k.lru.map k.idleSize).sum :=
        (hsub.map k.idleSize).sum_le_sum fun _ _ => Nat.zero_le _

/-- The walk takes the shortest first part of the idle images that covers what is wanted. -/
theorem takeIdle_covers (maxBytes : ℕ) (images : List ℕ) (evicted : ℕ) :
    takeIdle k maxBytes images evicted <+: images.filter k.idle ∧
      (maxBytes ≤ evicted + k.total (images.filter k.idle) →
        maxBytes ≤ evicted + k.total (takeIdle k maxBytes images evicted)) ∧
      ∀ shorter, shorter <+: images.filter k.idle →
        shorter.length < (takeIdle k maxBytes images evicted).length →
        evicted + k.total shorter < maxBytes := by
  induction images generalizing evicted with
  | nil => exact ⟨List.prefix_rfl, fun h => h, fun shorter _ hlen => (Nat.not_lt_zero _ hlen).elim⟩
  | cons image images ih =>
    simp only [takeIdle]
    split
    · rename_i hfull
      refine ⟨List.nil_prefix, fun _ => Nat.le_trans hfull (Nat.le_add_right _ _),
        fun shorter _ hlen => (Nat.not_lt_zero _ hlen).elim⟩
    · rename_i hroom
      split
      · rename_i hidle
        rw [List.filter_cons_of_pos hidle]
        obtain ⟨hprior, hcovers, hshortest⟩ := ih (evicted + k.bufSize image)
        refine ⟨List.cons_prefix_cons.mpr ⟨rfl, hprior⟩, fun hle => ?_,
          fun shorter hshorter hlen => ?_⟩
        · simp only [Kernel.total, List.map_cons, List.sum_cons] at hle hcovers ⊢
          have hle' := hcovers (by omega)
          omega
        · cases shorter with
          | nil => simpa [Kernel.total] using Nat.lt_of_not_le hroom
          | cons image' shorter =>
            obtain ⟨rfl, hrest⟩ := List.cons_prefix_cons.mp hshorter
            have hlt := hshortest shorter hrest (Nat.lt_of_succ_lt_succ hlen)
            simp only [Kernel.total, List.map_cons, List.sum_cons] at hlt ⊢
            omega
      · rename_i hidle
        rw [List.filter_cons_of_neg hidle]
        exact ih evicted

/-- The list is in the order in which its images were last obtained. -/
def Recent (k : Kernel) : Prop := k.lru.Sublist (latestFirst k.obtained)

theorem Recent.idleByAge (h : Recent k) : k.idleByAge = k.lru.reverse.filter k.idle := by
  unfold Kernel.idleByAge
  have hsplit : (latestFirst k.obtained).filter (fun image => image ∈ k.lru ∧ k.idle image) =
      ((latestFirst k.obtained).filter fun image => image ∈ k.lru).filter k.idle := by
    rw [List.filter_filter]
    refine List.filter_congr fun image _ => ?_
    simp [Bool.and_comm]
  rw [hsplit, filter_mem_of_sublist h (latestFirst_nodup _), List.filter_reverse]

/-- What is idle and listed is held by no address space. -/
theorem users_of_idle {m : Multiset Token × Multiset Claim} (hbooks : Books k m)
    {image : ℕ} (hlisted : image ∈ k.lru) (hidle : k.idle image = true) : k.users image = 0 := by
  obtain ⟨img, hget⟩ := hbooks.references.live image (Or.inr (Or.inr (Or.inr (Or.inl hlisted))))
  have hrefs := (hbooks.references.some hget).1
  have hcount := List.count_pos_iff.mpr hlisted
  unfold Kernel.idle at hidle
  rw [hget] at hidle
  have hone : img.refs = 1 := of_decide_eq_true hidle
  omega

/-- What the walk takes is what leaves the list. -/
theorem leaving_evictWalk (hnodup : k.lru.Nodup) (maxBytes : ℕ) :
    k.leaving (evictWalk maxBytes k).2 = (takeIdle k maxBytes k.lru.reverse 0).reverse := by
  have hsub := (takeIdle_spec (k := k) maxBytes k.lru.reverse 0).1.reverse
  rw [List.reverse_reverse] at hsub
  refine Eq.trans (List.filter_congr fun image hmem => ?_) (filter_mem_of_sublist hsub hnodup)
  unfold evictWalk
  simp [hmem]

/-- No step that keeps the images on the list evicts. -/
theorem leaving_eq_nil {k' : Kernel} (h : k.lru ⊆ k'.lru) : k.leaving k' = [] := by
  unfold Kernel.leaving
  rw [List.filter_eq_nil_iff]
  intro image hmem
  simpa using h hmem

/-- An eviction for the cap leaves the idle images within it. -/
theorem idleTotal_evictWalk (hnodup : k.lru.Nodup) (hover : capBytes < k.idleTotal) :
    (evictWalk (k.idleTotal - capBytes) k).2.idleTotal ≤ capBytes := by
  obtain ⟨⟨rest, hrest⟩, hcovers, -⟩ :=
    takeIdle_covers (k := k) (k.idleTotal - capBytes) k.lru.reverse 0
  have htotal : k.total (k.lru.reverse.filter k.idle) = k.idleTotal := by
    rw [List.filter_reverse, total_reverse, idleTotal_eq]
  have hcovered := hcovers (by rw [htotal]; omega)
  have hidle : (k.lru.reverse.filter k.idle).Nodup :=
    (List.nodup_reverse.mpr hnodup).filter _
  set taken := takeIdle k (k.idleTotal - capBytes) k.lru.reverse 0 with htaken
  have hleft : ((evictWalk (k.idleTotal - capBytes) k).2.lru.filter k.idle).reverse = rest := by
    change ((k.lru.filter fun image => image ∉ taken).filter k.idle).reverse = rest
    rw [List.filter_comm, ← List.filter_reverse, ← List.filter_reverse, ← hrest, List.filter_append]
    rw [← hrest] at hidle
    have hnone : taken.filter (fun image => image ∉ taken) = [] := by
      rw [List.filter_eq_nil_iff]
      simp
    have hall : rest.filter (fun image => image ∉ taken) = rest := by
      rw [List.filter_eq_self]
      intro image hmem
      simpa using fun hmem' => (List.disjoint_of_nodup_append hidle) hmem' hmem
    rw [hnone, hall, List.nil_append]
  have hafter : (evictWalk (k.idleTotal - capBytes) k).2.idleTotal = k.total rest := by
    rw [← hleft, total_reverse]
    rfl
  rw [← hrest, total_append] at htotal
  omega

end Idle

section Thrift

variable {k : Kernel}

/-- Between calls: the list is ordered by age, and the idle images are within the cap. -/
structure Thrifty (k : Kernel) : Prop where
  recent : Recent k
  capped : k.idleTotal ≤ capBytes

theorem setRefs_get {image : ℕ} {img : Image} (refs image' : ℕ) :
    (k.setRefs image img refs).images.get image' =
      if image' = image then some { img with refs := refs } else k.images.get image' := by
  unfold Kernel.setRefs
  by_cases heq : image' = image
  · rw [if_pos heq, heq, JsMap.get_set_self]
  · rw [if_neg heq, JsMap.get_set_of_ne _ _ heq]

/-- A write to a count that is not one makes nothing idle. -/
theorem idle_of_setRefs {image : ℕ} {img : Image} {refs image' : ℕ}
    (h : (k.setRefs image img refs).idle image' = true) (hrefs : refs ≠ 1) :
    k.idle image' = true ∧ (k.setRefs image img refs).bufSize image' = k.bufSize image' := by
  unfold Kernel.idle Kernel.bufSize at *
  rw [setRefs_get] at h ⊢
  split at h
  · rename_i img' heq
    split at heq
    · cases heq
      simp [hrefs] at h
    · rw [heq]
      exact ⟨h, rfl⟩
  · cases h

theorem Thrifty.findAndRef {m : Multiset Token × Multiset Claim} (hbooks : Books k m)
    (h : Thrifty k) (req : Request) : Thrifty (findAndRef req k).2 := by
  unfold ExecImage.findAndRef
  cases hfind : k.lru.find? (k.hits req) with
  | none => exact h
  | some image =>
    have hmem : image ∈ k.lru := List.mem_of_find?_eq_some hfind
    obtain ⟨img, hget⟩ := hbooks.references.live image (Or.inr (Or.inr (Or.inr (Or.inl hmem))))
    have hrefs := (hbooks.references.some hget).1
    have hcount := List.count_pos_iff.mpr hmem
    simp only [refcountInc_eq hget]
    refine ⟨(h.recent.erase image).cons_cons image,
      (idleTotal_le ?_ fun image' _ hidle => ?_).trans h.capped⟩
    · exact (List.perm_cons_erase hmem).symm.subperm
    · exact idle_of_setRefs hidle (by omega)

theorem Thrifty.shrink {k' : Kernel} (h : Thrifty k) (himages : k'.images = k.images)
    (hobtained : k'.obtained = k.obtained) (hlru : k'.lru.Sublist k.lru) : Thrifty k' := by
  refine ⟨?_, (idleTotal_le hlru.subperm fun image _ hidle => ?_).trans h.capped⟩
  · unfold Recent
    rw [hobtained]
    exact hlru.trans h.recent
  · unfold Kernel.idle Kernel.bufSize at *
    rw [himages] at hidle ⊢
    exact ⟨hidle, rfl⟩

theorem Thrifty.unhashStale (h : Thrifty k) (req : Request) : Thrifty (unhashStale req k).2 := by
  unfold ExecImage.unhashStale
  split
  · split
    · exact h
    · exact h.shrink rfl rfl List.erase_sublist
  · exact h

theorem Thrifty.evictWalk (h : Thrifty k) (maxBytes : ℕ) : Thrifty (evictWalk maxBytes k).2 :=
  h.shrink rfl rfl List.filter_sublist

theorem Thrifty.release (h : Thrifty k) (image : ℕ) : Thrifty (wasmExecImageRelease image k) := by
  cases hget : k.images.get image with
  | none =>
    unfold wasmExecImageRelease
    rw [hget]
    exact h.shrink rfl rfl (List.Sublist.refl _)
  | some img =>
    rw [release_eq hget]
    refine ⟨h.recent, Nat.le_trans (idleTotal_le (k := k) (List.Subperm.refl k.lru)
      fun image' _ hidle => ?_) h.capped⟩
    unfold Kernel.idle Kernel.bufSize at *
    by_cases heq : image' = image
    · subst heq
      simp only [JsMap.get_delete_self] at hidle
      cases hidle
    · simp only [JsMap.get_delete_of_ne _ heq] at hidle ⊢
      exact ⟨hidle, trivial⟩

/-- A last reference that is dropped makes nothing idle. -/
theorem Thrifty.drop (h : Thrifty k) {image : ℕ} (hzero : (refcountDecAndTest image k).1 = true) :
    Thrifty (refcountDecAndTest image k).2 := by
  cases hget : k.images.get image with
  | none =>
    unfold refcountDecAndTest at hzero
    rw [hget] at hzero
    cases hzero
  | some img =>
    rw [refcountDecAndTest_eq hget] at hzero ⊢
    have hone : img.refs = 1 := of_decide_eq_true hzero
    refine ⟨h.recent, Nat.le_trans (idleTotal_le (k := k) (List.Subperm.refl k.lru)
      fun image' _ hidle => ?_) h.capped⟩
    exact idle_of_setRefs hidle (by omega)

theorem recent_refcountDecAndTest (h : Recent k) (image : ℕ) :
    Recent (refcountDecAndTest image k).2 := by
  unfold refcountDecAndTest
  split <;> exact h

theorem Thrifty.insertImage {m : Multiset Token × Multiset Claim} (hbooks : Books k m)
    (h : Thrifty k) (req : Request) (buf : ℕ) (bytes : List ℕ) :
    Thrifty (insertImage req buf bytes k).2 := by
  have hnew : k.nextImage ∉ k.lru := by
    intro hmem
    obtain ⟨img, hget⟩ :=
      hbooks.references.live k.nextImage (Or.inr (Or.inr (Or.inr (Or.inl hmem))))
    have hfixed := hbooks.releases.bound k.nextImage (Nat.le_refl _)
    rw [fixed_of_get hget] at hfixed
    cases hfixed
  have hother : ∀ image, image ≠ k.nextImage →
      (ExecImage.insertImage req buf bytes k).2.idleSize image = k.idleSize image := by
    intro image hne
    unfold Kernel.idleSize Kernel.idle Kernel.bufSize
    rw [insert_get, if_neg hne]
  have hself : (ExecImage.insertImage req buf bytes k).2.idleSize k.nextImage = 0 := by
    unfold Kernel.idleSize Kernel.idle
    rw [insert_get, if_pos rfl]
    rfl
  constructor
  · have hrecent := h.recent.erase k.nextImage
    rw [List.erase_of_not_mem hnew] at hrecent
    exact hrecent.cons_cons k.nextImage
  · rw [idleTotal_eq_sum]
    change ((k.nextImage :: k.lru).map _).sum ≤ capBytes
    have hsame : k.lru.map (ExecImage.insertImage req buf bytes k).2.idleSize =
        k.lru.map k.idleSize :=
      List.map_congr_left fun image hmem => hother image fun heq => hnew (heq ▸ hmem)
    rw [List.map_cons, List.sum_cons, hself, hsame, Nat.zero_add, ← idleTotal_eq_sum]
    exact h.capped

end Thrift

section Tracing

variable {k : Kernel}

/-- The account is in order when the step is taken. -/
def InBooks (label : Label) (k : Kernel) : Prop := ∃ m, Fits m label ∧ Books k m

theorem evicts_nothing {label : Label} {k' : Kernel} (hkept : k.lru ⊆ k'.lru)
    (hpoint : ∀ maxBytes, label.point ≠ .evictWalk .cap maxBytes) : Evicts label k k' := by
  have hnil := leaving_eq_nil hkept
  refine ⟨fun hne => (hne hnil).elim, fun _ image hmem => ?_, fun maxBytes heq => ?_⟩
  · rw [hnil] at hmem
    cases hmem
  · exact (hpoint maxBytes heq).elim

/-- The walk takes what no address space holds. -/
theorem evicts_walk {label : Label} {reason : Reason} {maxBytes : ℕ}
    {m : Multiset Token × Multiset Claim} (hbooks : Books k m)
    (hpoint : label.point = .evictWalk reason maxBytes)
    (hcap : reason = .cap → Recent k ∧ capBytes < k.idleTotal ∧
      maxBytes = k.idleTotal - capBytes) : Evicts label k (evictWalk maxBytes k).2 := by
  obtain ⟨hsub, hidle⟩ := takeIdle_spec (k := k) maxBytes k.lru.reverse 0
  have hleaving := leaving_evictWalk hbooks.references.nodup maxBytes
  refine ⟨fun _ => Or.inr ⟨reason, maxBytes, hpoint⟩, fun _ image hmem => ?_, fun max heq => ?_⟩
  · rw [hleaving, List.mem_reverse] at hmem
    exact users_of_idle hbooks (List.mem_reverse.mp (hsub.subset hmem)) (hidle image hmem)
  · obtain ⟨hreason, hmax⟩ := Point.evictWalk.inj (hpoint.symm.trans heq)
    obtain ⟨hrecent, hover, hexcess⟩ := hcap hreason
    obtain ⟨hprior, hcovers, hshortest⟩ := takeIdle_covers (k := k) maxBytes k.lru.reverse 0
    have htotal : k.total (k.lru.reverse.filter k.idle) = k.idleTotal := by
      rw [List.filter_reverse, total_reverse, idleTotal_eq]
    simp only [Nat.zero_add] at hcovers hshortest
    rw [hleaving, List.reverse_reverse, hrecent.idleByAge, ← hexcess]
    exact ⟨hover, ⟨hprior, hcovers (by rw [htotal]; omega), hshortest⟩, List.filter_sublist⟩

theorem traced_section {α : Type} {label : Label} {f : Kernel → α × Kernel}
    {post : α → Kernel → Prop} (hkept : k.lru ⊆ (f k).2.lru)
    (hpoint : ∀ maxBytes, label.point ≠ .evictWalk .cap maxBytes)
    (h : ∀ m, Books k m → post (f k).1 (f k).2) :
    Traced InBooks Evicts post (.act label f : Program α) k := by
  refine traced_act fun hgiven => ⟨evicts_nothing hkept hpoint, ?_⟩
  obtain ⟨m, -, hbooks⟩ := hgiven
  exact h m hbooks

theorem traced_evictWalk {outer : List Token} {reason : Reason} {maxBytes : ℕ}
    (hcap : reason = .cap → Recent k ∧ capBytes < k.idleTotal ∧
      maxBytes = k.idleTotal - capBytes)
    (h : ∀ m, Books k m → Thrifty (evictWalk maxBytes k).2) :
    Traced InBooks Evicts (fun _ => Thrifty)
      (.act ⟨.evictWalk reason maxBytes, outer⟩ (evictWalk maxBytes) : Program (List ℕ)) k := by
  refine traced_act fun hgiven => ?_
  obtain ⟨m, -, hbooks⟩ := hgiven
  exact ⟨evicts_walk hbooks rfl hcap, h m hbooks⟩

theorem release_lru (image : ℕ) : k.lru ⊆ (wasmExecImageRelease image k).lru := by
  unfold wasmExecImageRelease
  split <;> exact List.Subset.refl _

theorem refcountInc_lru (image : ℕ) : k.lru ⊆ (refcountInc image k).lru := by
  unfold refcountInc
  split <;> exact List.Subset.refl _

theorem refcountDecAndTest_lru (image : ℕ) : k.lru ⊆ (refcountDecAndTest image k).2.lru := by
  unfold refcountDecAndTest
  split <;> exact List.Subset.refl _

/-- A hit only moves within the list. -/
theorem findAndRef_lru (req : Request) : k.lru ⊆ (findAndRef req k).2.lru := by
  unfold findAndRef
  split
  · rename_i image hfind
    exact (List.perm_cons_erase (List.mem_of_find?_eq_some hfind)).subset
  · exact List.Subset.refl _

/-- Programs that keep thrift may follow one another. -/
theorem traced_then {α β : Type} {program : Program α} {next : α → Program β}
    {post : β → Kernel → Prop} (h : Traced InBooks Evicts (fun _ => Thrifty) program k)
    (hnext : ∀ a k', Thrifty k' → Traced InBooks Evicts post (next a) k') :
    Traced InBooks Evicts post (program >>= next) k :=
  traced_bind (fun _ => Thrifty) h hnext

theorem traced_releaseAll (outer : List Token) (dead : List ℕ) (h : Thrifty k) :
    Traced InBooks Evicts (fun _ => Thrifty) (releaseAll outer dead) k := by
  induction dead generalizing k with
  | nil => exact h
  | cons image dead ih =>
    exact traced_then (traced_section (release_lru image) (by simp)
      fun _ _ => h.release image) fun _ _ h => ih h

theorem traced_evictIdle (outer : List Token) {reason : Reason} (hreason : reason ≠ .cap)
    (maxBytes : ℕ) (h : Thrifty k) :
    Traced InBooks Evicts (fun _ => Thrifty) (wasmExecImageEvictIdle outer reason maxBytes) k :=
  traced_then (traced_evictWalk (fun heq => (hreason heq).elim) fun _ _ => h.evictWalk maxBytes)
    fun dead _ h => traced_releaseAll outer dead h

theorem traced_enforceCap (outer : List Token) (h : Recent k) :
    Traced InBooks Evicts (fun _ => Thrifty) (enforceCap outer) k := by
  refine traced_bind (fun idle k' => k' = k ∧ idle = k.idleTotal)
    (traced_section (List.Subset.refl _) (by simp) fun _ _ => ⟨rfl, rfl⟩) fun idle k' hk => ?_
  obtain ⟨rfl, rfl⟩ := hk
  split
  · rename_i hover
    refine traced_then (traced_evictWalk (fun _ => ⟨h, hover, rfl⟩) fun m hbooks => ?_)
      fun dead _ h => traced_releaseAll outer dead h
    exact ⟨List.filter_sublist.trans h, idleTotal_evictWalk hbooks.references.nodup hover⟩
  · rename_i hunder
    exact ⟨h, Nat.le_of_not_lt hunder⟩

theorem traced_put (outer : List Token) (image : ℕ) (h : Thrifty k) :
    Traced InBooks Evicts (fun _ => Thrifty) (wasmExecImagePut outer image) k := by
  refine traced_bind (fun zero k' => if zero then Thrifty k' else Recent k')
    (traced_section (refcountDecAndTest_lru image) (by simp) fun _ _ => ?_)
    fun zero k' hk => ?_
  · split
    · exact h.drop ‹_›
    · exact recent_refcountDecAndTest h.recent image
  · cases zero with
    | true =>
      exact traced_section (release_lru image) (by simp)
        fun _ _ => Thrifty.release hk image
    | false => exact traced_enforceCap outer hk

theorem traced_unhashStaleAndPut (outer : List Token) (req : Request) (h : Thrifty k) :
    Traced InBooks Evicts (fun _ => Thrifty) (unhashStaleAndPut outer req) k := by
  refine traced_then (traced_act fun _ => ⟨?_, h.unhashStale req⟩) fun found k' h => ?_
  · exact ⟨fun _ => Or.inl rfl, fun hpoint => (hpoint rfl).elim, fun _ hpoint => nomatch hpoint⟩
  cases found with
  | none => exact h
  | some image =>
    exact traced_then (traced_put outer image h) fun _ _ h => h

theorem traced_allocPages (h : Thrifty k) :
    Traced InBooks Evicts (fun _ => Thrifty)
      (.act ⟨.allocPages, [.loadMutex]⟩ allocPagesExact : Program (Option ℕ)) k := by
  refine traced_section ?_ (by simp) fun _ _ => ?_
  · unfold allocPagesExact
    split <;> exact List.Subset.refl _
  · unfold allocPagesExact
    split <;> exact h.shrink rfl rfl (List.Sublist.refl _)

theorem traced_allocOrEvict (h : Thrifty k) :
    Traced InBooks Evicts (fun _ => Thrifty) allocOrEvict k := by
  refine traced_then (traced_allocPages h) fun result k' h => ?_
  cases result with
  | some buf => exact h
  | none =>
    exact traced_then (traced_evictIdle _ (by simp) _ h)
      fun _ _ h => traced_allocPages h

/-- Sections that change neither the images nor the list. -/
theorem traced_idle {α : Type} {label : Label} {f : Kernel → α × Kernel} (h : Thrifty k)
    (hpoint : ∀ maxBytes, label.point ≠ .evictWalk .cap maxBytes)
    (hsame : (f k).2.images = k.images ∧ (f k).2.obtained = k.obtained ∧ (f k).2.lru = k.lru) :
    Traced InBooks Evicts (fun _ => Thrifty) (.act label f : Program α) k :=
  traced_section (hsame.2.2 ▸ List.Subset.refl _) hpoint
    fun _ _ => h.shrink hsame.1 hsame.2.1 (hsame.2.2 ▸ List.Sublist.refl _)

theorem traced_giveUp (buf : ℕ) (e : Err) (h : Thrifty k) :
    Traced InBooks Evicts (fun _ => Thrifty)
      (do
        Task.act ⟨.freePages, [.loadMutex, .buffer buf]⟩ (freePagesExact buf)
        Task.act ⟨.mutexUnlock, [.loadMutex]⟩ mutexUnlock
        return (.error e : Except Err ℕ) : Program (Except Err ℕ)) k :=
  traced_then (traced_idle h (by simp) ⟨rfl, rfl, rfl⟩) fun _ _ h =>
    traced_then (traced_idle h (by simp) ⟨rfl, rfl, rfl⟩) fun _ _ h => h

theorem traced_loadImage (req : Request) (buf : ℕ) (h : Thrifty k) :
    Traced InBooks Evicts (fun _ => Thrifty) (loadImage req buf) k := by
  refine traced_then (traced_idle h (by simp) ⟨rfl, rfl, rfl⟩)
    fun result k' h => ?_
  cases result with
  | error e => exact traced_giveUp buf e h
  | ok bytes =>
    refine traced_then (traced_idle h (by simp) ⟨rfl, rfl, rfl⟩)
      fun allocated k' h => ?_
    cases allocated with
    | false => exact traced_giveUp buf .enomem h
    | true =>
      refine traced_then
        (traced_section (List.subset_cons_self ..) (by simp)
          fun _ hbooks => h.insertImage hbooks req buf bytes) fun image k' h => ?_
      refine traced_then (traced_idle h (by simp) ⟨rfl, rfl, rfl⟩)
        fun _ k' h => ?_
      exact traced_then (traced_enforceCap _ h.recent) fun _ _ h => h

theorem traced_lookupOrLoad (req : Request) (h : Thrifty k) :
    Traced InBooks Evicts (fun _ => Thrifty) (lookupOrLoad req) k := by
  refine traced_then (traced_section (findAndRef_lru req) (by simp)
    fun _ hbooks => h.findAndRef hbooks req) fun found k' h => ?_
  cases found with
  | some image => exact h
  | none =>
    refine traced_then (traced_idle h (by simp) ⟨rfl, rfl, rfl⟩)
      fun _ k' h => ?_
    refine traced_then (traced_section (findAndRef_lru req) (by simp)
      fun _ hbooks => h.findAndRef hbooks req) fun found k' h => ?_
    cases found with
    | some image =>
      exact traced_then (traced_idle h (by simp) ⟨rfl, rfl, rfl⟩)
        fun _ _ h => h
    | none =>
      refine traced_then (traced_unhashStaleAndPut _ req h) fun _ k' h => ?_
      refine traced_then (traced_allocOrEvict h) fun result k' h => ?_
      cases result with
      | some buf => exact traced_loadImage req buf h
      | none =>
        exact traced_then (traced_idle h (by simp) ⟨rfl, rfl, rfl⟩)
          fun _ _ h => h

/-- Every use keeps within the cap, and what it evicts for the cap is due. -/
theorem traced_use (use : Use) (h : Thrifty k) :
    Traced InBooks Evicts (fun _ => Thrifty) use.program k := by
  cases use with
  | get key wholeSize head =>
    refine traced_then ?_ fun result k' h => ?_
    · refine traced_then (traced_idle h (by simp) ⟨rfl, rfl, rfl⟩)
        fun mtime k' h => ?_
      exact traced_then (traced_idle h (by simp) ⟨rfl, rfl, rfl⟩)
        fun _ _ h => traced_lookupOrLoad _ h
    · cases result with
      | error e => exact h
      | ok image => exact traced_idle h (by simp) ⟨rfl, rfl, rfl⟩
  | put mm =>
    refine traced_then (traced_idle h (by simp) ⟨rfl, rfl, rfl⟩)
      fun found k' h => ?_
    cases found with
    | some image => exact traced_put [] image h
    | none => exact h
  | ref mm =>
    refine traced_section ?_ (by simp) fun m hbooks => ?_
    · cases k.image mm with
      | none => exact List.Subset.refl _
      | some image => exact refcountInc_lru image
    cases himage : k.image mm with
    | none => exact h
    | some image =>
      obtain ⟨img, hget⟩ :=
        hbooks.references.live image (Or.inr (Or.inr (Or.inr (Or.inr (mem_of_image himage)))))
      have hrefs := (hbooks.references.some hget).1
      have husers := List.count_pos_iff.mpr (mem_of_image himage)
      have hdef : k.users image = (k.mms.map Prod.snd).count image := rfl
      simp only [refcountInc_eq hget]
      refine ⟨h.recent, Nat.le_trans (idleTotal_le (k := k) (List.Subperm.refl k.lru)
        fun image' _ hidle => ?_) h.capped⟩
      exact idle_of_setRefs hidle (by omega)
  | modify key version => exact h

end Tracing

theorem turns_use (use : Use) : Turns (own [] 0) use.program fun _ => own [] 0 := by
  cases use with
  | get key wholeSize head =>
    refine turns_bind _ (turns_get key wholeSize head) fun result => ?_
    cases result with
    | error e => exact rfl
    | ok image => exact turns_act ⟨rfl, nofun⟩ fun k _ => swaps_attach _ image _ _
  | put mm => exact turns_call (.exit mm)
  | ref mm => exact turns_call (.fork mm)
  | modify key version => exact rfl

/-- Without an interruption the mutex is free when it is wanted. -/
theorem enabled_alone (m : Multiset Token × Multiset Claim) (label : Label) (k : Kernel)
    (hfits : Fits m label) (hbooks : Books k m) : Enabled label k := by
  intro hlock
  have hmutex := hbooks.locked.mutex
  rw [hfits.shown, hfits.waiting hlock] at hmutex
  cases hk : k.loadMutex with
  | false => rfl
  | true =>
    rw [hk] at hmutex
    cases hmutex

section Clearing

variable {α β : Type}

/-- What the walks of the program take off the list is released when the program ends. -/
def Clears (program : Program α) : Prop :=
  ∀ k, k.released ⊆ (final (program.alone k)).released ∧
    ∀ label k₁ k₂, (label, k₁, k₂) ∈ program.steps k →
      ∀ reason maxBytes, label.point = .evictWalk reason maxBytes →
        k₁.leaving k₂ ⊆ (final (program.alone k)).released

/-- Of two programs the second keeps what the first released. -/
theorem clears_bind {program : Program α} {next : α → Program β} (h : Clears program)
    (hnext : ∀ a, Clears (next a)) : Clears (program >>= next) := by
  intro k
  obtain ⟨hkept, hwalks⟩ := h k
  rw [Task.alone_bind, run_bind]
  cases hend : program.alone k with
  | error e => exact e.elim
  | ok a k' =>
    rw [hend] at hkept hwalks
    obtain ⟨hkept', hwalks'⟩ := hnext a k'
    refine ⟨List.Subset.trans hkept hkept', fun label k₁ k₂ hmem reason maxBytes hpoint => ?_⟩
    rcases Task.mem_steps_bind hmem with hfirst | ⟨a', k'', hend', hsecond⟩
    · exact List.Subset.trans (hwalks label k₁ k₂ hfirst reason maxBytes hpoint) hkept'
    · cases hend.symm.trans hend'
      exact hwalks' label k₁ k₂ hsecond reason maxBytes hpoint

theorem clears_pure (a : α) : Clears (pure a : Program α) :=
  fun _ => ⟨(List.Subset.refl _), fun _ _ _ hmem => nomatch hmem⟩

/-- A section that is no walk. -/
theorem clears_act {label : Label} {f : Kernel → α × Kernel}
    (hpoint : ∀ reason maxBytes, label.point ≠ .evictWalk reason maxBytes)
    (h : ∀ k, k.released ⊆ (f k).2.released) : Clears (.act label f) := by
  intro k
  refine ⟨h k, fun label' k₁ k₂ hmem reason maxBytes heq => ?_⟩
  cases List.mem_singleton.mp hmem
  exact (hpoint reason maxBytes heq).elim

theorem released_release (image : ℕ) (k : Kernel) :
    (wasmExecImageRelease image k).released = image :: k.released := by
  unfold wasmExecImageRelease
  split <;> rfl

theorem clears_releaseAll (outer : List Token) (dead : List ℕ) :
    Clears (releaseAll outer dead) := by
  induction dead with
  | nil => exact clears_pure ()
  | cons image dead ih =>
    refine clears_bind (clears_act (by simp) fun k => ?_) fun _ => ih
    rw [released_release]
    exact List.subset_cons_self ..

theorem released_releaseAll (outer : List Token) (dead : List ℕ) (k : Kernel) :
    dead ⊆ (final ((releaseAll outer dead).alone k)).released := by
  induction dead generalizing k with
  | nil => exact List.nil_subset _
  | cons image dead ih =>
    refine List.cons_subset.mpr ⟨?_, ih (wasmExecImageRelease image k)⟩
    refine (clears_releaseAll outer dead (wasmExecImageRelease image k)).1 ?_
    rw [released_release]
    exact List.mem_cons_self

theorem clears_evictIdle (outer : List Token) (reason : Reason) (maxBytes : ℕ) :
    Clears (wasmExecImageEvictIdle outer reason maxBytes) := by
  intro k
  obtain ⟨hkept, hwalks⟩ := clears_releaseAll outer (evictWalk maxBytes k).1
    (evictWalk maxBytes k).2
  refine ⟨hkept, fun label k₁ k₂ hmem reason' maxBytes' hpoint => ?_⟩
  rcases List.mem_cons.mp hmem with heq | hmem
  · cases heq
    refine List.Subset.trans (fun image hleaving => ?_)
      (released_releaseAll outer (evictWalk maxBytes k).1 (evictWalk maxBytes k).2)
    have htaken : image ∈ k.lru ∧ image ∉ (evictWalk maxBytes k).2.lru := by
      simpa [Kernel.leaving] using hleaving
    by_contra hnot
    refine htaken.2 (List.mem_filter.mpr ⟨htaken.1, ?_⟩)
    simpa [evictWalk] using hnot
  · exact hwalks label k₁ k₂ hmem reason' maxBytes' hpoint

theorem clears_enforceCap (outer : List Token) : Clears (enforceCap outer) := by
  refine clears_bind (clears_act (by simp) fun _ => List.Subset.refl _) fun idle => ?_
  split
  · exact clears_evictIdle outer .cap _
  · exact clears_pure ()

theorem clears_put (outer : List Token) (image : ℕ) : Clears (wasmExecImagePut outer image) := by
  refine clears_bind (clears_act (by simp) fun k => ?_) fun zero => ?_
  · unfold refcountDecAndTest
    split <;> exact List.Subset.refl _
  · cases zero with
    | true =>
      refine clears_act (by simp) fun k => ?_
      rw [released_release]
      exact List.subset_cons_self ..
    | false => exact clears_enforceCap outer

theorem clears_findAndRef {label : Label} (req : Request)
    (hpoint : ∀ reason maxBytes, label.point ≠ .evictWalk reason maxBytes) :
    Clears (.act label (findAndRef req)) := by
  refine clears_act hpoint fun k => ?_
  unfold findAndRef refcountInc
  split
  · split <;> exact List.Subset.refl _
  · exact List.Subset.refl _

theorem clears_unhashStaleAndPut (outer : List Token) (req : Request) :
    Clears (unhashStaleAndPut outer req) := by
  refine clears_bind (clears_act (by simp) fun k => ?_) fun found => ?_
  · unfold unhashStale
    split
    · split <;> exact List.Subset.refl _
    · exact List.Subset.refl _
  · cases found with
    | none => exact clears_pure _
    | some image => exact clears_bind (clears_put outer image) fun _ => clears_pure _

theorem clears_allocPages : Clears (.act ⟨.allocPages, [.loadMutex]⟩ allocPagesExact) := by
  refine clears_act (by simp) fun k => ?_
  unfold allocPagesExact
  split <;> exact List.Subset.refl _

theorem clears_allocOrEvict : Clears allocOrEvict := by
  refine clears_bind clears_allocPages fun result => ?_
  cases result with
  | some buf => exact clears_pure _
  | none => exact clears_bind (clears_evictIdle _ _ _) fun _ => clears_allocPages

theorem clears_mutexUnlock (outer : List Token) :
    Clears (.act ⟨.mutexUnlock, outer⟩ mutexUnlock) :=
  clears_act (by simp) fun _ => List.Subset.refl _

theorem clears_giveUp (buf : ℕ) (e : Err) :
    Clears (do
      Task.act ⟨.freePages, [.loadMutex, .buffer buf]⟩ (freePagesExact buf)
      Task.act ⟨.mutexUnlock, [.loadMutex]⟩ mutexUnlock
      return (.error e : Except Err ℕ)) :=
  clears_bind (clears_act (by simp) fun _ => List.Subset.refl _) fun _ =>
    clears_bind (clears_mutexUnlock _) fun _ => clears_pure _

theorem clears_loadImage (req : Request) (buf : ℕ) : Clears (loadImage req buf) := by
  refine clears_bind (clears_act (by simp) fun _ => List.Subset.refl _) fun result => ?_
  cases result with
  | error e => exact clears_giveUp buf e
  | ok bytes =>
    refine clears_bind (clears_act (by simp) fun _ => List.Subset.refl _) fun allocated => ?_
    cases allocated with
    | false => exact clears_giveUp buf .enomem
    | true =>
      exact clears_bind (clears_act (by simp) fun _ => List.Subset.refl _) fun image =>
        clears_bind (clears_mutexUnlock _) fun _ =>
          clears_bind (clears_enforceCap _) fun _ => clears_pure _

theorem clears_lookupOrLoad (req : Request) : Clears (lookupOrLoad req) := by
  refine clears_bind (clears_findAndRef req (by simp)) fun found => ?_
  cases found with
  | some image => exact clears_pure _
  | none =>
    refine clears_bind (clears_act (by simp) fun _ => List.Subset.refl _) fun _ => ?_
    refine clears_bind (clears_findAndRef req (by simp)) fun found => ?_
    cases found with
    | some image => exact clears_bind (clears_mutexUnlock _) fun _ => clears_pure _
    | none =>
      refine clears_bind (clears_unhashStaleAndPut _ req) fun _ => ?_
      refine clears_bind clears_allocOrEvict fun result => ?_
      cases result with
      | some buf => exact clears_loadImage req buf
      | none => exact clears_bind (clears_mutexUnlock _) fun _ => clears_pure _

/-- What a use evicts is released when it ends. -/
theorem clears_use (use : Use) : Clears use.program := by
  cases use with
  | get key wholeSize head =>
    refine clears_bind (clears_bind (clears_act (by simp) fun _ => List.Subset.refl _) fun mtime =>
      clears_bind (clears_act (by simp) fun _ => List.Subset.refl _) fun _ =>
        clears_lookupOrLoad _) fun result => ?_
    cases result with
    | error e => exact clears_pure _
    | ok image => exact clears_act (by simp) fun _ => List.Subset.refl _
  | put mm =>
    refine clears_bind (clears_act (by simp) fun _ => List.Subset.refl _) fun found => ?_
    cases found with
    | none => exact clears_pure _
    | some image => exact clears_put [] image
  | ref mm =>
    refine clears_act (by simp) fun k => ?_
    cases k.image mm with
    | none => exact List.Subset.refl _
    | some image =>
      unfold refcountInc
      dsimp only
      split <;> exact List.Subset.refl _
  | modify key version => exact clears_pure _

end Clearing

/-- A use on its own: the account is in order at every step, and so is thrift. -/
theorem use_alone {k : Kernel} (use : Use) (hbooks : Books k (own [] 0)) (h : Thrifty k) :
    (∀ label k₁ k₂, (label, k₁, k₂) ∈ use.program.steps k → Evicts label k₁ k₂) ∧
      Books (final (use.program.alone k)) (own [] 0) ∧ Thrifty (final (use.program.alone k)) := by
  obtain ⟨hsteps, a, k₁, m, hend, hm, hbooks'⟩ :=
    owning_alone enabled_alone use.program (turns_use use) hbooks
  obtain ⟨hevicts, a', k₂, hend', hthrifty⟩ := traced_alone (traced_use use h) hsteps
  cases hend.symm.trans hend'
  rw [hend]
  rw [hm] at hbooks'
  exact ⟨hevicts, hbooks', hthrifty⟩

/-- The account and thrift, after every use. -/
theorem thrifty_run (inodes : Key → Inode) (chance : ℕ → Draw) (uses : List Use) :
    Books (run Use.apply (Kernel.boot inodes chance) uses) (own [] 0) ∧
      Thrifty (run Use.apply (Kernel.boot inodes chance) uses) := by
  refine run_invariant (fun k => Books k (own [] 0) ∧ Thrifty k) (fun k use h => ?_) uses
    ⟨boot_books inodes chance, List.Sublist.refl _, Nat.zero_le _⟩
  have halone := (use_alone use h.1 h.2).2
  cases use with
  | modify key version =>
    have hquiet : Swaps Books 0 (⟨.head, []⟩ : Label) k 0 (writeFile key version k) :=
      swaps_quiet _ rfl
    have hwritten := hquiet (own [] 0) (by rw [zero_add]; exact h.1)
    rw [zero_add] at hwritten
    exact ⟨hwritten, h.2.shrink rfl rfl (List.Sublist.refl _)⟩
  | get key wholeSize head => exact halone
  | put mm => exact halone
  | ref mm => exact halone

/-- What an address space holds is there. -/
theorem live_of_held {k : Kernel} {m : Multiset Token × Multiset Claim} (hbooks : Books k m)
    {image : ℕ} (hheld : 0 < k.users image) : (k.images.get image).isSome := by
  obtain ⟨img, hget⟩ := hbooks.references.live image
    (Or.inr (Or.inr (Or.inr (Or.inr (List.count_pos_iff.mp hheld)))))
  rw [hget]
  rfl

/-- What is released is not there. -/
theorem get_of_released {k : Kernel} {m : Multiset Token × Multiset Claim} (hbooks : Books k m)
    {image : ℕ} (hreleased : image ∈ k.released) : k.images.get image = none :=
  Option.map_eq_none_iff.mp (hbooks.releases.gone image hreleased).1

/-- After every use the idle images are within the cap, and what an address space holds is
there. A step of a use takes images off the list only where `Evicts` says so: none that an
address space holds, and for the cap the shortest series of least recently obtained idle images
that covers the excess, where there is an excess. What is evicted is gone when the use ends. -/
theorem budget_kept (inodes : Key → Inode) (chance : ℕ → Draw) (uses : List Use) :
    (run Use.apply (Kernel.boot inodes chance) uses).idleTotal ≤ capBytes ∧
      (∀ image, 0 < (run Use.apply (Kernel.boot inodes chance) uses).users image →
        ((run Use.apply (Kernel.boot inodes chance) uses).images.get image).isSome) ∧
      ∀ (use : Use) (label : Label) (k k' : Kernel),
        (label, k, k') ∈ use.program.steps (run Use.apply (Kernel.boot inodes chance) uses) →
        Evicts label k k' ∧ ∀ reason maxBytes, label.point = .evictWalk reason maxBytes →
          ∀ image ∈ k.leaving k',
            (run Use.apply (Kernel.boot inodes chance) (uses ++ [use])).images.get image =
              none := by
  obtain ⟨hbooks, hthrifty⟩ := thrifty_run inodes chance uses
  refine ⟨hthrifty.capped, fun image hheld => live_of_held hbooks hheld,
    fun use label k k' hmem => ?_⟩
  refine ⟨(use_alone use hbooks hthrifty).1 label k k' hmem,
    fun reason maxBytes hpoint image hleaving => ?_⟩
  have hreleased := (clears_use use _).2 label k k' hmem reason maxBytes hpoint hleaving
  refine get_of_released (thrifty_run inodes chance (uses ++ [use])).1 ?_
  rw [run_append]
  cases use with
  | modify key version => cases hmem
  | get key wholeSize head => exact hreleased
  | put mm => exact hreleased
  | ref mm => exact hreleased

end NixWasm.ExecImage
