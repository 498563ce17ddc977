import NixWasm.ExecImageRefs

/-!
The freshness of the image cache. A file is known with all its versions. An image stores the
validators its loader sampled, at moments before it read the contents, so it may pair older
validators with newer bytes. If validators never return to an earlier value and contents
never change without one of them, a match still means that the bytes were those of the file
at some moment of the call that found them.
-/
namespace NixWasm.ExecImage

open Coroutines Runs

/-- The versions of a file, by age: number zero is the oldest. -/
def Inode.version (inode : Inode) (n : ℕ) : Option Version :=
  (inode.past.reverse ++ [inode.current])[n]?

/-- The number of the current version. -/
def Inode.age (inode : Inode) : ℕ := inode.past.length

/-- What is assumed of a file: a change of contents changes a validator, and a validator
that changed never returns to an earlier value. -/
structure Honest (inode : Inode) : Prop where
  shown : ∀ n v w, inode.version n = some v → inode.version (n + 1) = some w →
    v.content.length = w.content.length → v.mtime = w.mtime →
    (inode.haveIVersion = true → v.iVersion = w.iVersion) →
    v.content.take 256 = w.content.take 256 → v.content = w.content
  size : ∀ i j l u v w, i ≤ j → j ≤ l → inode.version i = some u → inode.version j = some v →
    inode.version l = some w → u.content.length = w.content.length →
    v.content.length = w.content.length
  mtime : ∀ i j l u v w, i ≤ j → j ≤ l → inode.version i = some u → inode.version j = some v →
    inode.version l = some w → u.mtime = w.mtime → v.mtime = w.mtime
  iVersion : inode.haveIVersion = true → ∀ i j l u v w, i ≤ j → j ≤ l →
    inode.version i = some u → inode.version j = some v → inode.version l = some w →
    u.iVersion = w.iVersion → v.iVersion = w.iVersion
  head : ∀ i j l u v w, i ≤ j → j ≤ l → inode.version i = some u → inode.version j = some v →
    inode.version l = some w → u.content.take 256 = w.content.take 256 →
    v.content.take 256 = w.content.take 256

section Histories

variable {inode : Inode}

theorem version_age (inode : Inode) : inode.version inode.age = some inode.current := by
  simp [Inode.version, Inode.age]

theorem version_lt {n : ℕ} {v : Version} (h : inode.version n = some v) : n ≤ inode.age := by
  unfold Inode.version at h
  have hlt := (List.getElem?_eq_some_iff.mp h).1
  simp at hlt
  unfold Inode.age
  omega

theorem exists_version {n : ℕ} (h : n ≤ inode.age) : ∃ v, inode.version n = some v := by
  unfold Inode.version
  refine ⟨_, List.getElem?_eq_getElem ?_⟩
  unfold Inode.age at h
  simp
  omega

/-- A modification adds a version. -/
theorem version_write {n : ℕ} {v : Version} (h : inode.version n = some v) (w : Version) :
    (inode.write w).version n = some v := by
  unfold Inode.version Inode.write at *
  rw [List.reverse_cons]
  exact List.getElem?_append_left (List.getElem?_eq_some_iff.mp h).1 ▸ h

/-- A later state of a file. -/
structure Inode.Later (inode inode' : Inode) : Prop where
  haveIVersion : inode'.haveIVersion = inode.haveIVersion
  version : ∀ n v, inode.version n = some v → inode'.version n = some v

theorem Inode.Later.refl (inode : Inode) : inode.Later inode := ⟨rfl, fun _ _ h => h⟩

theorem Inode.Later.honest {inode' : Inode} (h : inode.Later inode') (hhonest : Honest inode') :
    Honest inode := by
  obtain ⟨hshown, hsize, hmtime, hiVersion, hhead⟩ := hhonest
  rw [h.haveIVersion] at hshown hiVersion
  have hv := h.version
  refine ⟨fun n v w hn hm => hshown n v w (hv _ _ hn) (hv _ _ hm),
    fun i j l u v w hij hjl hi hj hl => hsize i j l u v w hij hjl (hv _ _ hi) (hv _ _ hj)
      (hv _ _ hl),
    fun i j l u v w hij hjl hi hj hl => hmtime i j l u v w hij hjl (hv _ _ hi) (hv _ _ hj)
      (hv _ _ hl), fun hhave i j l u v w hij hjl hi hj hl =>
      hiVersion hhave i j l u v w hij hjl (hv _ _ hi) (hv _ _ hj) (hv _ _ hl),
    fun i j l u v w hij hjl hi hj hl => hhead i j l u v w hij hjl (hv _ _ hi) (hv _ _ hj)
      (hv _ _ hl)⟩

/-- Contents do not change while all validators stay. -/
theorem Honest.content_eq (h : Honest inode) {m n : ℕ} {v w : Version} (hmn : m ≤ n)
    (hm : inode.version m = some v) (hn : inode.version n = some w)
    (hsame : ∀ j x, m ≤ j → j ≤ n → inode.version j = some x →
      x.content.length = w.content.length ∧ x.mtime = w.mtime ∧
        (inode.haveIVersion = true → x.iVersion = w.iVersion) ∧
        x.content.take 256 = w.content.take 256) : v.content = w.content := by
  induction n, hmn using Nat.le_induction generalizing w with
  | base =>
    cases hm.symm.trans hn
    rfl
  | succ n hmn ih =>
    obtain ⟨x, hx⟩ := exists_version (Nat.le_of_succ_le (version_lt hn))
    obtain ⟨hsize, hmtime, hiVersion, hhead⟩ := hsame n x hmn (Nat.le_succ n) hx
    have hstep := h.shown n x w hx hn hsize hmtime hiVersion hhead
    refine (ih hx fun j y hmj hjn hy => ?_).trans hstep
    obtain ⟨hsize', hmtime', hiVersion', hhead'⟩ := hsame j y hmj (Nat.le_succ_of_le hjn) hy
    exact ⟨hsize'.trans hsize.symm, hmtime'.trans hmtime.symm,
      fun hhave => (hiVersion' hhave).trans (hiVersion hhave).symm, hhead'.trans hhead.symm⟩

end Histories

/-- The moments at which the validators of a request were sampled, one after the other, with
what the file was at each. -/
structure Samples where
  head : ℕ
  size : ℕ
  mtime : ℕ
  iVersion : ℕ
  atHead : Version
  atSize : Version
  atMtime : Version
  atIVersion : Version

/-- The values were sampled at those moments. -/
structure Samples.Of (t : Samples) (inode : Inode) (req : Request) : Prop where
  order : t.head ≤ t.size ∧ t.size ≤ t.mtime ∧ t.mtime ≤ t.iVersion
  atHead : inode.version t.head = some t.atHead
  atSize : inode.version t.size = some t.atSize
  atMtime : inode.version t.mtime = some t.atMtime
  atIVersion : inode.version t.iVersion = some t.atIVersion
  head : req.head = bprmBuf t.atHead.content
  wholeSize : req.wholeSize = t.atSize.content.length
  mtime : req.mtime = t.atMtime.mtime
  haveIVersion : req.haveIVersion = inode.haveIVersion
  iVersion : inode.haveIVersion = true → req.iVersion = t.atIVersion.iVersion

/-- An image in the cache: its validators were sampled at moments before its contents were
read. -/
structure Loaded (inode : Inode) (img : Image) : Prop where
  moments : ∃ (t : Samples) (req : Request) (read : ℕ) (version : Version),
    t.Of inode req ∧ t.iVersion ≤ read ∧ inode.version read = some version ∧
      img.size = req.wholeSize ∧ img.mtime = req.mtime ∧ img.haveIVersion = req.haveIVersion ∧
      img.iVersion = req.iVersion ∧ img.bytes = version.content.take req.wholeSize
  length : img.bytes.length = img.size
  bufSize : img.bufSize = img.size

section Matching

variable {inode inode' : Inode}

theorem Samples.Of.later {t : Samples} {req : Request} (h : t.Of inode req)
    (hlater : inode.Later inode') : t.Of inode' req := by
  obtain ⟨horder, hatHead, hatSize, hatMtime, hatIVersion, hhead, hsize, hmtime, hhave,
    hiVersion⟩ := h
  refine ⟨horder, hlater.version _ _ hatHead, hlater.version _ _ hatSize,
    hlater.version _ _ hatMtime,
    hlater.version _ _ hatIVersion, hhead, hsize, hmtime, hhave.trans hlater.haveIVersion.symm, ?_⟩
  rw [hlater.haveIVersion]
  exact hiVersion

theorem Loaded.later {img : Image} (h : Loaded inode img) (hlater : inode.Later inode') :
    Loaded inode' img := by
  obtain ⟨⟨t, req, read, version, ht, hle, hread, hrest⟩, hlength, hbufSize⟩ := h
  exact ⟨⟨t, req, read, version, ht.later hlater, hle, hlater.version _ _ hread, hrest⟩, hlength,
    hbufSize⟩

/-- What a match of the validators says. -/
theorem validators_match {img : Image} {req : Request} (h : imageValidatorsMatch img req = true) :
    img.size = req.wholeSize ∧ img.mtime = req.mtime ∧
      (req.haveIVersion = true → img.haveIVersion = true → img.iVersion = req.iVersion) ∧
      img.bytes.take (min req.head.length img.bufSize) =
        req.head.take (min req.head.length img.bufSize) := by
  unfold imageValidatorsMatch at h
  split at h
  · cases h
  · rename_i hsize
    split at h
    · cases h
    · rename_i hmtime
      split at h
      · cases h
      · rename_i hiVersion
        push Not at hsize hmtime hiVersion
        refine ⟨hsize, ?_, hiVersion, of_decide_eq_true h⟩
        have hfields : img.mtime = ⟨img.mtime.tvSec, img.mtime.tvNsec⟩ := rfl
        rw [hfields, hmtime.1, hmtime.2]

theorem take_bprmBuf {content : List ℕ} {n : ℕ} (hn : n ≤ 256) (hcontent : n ≤ content.length) :
    (bprmBuf content).take n = content.take n := by
  unfold bprmBuf
  rw [List.take_take, Nat.min_eq_left hn, List.take_append_of_le_length hcontent]

/-- A prefix comparison settles the first 256 bytes of contents of one length. -/
theorem take_eq_of_prefix {a b : List ℕ} (hlen : a.length = b.length)
    (h : a.take (min 256 b.length) = b.take (min 256 b.length)) : a.take 256 = b.take 256 := by
  by_cases hle : 256 ≤ b.length
  · rwa [Nat.min_eq_left hle] at h
  · have hlt : b.length ≤ 256 := Nat.le_of_not_le hle
    rw [Nat.min_eq_right hlt, List.take_length, ← hlen, List.take_length] at h
    rw [h]

/-- A match: the bytes are the contents at the moment they were read, if that was after the
request's first sample; else the contents have not changed between. -/
theorem Loaded.fresh {img : Image} (himg : Loaded inode img) {req : Request} {t : Samples}
    (ht : t.Of inode req) (hmatch : imageValidatorsMatch img req = true) (hhonest : Honest inode) :
    ∃ n v, t.head ≤ n ∧ inode.version n = some v ∧
      img.bytes.take req.wholeSize = v.content.take req.wholeSize := by
  obtain ⟨⟨t', req', read, version, ht', hle, hread, hsize', hmtime', hhave', hiVersion', hbytes⟩,
    hlength, hbufSize⟩ := himg
  obtain ⟨hsize, hmtime, hiVersion, hprior⟩ := validators_match hmatch
  by_cases hlater : t.head ≤ read
  · refine ⟨read, version, hlater, hread, ?_⟩
    rw [hbytes, List.take_take, ← hsize', hsize, Nat.min_self]
  · have hread' : read ≤ t.head := Nat.le_of_not_le hlater
    refine ⟨t.head, t.atHead, Nat.le_refl _, ht.atHead, ?_⟩
    obtain ⟨horder₁, horder₂, horder₃⟩ := ht.order
    obtain ⟨horder₁', horder₂', horder₃'⟩ := ht'.order
    -- each validator had the same value before the read and after the first sample
    have hsizes : ∀ j x, read ≤ j → j ≤ t.head → inode.version j = some x →
        x.content.length = req.wholeSize := by
      intro j x hj hj' hx
      rw [ht.wholeSize]
      refine hhonest.size t'.size j t.size _ x _ (by omega) (by omega) ht'.atSize hx ht.atSize ?_
      rw [← ht'.wholeSize, ← ht.wholeSize, ← hsize', hsize]
    have hmtimes : ∀ j x, read ≤ j → j ≤ t.head → inode.version j = some x → x.mtime =
        req.mtime := by
      intro j x hj hj' hx
      rw [ht.mtime]
      refine hhonest.mtime t'.mtime j t.mtime _ x _ (by omega)
        (by omega) ht'.atMtime hx ht.atMtime ?_
      rw [← ht'.mtime, ← ht.mtime, ← hmtime', hmtime]
    have hiVersions : inode.haveIVersion = true → ∀ j x, read ≤ j → j ≤ t.head →
        inode.version j = some x → x.iVersion = req.iVersion := by
      intro hhave j x hj hj' hx
      rw [ht.iVersion hhave]
      refine hhonest.iVersion hhave t'.iVersion j t.iVersion _ x _ (by omega)
        (by omega) ht'.atIVersion
        hx ht.atIVersion ?_
      rw [← ht'.iVersion hhave, ← ht.iVersion hhave, ← hiVersion',
        hiVersion (ht.haveIVersion.trans hhave) (hhave'.trans (ht'.haveIVersion.trans hhave))]
    have hsizeRead := hsizes read version (Nat.le_refl _) hread' hread
    have hsizeHead := hsizes t.head t.atHead hread' (Nat.le_refl _) ht.atHead
    have hbytes' : img.bytes = version.content := by
      rw [hbytes, ← hsize', hsize, ← hsizeRead, List.take_length]
    have hheads : version.content.take 256 = t.atHead.content.take 256 := by
      refine take_eq_of_prefix (hsizeRead.trans hsizeHead.symm) ?_
      have hlen : req.head.length = 256 := by
        rw [ht.head, bprmBuf, List.length_take, List.length_append, List.length_replicate]
        omega
      rw [hlen, hbufSize, hsize, ht.head, hbytes', ← hsizeHead] at hprior
      rw [hprior]
      exact take_bprmBuf (Nat.min_le_left _ _) (Nat.min_le_right _ _)
    have hcontent : version.content = t.atHead.content := by
      refine hhonest.content_eq hread' hread ht.atHead fun j x hj hj' hx => ⟨?_, ?_, ?_, ?_⟩
      · rw [hsizes j x hj hj' hx, hsizeHead]
      · rw [hmtimes j x hj hj' hx, hmtimes t.head t.atHead hread' (Nat.le_refl _) ht.atHead]
      · intro hhave
        rw [hiVersions hhave j x hj hj' hx,
          hiVersions hhave t.head t.atHead hread' (Nat.le_refl _) ht.atHead]
      · exact hhonest.head read j t.head _ x _ hj hj' hread hx ht.atHead hheads
    rw [hbytes', hcontent]

end Matching

/-- What any step may do: files gain versions, images come and go, but an image keeps all
but its count. -/
structure Grows (k k' : Kernel) : Prop where
  inodes : ∀ key, (k.inodes key).Later (k'.inodes key)
  images : ∀ image img, image < k.nextImage → k'.fixed image = some img → k.fixed image = some img
  next : k.nextImage ≤ k'.nextImage

/-- Every image was loaded from its file. -/
def Good (k : Kernel) : Prop :=
  ∀ image img, k.fixed image = some img → image < k.nextImage ∧ Loaded (k.inodes img.key) img

/-- The bytes of the image were those of the file at a moment not before `since`. -/
def Fresh (k : Kernel) (key : Key) (since wholeSize image : ℕ) : Prop :=
  image < k.nextImage ∧ ∀ img, k.fixed image = some img → Honest (k.inodes key) →
    img.bytes.length = wholeSize ∧ ∃ n v, since ≤ n ∧ (k.inodes key).version n = some v ∧
      img.bytes.take wholeSize = v.content.take wholeSize

/-- The file of an exec, whether it has begun, and the number of the version it found when
it did. -/
structure Notes where
  key : Key
  begun : Bool
  since : ℕ

def note (n : Notes) (k : Kernel) : Notes :=
  ⟨n.key, true, if n.begun then n.since else (k.inodes n.key).age⟩

/-- An exec that is about to use the image it obtained knows that the image is fresh. -/
def Shows (n : Notes) (fact : Kernel → Prop) (label : Label) : Prop :=
  (label.point = .head → n.begun = false) ∧
    ∀ image wholeSize, label.point = .returned image wholeSize → .ref image ∈ label.holds ∧
      ∀ k, Good k → fact k → Fresh k n.key n.since wholeSize image

section Growing

variable {k k' : Kernel}

theorem fresh_stable (key : Key) (since wholeSize image : ℕ) :
    Stable Grows fun k => Fresh k key since wholeSize image := by
  intro k k' h hgrows
  refine ⟨h.1.trans_le hgrows.next, fun img himg hhonest => ?_⟩
  obtain ⟨hlength, n, v, hn, hv, hbytes⟩ :=
    h.2 img (hgrows.images image img h.1 himg) ((hgrows.inodes key).honest hhonest)
  exact ⟨hlength, n, v, hn, (hgrows.inodes key).version n v hv, hbytes⟩

/-- Steps that add no image and leave the files alone. -/
structure Tame (k k' : Kernel) : Prop where
  fixed : ∀ image img, k'.fixed image = some img → k.fixed image = some img
  next : k'.nextImage = k.nextImage
  inodes : k'.inodes = k.inodes

theorem Tame.grows (h : Tame k k') : Grows k k' :=
  ⟨fun _ => h.inodes ▸ Inode.Later.refl _, fun image img _ himg => h.fixed image img himg,
    h.next ▸ Nat.le_refl _⟩

theorem Tame.good (h : Tame k k') (hgood : Good k) : Good k' := by
  intro image img himg
  rw [h.next, h.inodes]
  exact hgood image img (h.fixed image img himg)

theorem tame_refcountInc (image : ℕ) (k : Kernel) : Tame k (refcountInc image k) := by
  cases hget : k.images.get image with
  | none =>
    unfold refcountInc
    rw [hget]
    exact ⟨fun _ _ h => h, rfl, rfl⟩
  | some img =>
    rw [refcountInc_eq hget]
    exact ⟨fun image' img' himg' => setRefs_fixed hget _ image' ▸ himg', rfl, rfl⟩

theorem tame_refcountDecAndTest (image : ℕ) (k : Kernel) :
    Tame k (refcountDecAndTest image k).2 := by
  cases hget : k.images.get image with
  | none =>
    unfold refcountDecAndTest
    rw [hget]
    exact ⟨fun _ _ h => h, rfl, rfl⟩
  | some img =>
    rw [refcountDecAndTest_eq hget]
    exact ⟨fun image' img' himg' => setRefs_fixed hget _ image' ▸ himg', rfl, rfl⟩

theorem tame_release (image : ℕ) (k : Kernel) : Tame k (wasmExecImageRelease image k) := by
  cases hget : k.images.get image with
  | none =>
    unfold wasmExecImageRelease
    rw [hget]
    exact ⟨fun _ _ h => h, rfl, rfl⟩
  | some img =>
    refine ⟨fun image' img' himg' => ?_, by rw [release_eq hget], by rw [release_eq hget]⟩
    rw [release_fixed hget] at himg'
    split at himg'
    · cases himg'
    · exact himg'

theorem tame_findAndRef (req : Request) (k : Kernel) : Tame k (findAndRef req k).2 := by
  unfold findAndRef
  split
  · rename_i image _
    have htame := tame_refcountInc image k
    exact ⟨htame.fixed, htame.next, htame.inodes⟩
  · exact ⟨fun _ _ h => h, rfl, rfl⟩

theorem tame_unhashStale (req : Request) (k : Kernel) : Tame k (unhashStale req k).2 := by
  unfold unhashStale
  split
  · split <;> exact ⟨fun _ _ h => h, rfl, rfl⟩
  · exact ⟨fun _ _ h => h, rfl, rfl⟩

theorem tame_allocPagesExact (k : Kernel) : Tame k (allocPagesExact k).2 := by
  unfold allocPagesExact
  split <;> exact ⟨fun _ _ h => h, rfl, rfl⟩

end Growing

section Programs

variable {α β : Type} {n : Notes} {fact : Kernel → Prop}

/-- A part of an exec that has begun: what is known goes from `fact` to what `after` says of
the result. -/
abbrev Knows (n : Notes) (fact : Kernel → Prop) (program : Program α)
    (after : α → (Kernel → Prop) → Prop) : Prop :=
  Knowing Good Grows Enabled Shows note
    (fun m a => m.2 = n ∧ Stable Grows m.1 ∧ after a m.1) (fact, n) program

theorem knows_bind {program : Program α} {next : α → Program β} {after : β → (Kernel → Prop) → Prop}
    (mid : α → (Kernel → Prop) → Prop) (h : Knows n fact program mid)
    (hnext : ∀ a fact', Stable Grows fact' → mid a fact' → Knows n fact' (next a) after) :
    Knows n fact (program >>= next) after := by
  refine knowing_bind _ h fun m a hm => ?_
  obtain ⟨fact', n'⟩ := m
  obtain ⟨rfl, hstable, hmid⟩ := hm
  exact hnext a fact' hstable hmid

theorem knows_act {label : Label} {f : Kernel → α × Kernel} {after : α → (Kernel → Prop) → Prop}
    (hn : n.begun = true) (hstable : Stable Grows fact) (hshows : Shows n fact label)
    (h : ∀ k, Good k → fact k → Good (f k).2 ∧ Grows k (f k).2 ∧
      ∃ fact', Stable Grows fact' ∧ fact' (f k).2 ∧ after (f k).1 fact') :
    Knows n fact (.act label f) after := by
  refine knowing_act hstable hshows fun k _ hgood hfact => ?_
  obtain ⟨hgood', hgrows, fact', hstable', hfact', hafter⟩ := h k hgood hfact
  have hnote : note n k = n := by
    obtain ⟨key, begun, since⟩ := n
    cases hn
    rfl
  exact ⟨hgood', hgrows, fact', hfact', hnote, hstable', hafter⟩

/-- A program that changes nothing of what is known. -/
def Passive (program : Program α) : Prop :=
  ∀ n fact, n.begun = true → Stable Grows fact → Knows n fact program fun _ fact' => fact' = fact

theorem passive_pure (a : α) : Passive (pure a : Program α) :=
  fun _ _ _ hstable => ⟨rfl, hstable, rfl⟩

theorem passive_bind {program : Program α} {next : α → Program β} (h : Passive program)
    (hnext : ∀ a, Passive (next a)) : Passive (program >>= next) := by
  intro n fact hn hstable
  refine knows_bind _ (h n fact hn hstable) fun a fact' hstable' hsame => ?_
  rw [hsame]
  exact hnext a n fact hn hstable

theorem passive_act {label : Label} {f : Kernel → α × Kernel}
    (hpoint : label.point ≠ .head ∧ ∀ image wholeSize, label.point ≠ .returned image wholeSize)
    (h : ∀ k, Tame k (f k).2) : Passive (.act label f : Program α) := by
  intro n fact hn hstable
  refine knows_act hn hstable ⟨fun heq => (hpoint.1 heq).elim, fun image wholeSize heq =>
    (hpoint.2 image wholeSize heq).elim⟩ fun k hgood hfact => ?_
  exact ⟨(h k).good hgood, (h k).grows, fact, hstable, hstable k _ hfact (h k).grows, rfl⟩

theorem passive_releaseAll (outer : List Token) (dead : List ℕ) :
    Passive (releaseAll outer dead) := by
  induction dead with
  | nil => exact passive_pure ()
  | cons image dead ih =>
    exact passive_bind (passive_act ⟨by simp, by simp⟩ fun k => tame_release image k) fun _ => ih

theorem passive_evictIdle (outer : List Token) (reason : Reason) (maxBytes : ℕ) :
    Passive (wasmExecImageEvictIdle outer reason maxBytes) :=
  passive_bind (passive_act ⟨by simp, by simp⟩ fun _ => ⟨fun _ _ h => h, rfl, rfl⟩) fun dead =>
    passive_releaseAll outer dead

theorem passive_enforceCap (outer : List Token) : Passive (enforceCap outer) := by
  refine passive_bind (passive_act ⟨by simp, by simp⟩ fun _ => ⟨fun _ _ h => h, rfl, rfl⟩)
    fun idle => ?_
  split
  · exact passive_evictIdle outer .cap _
  · exact passive_pure ()

theorem passive_put (outer : List Token) (image : ℕ) : Passive (wasmExecImagePut outer image) := by
  refine passive_bind (passive_act ⟨by simp, by simp⟩ fun k => tame_refcountDecAndTest image k)
    fun zero => ?_
  cases zero with
  | true => exact passive_act ⟨by simp, by simp⟩ fun k => tame_release image k
  | false => exact passive_enforceCap outer

theorem passive_unhashStaleAndPut (outer : List Token) (req : Request) :
    Passive (unhashStaleAndPut outer req) := by
  refine passive_bind (passive_act ⟨by simp, by simp⟩ fun k => tame_unhashStale req k)
    fun found => ?_
  cases found with
  | some image => exact passive_bind (passive_put outer image) fun _ => passive_pure _
  | none => exact passive_pure _

theorem passive_allocOrEvict : Passive allocOrEvict := by
  refine passive_bind (passive_act ⟨by simp, by simp⟩ tame_allocPagesExact) fun result => ?_
  cases result with
  | some buf => exact passive_pure _
  | none =>
    exact passive_bind (passive_evictIdle _ .allocation _) fun _ =>
      passive_act ⟨by simp, by simp⟩ tame_allocPagesExact

theorem passive_mutexUnlock (held : List Token) :
    Passive (.act ⟨.mutexUnlock, held⟩ mutexUnlock : Program Unit) :=
  passive_act ⟨by simp, by simp⟩ fun _ => ⟨fun _ _ h => h, rfl, rfl⟩

/-- A part of an exec that goes on with what it knew. -/
theorem knows_passive {program : Program α} {next : α → Program β}
    {after : β → (Kernel → Prop) → Prop} (h : Passive program) (hn : n.begun = true)
    (hstable : Stable Grows fact) (hnext : ∀ a, Knows n fact (next a) after) :
    Knows n fact (program >>= next) after := by
  refine knows_bind _ (h n fact hn hstable) fun a fact' _ hsame => ?_
  rw [hsame]
  exact hnext a

/-- The image obtained, if there is one, is fresh. -/
def Obtained (n : Notes) (wholeSize : ℕ) (result : Except Err ℕ) (fact : Kernel → Prop) : Prop :=
  ∀ image, result = .ok image → ∀ k, fact k → Fresh k n.key n.since wholeSize image

theorem knows_error (hstable : Stable Grows fact) (wholeSize : ℕ) (e : Err) :
    Knows n fact (pure (.error e)) (Obtained n wholeSize) := by
  refine ⟨rfl, hstable, ?_⟩
  rintro image ⟨⟩

theorem sampled_stable (t : Samples) (req : Request) :
    Stable Grows fun k => t.Of (k.inodes req.key) req :=
  fun _ _ h hgrows => h.later (hgrows.inodes req.key)

/-- A hit, as the image is but for its count. -/
theorem hits_fixed {k : Kernel} {req : Request} {image : ℕ} (h : k.hits req image = true) :
    ∃ img, k.fixed image = some img ∧ img.key = req.key ∧ imageValidatorsMatch img req = true := by
  unfold Kernel.hits at h
  split at h
  · rename_i img hget
    obtain ⟨hkey, hmatch⟩ := Bool.and_eq_true_iff.mp h
    refine ⟨_, fixed_of_get hget, ?_, hmatch⟩
    obtain ⟨hsDev, hiIno⟩ := of_decide_eq_true hkey
    have hfields : img.key = ⟨img.key.sDev, img.key.iIno⟩ := rfl
    change img.key = req.key
    rw [hfields, hsDev, hiIno]
  · cases h

theorem knows_giveUp (hn : n.begun = true) (hstable : Stable Grows fact) (buf : ℕ) (e : Err)
    (wholeSize : ℕ) : Knows n fact
      (do
        Task.act ⟨.freePages, [.loadMutex, .buffer buf]⟩ (freePagesExact buf)
        Task.act ⟨.mutexUnlock, [.loadMutex]⟩ mutexUnlock
        return (.error e : Except Err ℕ)) (Obtained n wholeSize) := by
  refine knows_passive (passive_act ⟨by simp, by simp⟩ fun _ => ⟨fun _ _ h => h, rfl, rfl⟩)
    hn hstable
    fun _ => ?_
  exact knows_passive (passive_mutexUnlock _) hn hstable fun _ => knows_error hstable wholeSize e

theorem kernelRead_ok {key : Key} {wholeSize : ℕ} {k : Kernel} {bytes : List ℕ}
    (h : (kernelRead key wholeSize k).1 = .ok bytes) :
    bytes = (k.inodes key).current.content.take wholeSize ∧ bytes.length = wholeSize := by
  unfold kernelRead at h
  simp only at h
  split at h
  · cases h
  · cases h
  · split at h
    · cases h
      exact ⟨rfl, ‹_›⟩
    · cases h

section Obtaining

variable {t : Samples} {req : Request} (hn : n.begun = true) (hsince : t.head = n.since)
  (hkey : req.key = n.key)

include hsince hkey

theorem fresh_of_hits {k : Kernel} (hgood : Good k) (ht : t.Of (k.inodes req.key) req) {image : ℕ}
    (h : k.hits req image = true) : Fresh k n.key n.since req.wholeSize image := by
  obtain ⟨img, himg, hkeyed, hmatch⟩ := hits_fixed h
  obtain ⟨hlt, hloaded⟩ := hgood image img himg
  refine ⟨hlt, fun img' himg' hhonest => ?_⟩
  cases himg.symm.trans himg'
  rw [hkeyed] at hloaded
  rw [← hkey, ← hsince]
  obtain ⟨j, v, hj, hv, hbytes⟩ := hloaded.fresh ht hmatch (hkey ▸ hhonest)
  exact ⟨hloaded.length.trans (validators_match hmatch).1, j, v, hj, hv, hbytes⟩

include hn

/-- A lookup: a hit is fresh, and without one nothing is lost. -/
theorem knows_findAndRef {label : Label}
    (hpoint : label.point ≠ .head ∧ ∀ image wholeSize, label.point ≠ .returned image wholeSize) :
    Knows n (fun k => t.Of (k.inodes req.key) req) (.act label (findAndRef req))
      fun found fact' => match found with
        | some image => Obtained n req.wholeSize (.ok image) fact'
        | none => fact' = fun k => t.Of (k.inodes req.key) req := by
  refine knows_act hn (sampled_stable t req) ⟨fun heq => (hpoint.1 heq).elim,
    fun image wholeSize heq =>
    (hpoint.2 image wholeSize heq).elim⟩ fun k hgood ht => ?_
  have htame := tame_findAndRef req k
  refine ⟨htame.good hgood, htame.grows, ?_⟩
  cases hfind : k.lru.find? (k.hits req) with
  | none =>
    have hnone : findAndRef req k = (none, k) := by
      unfold findAndRef
      rw [hfind]
    rw [hnone]
    exact ⟨_, sampled_stable t req, ht, rfl⟩
  | some image =>
    have hfound : (findAndRef req k).1 = some image := by
      unfold findAndRef
      rw [hfind]
    rw [hfound]
    have hfresh := fresh_of_hits hsince hkey hgood ht (List.find?_some hfind)
    refine ⟨fun k => Fresh k n.key n.since req.wholeSize image, fresh_stable _ _ _ _,
      fresh_stable _ _ _ _ k _ hfresh htame.grows, ?_⟩
    rintro image' ⟨⟩ k' hk'
    exact hk'

/-- A new image holds what was read. -/
theorem knows_insertImage (buf : ℕ) {bytes : List ℕ} {read : ℕ} {version : Version}
    (hread : t.iVersion ≤ read) (hbytes : bytes = version.content.take req.wholeSize)
    (hlength : bytes.length = req.wholeSize) :
    Knows n (fun k => t.Of (k.inodes req.key) req ∧ (k.inodes req.key).version read = some version)
      (.act ⟨.insert, [.loadMutex, .buffer buf]⟩ (insertImage req buf bytes))
      fun image => Obtained n req.wholeSize (.ok image) := by
  refine knows_act hn ?_ ⟨nofun, nofun⟩ fun k hgood hfact => ?_
  · exact fun k k' h hgrows => ⟨h.1.later (hgrows.inodes _), (hgrows.inodes _).version _ _ h.2⟩
  · obtain ⟨ht, hversion⟩ := hfact
    have hloaded : Loaded (k.inodes req.key) ⟨0, req.key, req.wholeSize, req.mtime,
      req.haveIVersion,
        req.iVersion, buf, bytes, req.wholeSize⟩ :=
      ⟨⟨t, req, read, version, ht, hread, hversion, rfl, rfl, rfl, rfl, hbytes⟩, hlength, rfl⟩
    have hgood' : Good (insertImage req buf bytes k).2 := by
      intro image img himg
      rw [insert_fixed] at himg
      split at himg
      · rename_i heq
        cases himg
        exact ⟨heq ▸ Nat.lt_succ_self _, hloaded⟩
      · obtain ⟨hlt, hold⟩ := hgood image img himg
        exact ⟨Nat.lt_succ_of_lt hlt, hold⟩
    have hgrows : Grows k (insertImage req buf bytes k).2 := by
      refine ⟨fun _ => Inode.Later.refl _, fun image img hlt himg => ?_, Nat.le_succ _⟩
      rw [insert_fixed, if_neg (Nat.ne_of_lt hlt)] at himg
      exact himg
    have hfresh : Fresh (insertImage req buf bytes k).2 n.key n.since req.wholeSize
        k.nextImage := by
      refine ⟨Nat.lt_succ_self _, fun img himg _ => ?_⟩
      rw [insert_fixed, if_pos rfl] at himg
      cases himg
      obtain ⟨horder₁, horder₂, horder₃⟩ := ht.order
      refine ⟨hlength, read, version, by omega, hkey ▸ hversion, ?_⟩
      change bytes.take req.wholeSize = _
      rw [hbytes, List.take_take, Nat.min_self]
    refine ⟨hgood', hgrows, _, fresh_stable n.key n.since req.wholeSize k.nextImage, hfresh, ?_⟩
    rintro image ⟨⟩ k' hk'
    exact hk'

/-- What is known when the file was read: its bytes are those of the version read. -/
def ReadFile (t : Samples) (req : Request) (result : Except Err (List ℕ)) (fact : Kernel → Prop) :
    Prop :=
  match result with
  | .error _ => True
  | .ok bytes => ∃ read version, t.iVersion ≤ read ∧ bytes = version.content.take req.wholeSize ∧
      bytes.length = req.wholeSize ∧ fact = fun k => t.Of (k.inodes req.key) req ∧
        (k.inodes req.key).version read = some version

/-- The contents that are read are those of the file at that moment. -/
theorem knows_loadImage (buf : ℕ) :
    Knows n (fun k => t.Of (k.inodes req.key) req) (loadImage req buf)
      (Obtained n req.wholeSize) := by
  refine knows_bind (ReadFile t req)
    (knows_act hn (sampled_stable t req) ⟨by simp, by simp⟩ fun k hgood ht => ?_)
    fun result fact' hstable hresult => ?_
  · have htame : Tame k (kernelRead req.key req.wholeSize k).2 := ⟨fun _ _ h => h, rfl, rfl⟩
    refine ⟨htame.good hgood, htame.grows, ?_⟩
    cases hread : (kernelRead req.key req.wholeSize k).1 with
    | error e => exact ⟨_, sampled_stable t req, ht, trivial⟩
    | ok bytes =>
      refine ⟨_, ?_, ⟨ht, version_age (k.inodes req.key)⟩, (k.inodes req.key).age,
        (k.inodes req.key).current, version_lt ht.atIVersion, (kernelRead_ok hread).1,
        (kernelRead_ok hread).2, rfl⟩
      exact fun k k' h hgrows => ⟨h.1.later (hgrows.inodes _), (hgrows.inodes _).version _ _ h.2⟩
  · cases result with
    | error e => exact knows_giveUp hn hstable buf e req.wholeSize
    | ok bytes =>
      obtain ⟨read, version, hle, hbytes, hlength, rfl⟩ := hresult
      refine knows_passive (passive_act ⟨by simp, by simp⟩ fun _ => ⟨fun _ _ h => h, rfl, rfl⟩)
        hn hstable
        fun allocated => ?_
      cases allocated with
      | false => exact knows_giveUp hn hstable buf .enomem req.wholeSize
      | true =>
        refine knows_bind _ (knows_insertImage hn hsince hkey buf hle hbytes hlength)
          fun image fact' hstable' hfresh => ?_
        refine knows_passive (passive_mutexUnlock _) hn hstable' fun _ => ?_
        exact knows_passive (passive_enforceCap _) hn hstable' fun _ => ⟨rfl, hstable', hfresh⟩

theorem knows_lookupOrLoad :
    Knows n (fun k => t.Of (k.inodes req.key) req) (lookupOrLoad req)
      (Obtained n req.wholeSize) := by
  refine knows_bind _ (knows_findAndRef hn hsince hkey ⟨by simp, by simp⟩)
    fun found fact' hstable hfound => ?_
  cases found with
  | some image => exact ⟨rfl, hstable, hfound⟩
  | none =>
    obtain rfl := hfound
    refine knows_passive (passive_act ⟨by simp, by simp⟩ fun _ => ⟨fun _ _ h => h, rfl, rfl⟩)
      hn hstable
      fun _ => ?_
    refine knows_bind _ (knows_findAndRef hn hsince hkey ⟨by simp, by simp⟩)
      fun found fact' hstable' hfound => ?_
    cases found with
    | some image =>
      exact knows_passive (passive_mutexUnlock _) hn hstable' fun _ => ⟨rfl, hstable', hfound⟩
    | none =>
      obtain rfl := hfound
      refine knows_passive (passive_unhashStaleAndPut _ req) hn hstable' fun _ => ?_
      refine knows_passive passive_allocOrEvict hn hstable' fun result => ?_
      cases result with
      | some buf => exact knows_loadImage hn hsince hkey buf
      | none =>
        exact knows_passive (passive_mutexUnlock _) hn hstable' fun _ =>
          knows_error hstable' req.wholeSize .enomem

end Obtaining

theorem version_stable (key : Key) (j : ℕ) (v : Version) :
    Stable Grows fun k => (k.inodes key).version j = some v :=
  fun _ _ h hgrows => (hgrows.inodes key).version j v h

/-- The head and the size were sampled; the rest of the exec. -/
theorem knows_get {head : List ℕ} {wholeSize atSize : ℕ} {v w : Version} (hn : n.begun = true)
    (hle : n.since ≤ atSize) (hhead : head = bprmBuf v.content)
    (hsize : wholeSize = w.content.length) :
    Knows n (fun k => (k.inodes n.key).version n.since = some v ∧
        (k.inodes n.key).version atSize = some w)
      (wasmExecImageGet n.key wholeSize head) (Obtained n wholeSize) := by
  have hstable : Stable Grows fun k => (k.inodes n.key).version n.since = some v ∧
      (k.inodes n.key).version atSize = some w := fun k k' h hgrows =>
    ⟨version_stable _ _ _ k k' h.1 hgrows, version_stable _ _ _ k k' h.2 hgrows⟩
  refine knows_bind (fun mtime fact' => ∃ atMtime x, atSize ≤ atMtime ∧ mtime = x.mtime ∧
      fact' = fun k => ((k.inodes n.key).version n.since = some v ∧
        (k.inodes n.key).version atSize = some w) ∧ (k.inodes n.key).version atMtime = some x)
    (knows_act hn hstable ⟨nofun, nofun⟩ fun k hgood hfact => ?_)
      fun mtime fact' hstable' hmtime => ?_
  · have htame : Tame k k := ⟨fun _ _ h => h, rfl, rfl⟩
    refine ⟨hgood, htame.grows, _, ?_, ⟨hfact, version_age _⟩, _, _, version_lt hfact.2, rfl, rfl⟩
    exact fun k k' h hgrows => ⟨hstable k k' h.1 hgrows, version_stable _ _ _ k k' h.2 hgrows⟩
  · obtain ⟨atMtime, x, hle', hmtime, rfl⟩ := hmtime
    refine knows_bind (fun sample fact' => ∃ t : Samples, t.head = n.since ∧
        fact' = fun k => t.Of (k.inodes n.key) ⟨n.key, wholeSize, mtime, sample.1, sample.2, head⟩)
      (knows_act hn hstable' ⟨nofun, nofun⟩ fun k hgood hfact => ?_)
        fun sample fact' hstable'' hsample => ?_
    · have htame : Tame k k := ⟨fun _ _ h => h, rfl, rfl⟩
      obtain ⟨⟨hv, hw⟩, hx⟩ := hfact
      refine ⟨hgood, htame.grows, _, ?_, ?_,
        ⟨n.since, atSize, atMtime, (k.inodes n.key).age, v, w, x, (k.inodes n.key).current⟩, rfl,
        rfl⟩
      · exact sampled_stable _ ⟨n.key, wholeSize, mtime, _, _, head⟩
      · exact ⟨⟨hle, hle', version_lt hx⟩, hv, hw, hx, version_age _, hhead, hsize, hmtime, rfl,
          fun hhave => if_pos hhave⟩
    · obtain ⟨t, ht, rfl⟩ := hsample
      have hkey : Request.key ⟨n.key, wholeSize, mtime, sample.1, sample.2, head⟩ = n.key := rfl
      exact knows_lookupOrLoad hn ht hkey

/-- What every call of a pool knows: enough to show that an exec uses a fresh image. -/
abbrev Informed (m : (Kernel → Prop) × Notes) (program : Program Unit) : Prop :=
  Knowing Good Grows Enabled Shows note (fun m _ => Stable Grows m.1) m program

theorem Knows.informed {program : Program Unit} (after : Unit → (Kernel → Prop) → Prop)
    (h : Knows n fact program after) : Informed (fact, n) program :=
  follows_mono h fun _ _ hdone => hdone.2.1

theorem Passive.informed {program : Program Unit} (h : Passive program) (key : Key) :
    Informed (fun _ => True, ⟨key, true, 0⟩) program :=
  Knows.informed _ (h ⟨key, true, 0⟩ _ rfl fun _ _ _ _ => trivial)

/-- An exec knows its image is fresh when it goes on to use it. -/
theorem informed_exec (key : Key) :
    Informed (fun _ => True, ⟨key, false, 0⟩) (loadWasmFile key) := by
  refine knowing_bind (fun m head => m.2.key = key ∧ m.2.begun = true ∧ ∃ v,
      head = bprmBuf v.content ∧ m.1 = fun k => (k.inodes key).version m.2.since = some v)
    (knowing_act (fun _ _ _ _ => trivial) ⟨fun _ => rfl, nofun⟩ fun k _ hgood _ => ?_)
    fun m head hm => ?_
  · have htame : Tame k k := ⟨fun _ _ h => h, rfl, rfl⟩
    exact ⟨hgood, htame.grows,
      fun k' => (k'.inodes key).version (k.inodes key).age = some (k.inodes key).current,
      version_age (k.inodes key), rfl, rfl, _, rfl, rfl⟩
  · obtain ⟨fact, n⟩ := m
    obtain ⟨rfl, hn, v, hhead, hfact⟩ := hm
    obtain rfl : fact = fun k => (k.inodes n.key).version n.since = some v := hfact
    refine Knows.informed (fun _ _ => True) (knows_bind
      (fun wholeSize fact' => ∃ atSize w, n.since ≤ atSize ∧ wholeSize = w.content.length ∧
        fact' = fun k => (k.inodes n.key).version n.since = some v ∧
          (k.inodes n.key).version atSize = some w)
      (knows_act hn (version_stable _ _ _) ⟨nofun, nofun⟩ fun k hgood hfact => ?_)
      fun wholeSize fact' hstable hsize => ?_)
    · have htame : Tame k k := ⟨fun _ _ h => h, rfl, rfl⟩
      refine ⟨hgood, htame.grows, _, ?_, ⟨hfact, version_age _⟩, _, _, version_lt hfact, rfl, rfl⟩
      exact fun k k' h hgrows =>
        ⟨version_stable _ _ _ k k' h.1 hgrows, version_stable _ _ _ k k' h.2 hgrows⟩
    · obtain ⟨atSize, w, hle, hsize, rfl⟩ := hsize
      refine knows_bind _ (knows_get hn hle hhead hsize) fun result fact' hstable' hobtained => ?_
      cases result with
      | error e => exact ⟨rfl, hstable', trivial⟩
      | ok image =>
        refine knows_bind (fun _ _ => True) (knows_act hn hstable' ⟨nofun, ?_⟩
          fun k hgood hfact => ?_)
          fun rejected fact'' hstable'' _ => ?_
        · rintro image' wholeSize' ⟨⟩
          exact ⟨List.mem_singleton_self _, fun k _ hfact => hobtained image rfl k hfact⟩
        · have htame : Tame k (attach image k).2 := by
            unfold attach
            split <;> exact ⟨fun _ _ h => h, rfl, rfl⟩
          exact ⟨htame.good hgood, htame.grows, fact', hstable',
            hstable' k _ hfact htame.grows, trivial⟩
        · cases rejected with
          | true =>
            exact follows_mono (passive_put [] image n fact'' hn hstable'') fun _ _ hdone =>
              ⟨hdone.1, hdone.2.1, trivial⟩
          | false => exact ⟨rfl, hstable'', trivial⟩

/-- The file of an exec. -/
def Call.notes : Call → Notes
  | .exec key => ⟨key, false, 0⟩
  | _ => ⟨⟨0, 0⟩, true, 0⟩

theorem informed_call (call : Call) : Informed (fun _ => True, call.notes) call.program := by
  cases call with
  | exec key => exact informed_exec key
  | fork oldmm =>
    refine Passive.informed (passive_act ⟨by simp, by simp⟩ fun k => ?_) _
    cases k.image oldmm with
    | some image =>
      have htame := tame_refcountInc image k
      exact ⟨htame.fixed, htame.next, htame.inodes⟩
    | none => exact ⟨fun _ _ h => h, rfl, rfl⟩
  | exit mm =>
    refine Passive.informed (passive_bind (passive_act ⟨by simp, by simp⟩ fun _ =>
      ⟨fun _ _ h => h, rfl, rfl⟩) fun found => ?_) _
    cases found with
    | some image => exact passive_put [] image
    | none => exact passive_pure ()
  | shrinkCount =>
    exact Passive.informed (passive_bind (passive_act ⟨by simp, by simp⟩ fun _ =>
      ⟨fun _ _ h => h, rfl, rfl⟩) fun _ => passive_pure ()) _
  | shrinkScan maxBytes => exact Passive.informed (passive_evictIdle [] .shrinker maxBytes) _

end Programs

section Runs

variable {ι : Type} [DecidableEq ι]

/-- The pool with what its calls know. -/
abbrev Told (system : System ι) (known : ι → (Kernel → Prop) × Notes) : Prop :=
  Known Good Grows Enabled Shows note system known

theorem grows_writeFile (key : Key) (version : Version) (k : Kernel) :
    Grows k (writeFile key version k) := by
  refine ⟨fun key' => ?_, fun _ _ _ h => h, Nat.le_refl _⟩
  by_cases heq : key' = key
  · subst heq
    refine ⟨?_, fun n v hv => ?_⟩
    · simp [writeFile, Inode.write]
    · simpa [writeFile] using version_write hv version
  · have hsame : (writeFile key version k).inodes key' = k.inodes key' := by
      simp [writeFile, heq]
    rw [hsame]
    exact Inode.Later.refl _

theorem good_writeFile (key : Key) (version : Version) {k : Kernel} (h : Good k) :
    Good (writeFile key version k) := by
  intro image img himg
  obtain ⟨hlt, hloaded⟩ := h image img himg
  exact ⟨hlt, hloaded.later ((grows_writeFile key version k).inodes img.key)⟩

/-- An event: one call may make its note, the notes of the others stay. -/
theorem Told.step {system : System ι} {known : ι → (Kernel → Prop) × Notes}
    (h : Told system known) (event : Event ι) : ∃ known', Told (step system event) known' ∧
      ∀ j, (known' j).2 = (known j).2 ∨ (known' j).2 = note (known j).2 system.1 := by
  cases event with
  | turn i =>
    simp only [ExecImage.step, takeTurn]
    split
    · rename_i label hlabel
      split
      · rename_i henabled
        obtain ⟨fact, hnext⟩ := h.turn hlabel henabled
        refine ⟨_, hnext, fun j => ?_⟩
        by_cases heq : j = i
        · subst heq
          exact Or.inr (by rw [Function.update_self])
        · exact Or.inl (by rw [Function.update_of_ne heq])
      · exact ⟨known, h, fun _ => Or.inl rfl⟩
    · exact ⟨known, h, fun _ => Or.inl rfl⟩
  | modify key version =>
    exact ⟨known, h.outside (good_writeFile key version h.good)
      (grows_writeFile key version system.1), fun _ => Or.inl rfl⟩

theorem note_of_begun {n : Notes} (h : n.begun = true) (k : Kernel) : note n k = n := by
  obtain ⟨key, begun, since⟩ := n
  cases h
  rfl

/-- The file stays the same, and so do the notes of a call that has begun. -/
theorem Told.run (events : List (Event ι)) :
    ∀ {system : System ι} {known : ι → (Kernel → Prop) × Notes},
    Told system known → ∃ known', Told (run ExecImage.step system events) known' ∧
      ∀ j, (known' j).2.key = (known j).2.key ∧
        ((known j).2.begun = true → (known' j).2 = (known j).2) := by
  induction events with
  | nil =>
    intro system known h
    exact ⟨known, h, fun _ => ⟨rfl, fun _ => rfl⟩⟩
  | cons event events ih =>
    intro system known h
    obtain ⟨known₁, h₁, hnotes⟩ := h.step event
    obtain ⟨known₂, h₂, hrest⟩ := ih h₁
    refine ⟨known₂, h₂, fun j => ?_⟩
    rcases hnotes j with hsame | hsame
    · rw [← hsame]
      exact hrest j
    · refine ⟨(hrest j).1.trans (by rw [hsame]; rfl), fun hbegun => ?_⟩
      rw [note_of_begun hbegun] at hsame
      rw [← hsame]
      exact (hrest j).2 (hsame ▸ hbegun)

omit [DecidableEq ι] in
theorem told_start (inodes : Key → Inode) (chance : ℕ → Draw) (calls : ι → Call) :
    Told (start inodes chance calls) fun j => (fun _ => True, (calls j).notes) := by
  refine ⟨fun j => informed_call (calls j), fun image img himg => ?_, fun _ => trivial⟩
  have hnone : (start inodes chance calls).1.fixed image = none := rfl
  rw [hnone] at himg
  cases himg

/-- An exec that begins after `before` and has its image after `during`: the image is there,
and its bytes are those the file had at a moment between. -/
theorem exec_fresh [Fintype ι] (inodes : Key → Inode) (chance : ℕ → Draw) (calls : ι → Call)
    (before during : List (Event ι)) (i : ι) (key : Key) (image wholeSize : ℕ)
    (hcall : calls i = .exec key)
    (hbegin : ((run step (start inodes chance calls) before).2 i).label.map Label.point =
      some .head)
    (hreturn : ((run step (start inodes chance calls) (before ++ .turn i :: during)).2 i).label.map
      Label.point = some (.returned image wholeSize))
    (hhonest : Honest ((run step (start inodes chance calls)
      (before ++ .turn i :: during)).1.inodes key)) :
    ∃ img n v,
      (run step (start inodes chance calls) (before ++ .turn i :: during)).1.images.get image =
        some img ∧
      img.bytes.length = wholeSize ∧
      ((run step (start inodes chance calls) before).1.inodes key).age ≤ n ∧
      n ≤ ((run step (start inodes chance calls) (before ++ .turn i :: during)).1.inodes key).age ∧
      ((run step (start inodes chance calls) (before ++ .turn i :: during)).1.inodes key).version
        n = some v ∧
      img.bytes.take wholeSize = v.content.take wholeSize := by
  obtain ⟨known, htold, hnotes⟩ := Told.run before (told_start inodes chance calls)
  have haccounted := references_safe inodes chance calls (before ++ .turn i :: during)
  rw [run_append, run_cons] at hreturn hhonest haccounted ⊢
  set system := run step (start inodes chance calls) before
  have hkey : (known i).2.key = key := by
    rw [(hnotes i).1, hcall]
    rfl
  -- the exec begins: it notes the version it finds
  obtain ⟨label, hlabel, hpoint⟩ := Option.map_eq_some_iff.mp hbegin
  have hshows : Shows (known i).2 (known i).1 label := htold.shown hlabel
  have henabled : Enabled label system.1 := by
    intro hlock
    rw [hpoint] at hlock
    cases hlock
  have hturn : step system (.turn i) = turn system i := by
    simp only [step, takeTurn, hlabel, if_pos henabled]
  obtain ⟨fact, hbegun⟩ := htold.turn hlabel henabled
  rw [← hturn] at hbegun
  obtain ⟨known', htold', hnotes'⟩ := Told.run during hbegun
  have hnote : (known' i).2 = ⟨key, true, (system.1.inodes key).age⟩ := by
    rw [(hnotes' i).2 (by rw [Function.update_self]; rfl), Function.update_self]
    simp only [note, hshows.1 hpoint, hkey]
    rfl
  -- and uses its image: it knows that the image is fresh
  obtain ⟨label', hlabel', hpoint'⟩ := Option.map_eq_some_iff.mp hreturn
  obtain ⟨href, hfresh⟩ := (htold'.shown hlabel').2 image wholeSize hpoint'
  have hfresh := hfresh _ htold'.good (htold'.facts i)
  rw [hnote] at hfresh
  have hheld : .ref image ∈ inFlight (run step (step system (.turn i)) during) := by
    refine Multiset.mem_sum.mpr ⟨i, Finset.mem_univ i, ?_⟩
    unfold holds
    rw [hlabel']
    exact href
  obtain ⟨img, hget⟩ :=
    Option.isSome_iff_exists.mp ((haccounted.owned image).mpr (Or.inr (Or.inr (Or.inl hheld))))
  obtain ⟨hlength, n, v, hn, hv, hbytes⟩ := hfresh.2 _ (fixed_of_get hget) hhonest
  exact ⟨img, n, v, hget, hlength, hn, version_lt hv, hv, hbytes⟩

/-- A file that is rewritten after its size was sampled. -/
def rewritten : List (Event Unit) :=
  [.turn (), .modify ⟨0, 0⟩ ⟨[2, 2], ⟨2, 0⟩, 0⟩] ++ List.replicate 12 (.turn ())

theorem honest_rewritten : Honest ⟨false, ⟨[2, 2], ⟨2, 0⟩, 0⟩, [⟨[1], ⟨1, 0⟩, 0⟩]⟩ := by
  have hversions : ∀ n v, Inode.version ⟨false, ⟨[2, 2], ⟨2, 0⟩, 0⟩, [⟨[1], ⟨1, 0⟩, 0⟩]⟩ n =
    some v →
      n = 0 ∧ v = ⟨[1], ⟨1, 0⟩, 0⟩ ∨ n = 1 ∧ v = ⟨[2, 2], ⟨2, 0⟩, 0⟩ := by
    rintro (_ | _ | n) v h
    · cases h
      exact Or.inl ⟨rfl, rfl⟩
    · cases h
      exact Or.inr ⟨rfl, rfl⟩
    · cases h
  constructor
  · intro n v w hv hw hsize
    rcases hversions n v hv with ⟨rfl, rfl⟩ | ⟨rfl, rfl⟩ <;>
      rcases hversions _ w hw with ⟨heq, rfl⟩ | ⟨heq, rfl⟩ <;> simp at heq hsize
  · intro i j l u v w hij hjl hu hv hw hsame
    rcases hversions i u hu with ⟨rfl, rfl⟩ | ⟨rfl, rfl⟩ <;>
      rcases hversions j v hv with ⟨rfl, rfl⟩ | ⟨rfl, rfl⟩ <;>
      rcases hversions l w hw with ⟨rfl, rfl⟩ | ⟨rfl, rfl⟩ <;> simp at hij hjl hsame ⊢
  · intro i j l u v w hij hjl hu hv hw hsame
    rcases hversions i u hu with ⟨rfl, rfl⟩ | ⟨rfl, rfl⟩ <;>
      rcases hversions j v hv with ⟨rfl, rfl⟩ | ⟨rfl, rfl⟩ <;>
      rcases hversions l w hw with ⟨rfl, rfl⟩ | ⟨rfl, rfl⟩ <;> simp at hij hjl hsame ⊢
  · intro hhave
    cases hhave
  · intro i j l u v w hij hjl hu hv hw hsame
    rcases hversions i u hu with ⟨rfl, rfl⟩ | ⟨rfl, rfl⟩ <;>
      rcases hversions j v hv with ⟨rfl, rfl⟩ | ⟨rfl, rfl⟩ <;>
      rcases hversions l w hw with ⟨rfl, rfl⟩ | ⟨rfl, rfl⟩ <;> simp at hij hjl hsame ⊢

/-- The image is that of the newer contents, cut at the older size. -/
theorem exec_fresh_rewritten :
    ∃ img n v,
      (run step (start (fun _ => ⟨false, ⟨[1], ⟨1, 0⟩, 0⟩, []⟩) (fun _ => ⟨true, none, false⟩)
        fun _ : Unit => .exec ⟨0, 0⟩) ([] ++ .turn () :: rewritten)).1.images.get 0 = some img ∧
      img.bytes.length = 1 ∧ 0 ≤ n ∧ n ≤ 1 ∧
      Inode.version ⟨false, ⟨[2, 2], ⟨2, 0⟩, 0⟩, [⟨[1], ⟨1, 0⟩, 0⟩]⟩ n = some v ∧
      img.bytes.take 1 = v.content.take 1 :=
  exec_fresh (fun _ => ⟨false, ⟨[1], ⟨1, 0⟩, 0⟩, []⟩) (fun _ => ⟨true, none, false⟩)
    (fun _ : Unit => .exec ⟨0, 0⟩) [] rewritten () ⟨0, 0⟩ 0 1 rfl rfl (by decide +kernel)
    honest_rewritten

end Runs

end NixWasm.ExecImage
