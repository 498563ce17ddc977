import NixWasm.Ninepd
import NixWasm.PathLookup
import NixWasm.Runs
import Mathlib.Data.List.TakeWhile

/-!
The recursion guard of the guest's 9P server, over runs of requests against a file-system
tree. The host's own files are where the kernel finds /mnt/yore. A path that was checked and
bound spells a place with no link on the way to it, as long as no request extends or lists a
path that is itself a link, and no name hides a dot, two dots or nothing before a NUL.
-/
namespace NixWasm.Ninepd

open Bytes PathLookup Runs

variable {η : Type}

namespace Call

def path : Call → List UInt8
  | lstat path | readlink path | openFile path | opendir path | bind path => path

/-- The call follows a link at the end of its path. -/
def follows : Call → Bool
  | lstat _ | readlink _ | bind _ => false
  | openFile _ | opendir _ => true

end Call

/-- A place in the host's own files. -/
def Excluded (tree : Tree) (p : Place) : Prop := ∃ mount ∈ lookup tree true excludePath, mount <+: p

/-- A call that stays out of the host's own files and meets no link that it follows. -/
def Guarded (tree : Tree) (c : Call) : Prop :=
  (∀ p ∈ lookup tree c.follows c.path, ¬Excluded tree p) ∧ ¬Follows tree c.follows c.path

/-- The kernel of a guest with this tree. -/
def Serves (tree : Tree) (k : Kernel η) : Prop :=
  ∀ path st, k.lstat path = .ok st → ∃ p ∈ lookup tree false path, (st.isLnk ↔ IsLink tree p)

abbrev GuestKernel (tree : Tree) (η : Type) := { k : Kernel η // Serves tree k }

/-- A connection with the calls made so far. -/
structure Session (η : Type) where
  daemon : Daemon η
  calls : List Call

namespace Session

def start (η : Type) : Session η := ⟨.new η, []⟩

def step {tree : Tree} (s : Session η) (e : GuestKernel tree η × Frame) : Session η :=
  let r := handle [slash] e.1.1 s.daemon e.2
  ⟨r.daemon, s.calls ++ r.calls⟩

end Session

/-- The names that a walk looks up, each with the path that it is joined to. -/
def looked (k : Kernel η) (serveRoot : List UInt8) :
    ℕ → List UInt8 → List UInt8 → List (List UInt8 × Name)
  | 0, _, _ => []
  | left + 1, p, path =>
    if p.length < 2 then []
    else
      let nl := leValue (p.take 2)
      let p := p.drop 2
      if p.length < nl then []
      else
        match pathJoin path (p.take nl) with
        | none => []
        | some next =>
          if isExcluded next then []
          else
            (path, p.take nl) ::
              match statPath k serveRoot next with
              | (_, .error _) => []
              | (_, .ok st) =>
                if st.isLnk ∧ left ≠ 0 then [] else looked k serveRoot left (p.drop nl) next

/-- A name that means the same to the server and to the kernel. -/
def Whole (name : Name) : Prop := 0 ∈ name → cString name ∉ [[], dot, dotdot]

/-- The path names a symbolic link. -/
def LinkPath (tree : Tree) (path : List UInt8) : Prop :=
  IsLink tree ((components path).filter (· ≠ []))

/-- No name that is looked up hides what it means, or goes on from a link. -/
def Plainly (tree : Tree) (looked : List (List UInt8 × Name)) : Prop :=
  ∀ l ∈ looked, Whole l.2 ∧ (LinkPath tree l.1 → ¬Plain l.2)

/-- The walk takes no name that hides what it means, and does not go on from a link. -/
def WalkHeeds (tree : Tree) (k : Kernel η) (d : Daemon η) (b : List UInt8) : Prop :=
  let nwname := leValue ((b.drop 8).take 2)
  10 ≤ b.length → nwname ≤ maxWelem →
    ∀ f ∈ fidGet d.fids (leValue (b.take 4)),
      Plainly tree (looked k [slash] nwname (b.drop 10) f.path)

/-- The listing is not that of a link. -/
def ReaddirHeeds (tree : Tree) (d : Daemon η) (b : List UInt8) : Prop :=
  16 ≤ b.length → ∀ f ∈ fidGet d.fids (leValue (b.take 4)),
    leValue ((b.drop 4).take 8) = 0 ∨ f.ents.isNone → ¬LinkPath tree f.path

/-- A request that the guard holds for. -/
def Heeds {tree : Tree} (s : Session η) (e : GuestKernel tree η × Frame) : Prop :=
  (e.2.type = Twalk → WalkHeeds tree e.1.1 s.daemon e.2.body) ∧
    (e.2.type = Treaddir → ReaddirHeeds tree s.daemon e.2.body)

def yore : Place := [[109, 110, 116], [121, 111, 114, 101]]

/-- /mnt/yore has no link in it, or is not there. -/
def MountInPlace (tree : Tree) : Prop := ∀ mount ∈ lookup tree true excludePath, mount = yore

theorem spell_yore : spell yore = excludePath := rfl

section Spelled

variable {p : Place}

theorem linkPath_spell {tree : Tree} (h : ∀ name ∈ p, Plain name) :
    LinkPath tree (spell p) ↔ IsLink tree p := by
  have hfilter : (components (spell p)).filter (· ≠ []) = p := by
    by_cases hp : p = []
    · subst hp
      rfl
    · rw [components_spell hp fun name hname => (h name hname).2.2.2,
        List.filter_cons, if_neg (by simp)]
      exact List.filter_eq_self.mpr fun name hname => decide_eq_true (h name hname).1
  rw [LinkPath, hfilter]

theorem parentPath_spell (h : ∀ name ∈ p, slash ∉ name) :
    parentPath (spell p) = spell p.dropLast := by
  rcases List.eq_nil_or_concat p with rfl | ⟨q, name, rfl⟩
  · rfl
  · rw [List.concat_eq_append] at *
    have hname : slash ∉ name := h name (by simp)
    have hback : ((spell (q ++ [name])).reverse.dropWhile (· ≠ 47)).tail.reverse =
        q.flatMap (slash :: ·) := by
      have hall : ∀ u ∈ name.reverse, decide (u ≠ 47) = true := by
        intro u hu
        refine decide_eq_true fun heq => hname ?_
        rw [← List.mem_reverse, show slash = u from heq.symm]
        exact hu
      rw [spell_of_ne_nil (by simp), List.flatMap_append, List.flatMap_singleton,
        List.reverse_append, List.reverse_cons, List.append_assoc,
        List.dropWhile_append_of_pos hall, List.singleton_append,
        List.dropWhile_cons_of_neg (by simp [slash]), List.tail_cons, List.reverse_reverse]
    rw [parentPath, hback, List.dropLast_concat]
    by_cases hq : q = []
    · subst hq
      rfl
    · rw [spell_of_ne_nil hq, if_neg]
      cases q with
      | nil => exact absurd rfl hq
      | cons first q => simp

theorem spell_snoc {name : Name} (h : ∀ n ∈ p, n ≠ []) :
    (if spell p = [47] then [47] else spell p ++ [47]) ++ name = spell (p ++ [name]) := by
  cases p with
  | nil => simp [spell, slash]
  | cons first p =>
    have hfirst : first ≠ [] := h first List.mem_cons_self
    have hlong : spell (first :: p) ≠ [47] := by
      rw [spell_of_ne_nil (List.cons_ne_nil _ _), List.flatMap_cons]
      simp [hfirst]
    rw [if_neg hlong, spell_of_ne_nil (List.cons_ne_nil _ _), spell_of_ne_nil (by simp)]
    simp [slash]

end Spelled

/-- A path that spells a place outside the host's own files, with no link on its way. -/
def Kept (tree : Tree) (path : List UInt8) : Prop :=
  ∃ p, path = spell p ∧ Straight tree p ∧ ¬yore <+: p

section Calls

variable {tree : Tree} {path : List UInt8}

theorem not_excluded (hmount : MountInPlace tree) {p : Place} (h : ¬yore <+: p) :
    ¬Excluded tree p := by
  rintro ⟨mount, hlookup, hprior⟩
  rw [hmount mount hlookup] at hprior
  exact h hprior

theorem Kept.guarded (hmount : MountInPlace tree) (h : Kept tree path) {c : Call}
    (hpath : c.path = path) (hlast : c.follows = true → ¬LinkPath tree path) : Guarded tree c := by
  obtain ⟨p, rfl, hstraight, hyore⟩ := h
  have hend : c.follows = true → ¬IsLink tree p := fun hfollows hlink =>
    hlast hfollows ((linkPath_spell hstraight.1).mpr hlink)
  refine ⟨fun q hq => ?_, ?_⟩
  · rw [hpath] at hq
    rw [lookup_spell hstraight hend hq]
    exact not_excluded hmount hyore
  · rw [hpath]
    exact not_follows_spell hstraight hend

theorem realPath_root {rp : List UInt8} (h : realPath [slash] path = some rp) : rp = path := by
  unfold realPath at h
  dsimp only at h
  rw [if_pos (show ([slash] : List UInt8) = [47] from rfl)] at h
  split_ifs at h
  exact (Option.some.inj h).symm

theorem Kept.statPath (hmount : MountInPlace tree) (h : Kept tree path) (k : Kernel η) :
    ∀ c ∈ (statPath k [slash] path).1, Guarded tree c := by
  unfold Ninepd.statPath
  split
  · exact fun c hc => absurd hc List.not_mem_nil
  · rename_i rp hrp
    intro c hc
    rw [List.mem_singleton.mp hc, realPath_root hrp]
    exact h.guarded hmount rfl fun hfollows => absurd hfollows Bool.false_ne_true

/-- What a successful lstat says of a path that is kept. -/
theorem Kept.link_iff (h : Kept tree path) {k : Kernel η} (hserves : Serves tree k) {st : Stat}
    (hstat : k.lstat path = .ok st) : st.isLnk ↔ LinkPath tree path := by
  obtain ⟨p, rfl, hstraight, -⟩ := h
  obtain ⟨q, hq, hlink⟩ := hserves _ _ hstat
  rw [lookup_spell hstraight (fun hfollow => absurd hfollow Bool.false_ne_true) hq] at hlink
  rw [hlink, linkPath_spell hstraight.1]

/-- A component leads to a place with no link before it. -/
theorem pathJoin_spelled {p : Place} {name path' : List UInt8} (hstraight : Straight tree p)
    (hlink : Plain name → ¬IsLink tree p) (hwhole : Whole name)
    (h : pathJoin (spell p) name = some path') :
    ∃ p', path' = spell p' ∧ Straight tree p' ∧
      (¬yore <+: p → path' ≠ excludePath → ¬yore <+: p') := by
  unfold pathJoin at h
  by_cases hbad : name = [] ∨ 47 ∈ name
  · rw [if_pos hbad] at h
    cases h
  · obtain ⟨hne, hslash⟩ := not_or.mp hbad
    rw [if_neg hbad] at h
    by_cases hdot : name = [46]
    · rw [if_pos hdot] at h
      exact ⟨p, (Option.some.inj h).symm, hstraight, fun hyore _ => hyore⟩
    · rw [if_neg hdot] at h
      by_cases hdotdot : name = [46, 46]
      · rw [if_pos hdotdot, parentPath_spell fun n hn => (hstraight.1 n hn).2.2.2] at h
        exact ⟨p.dropLast, (Option.some.inj h).symm, hstraight.dropLast,
          fun hyore _ hprior => hyore (hprior.trans (List.dropLast_prefix p))⟩
      · rw [if_neg hdotdot] at h
        have hplain : Plain name := ⟨hne, hdot, hdotdot, hslash⟩
        have hseen : Plain (cString name) := by
          by_cases hnul : 0 ∈ name
          · have hmean := hwhole hnul
            simp only [List.mem_cons, List.not_mem_nil, or_false, not_or] at hmean
            exact ⟨hmean.1, hmean.2.1, hmean.2.2, fun hmem =>
              hslash (List.takeWhile_subset _ hmem)⟩
          · have hsame : cString name = name :=
              List.takeWhile_eq_self_iff.mpr fun u hu => decide_eq_true fun heq => hnul (heq ▸ hu)
            rw [hsame]
            exact hplain
        by_cases hlong : pathMax ≤ (spell p).length + 1 + name.length + 1
        · rw [if_pos hlong] at h
          cases h
        · rw [if_neg hlong, spell_snoc fun n hn => (hstraight.1 n hn).1] at h
          have hpath := Option.some.inj h
          refine ⟨p ++ [cString name], hpath.symm,
            hstraight.snoc (fun _ => hlink hplain) hseen, fun hyore hne hprior => ?_⟩
          rcases List.prefix_concat_iff.mp hprior with heq | hprior
          · refine hne ?_
            rw [← hpath, ← heq, spell_yore]
          · exact hyore hprior

/-- What one component of a walk does: its calls are guarded, and the walk goes on only from a
path that is kept and no link. -/
theorem guarded_walkLoop (hmount : MountInPlace tree) (k : Kernel η) (left : ℕ) :
    ∀ (bytes : List UInt8) {path : List UInt8} (qids : List Qid) {calls : List Call},
      Kept tree path → Plainly tree (looked k [slash] left bytes path) →
      (∀ c ∈ calls, Guarded tree c) →
      (∀ c ∈ (walkLoop k [slash] left bytes path qids calls).1, Guarded tree c) ∧
      ∀ path' qids', (walkLoop k [slash] left bytes path qids calls).2 = .ok (path', qids') →
        qids'.length = qids.length + left → Kept tree path' := by
  induction left with
  | zero =>
    intro bytes path qids calls hkept _ hcalls
    refine ⟨hcalls, fun path' qids' h _ => ?_⟩
    cases h
    exact hkept
  | succ left ih =>
    intro bytes path qids calls hkept hplainly hcalls
    -- a walk that stops here has too few qids to bind its path
    have hstop : ∀ {stopped : List UInt8} (path' : List UInt8) (qids' : List Qid),
        walkStop stopped qids = .ok (path', qids') →
          qids'.length = qids.length + (left + 1) → Kept tree path' := by
      intro stopped path' qids' h hlen
      unfold walkStop at h
      split_ifs at h
      · cases h
        omega
    unfold looked at hplainly
    unfold walkLoop
    dsimp only at hplainly ⊢
    by_cases hshort : bytes.length < 2
    · rw [if_pos hshort]
      exact ⟨hcalls, fun _ _ h => by cases h⟩
    · rw [if_neg hshort] at hplainly ⊢
      by_cases hcut : (bytes.drop 2).length < leValue (bytes.take 2)
      · rw [if_pos hcut]
        exact ⟨hcalls, fun _ _ h => by cases h⟩
      · rw [if_neg hcut] at hplainly ⊢
        cases hjoin : pathJoin path ((bytes.drop 2).take (leValue (bytes.take 2))) with
        | none => exact ⟨hcalls, fun path' qids' => hstop path' qids'⟩
        | some next =>
          rw [hjoin] at hplainly
          dsimp only at hplainly ⊢
          by_cases hexcluded : isExcluded next
          · rw [if_pos hexcluded]
            exact ⟨hcalls, fun path' qids' => hstop path' qids'⟩
          · rw [if_neg hexcluded] at hplainly ⊢
            have hnext : Kept tree next := by
              obtain ⟨hwhole, hlink⟩ := hplainly _ List.mem_cons_self
              obtain ⟨p, rfl, hstraight, hyore⟩ := hkept
              obtain ⟨p', hspell, hstraight', hout⟩ := pathJoin_spelled hstraight
                (fun hplain hend => hlink ((linkPath_spell hstraight.1).mpr hend) hplain)
                hwhole hjoin
              exact ⟨p', hspell, hstraight', hout hyore hexcluded⟩
            have hmore := hnext.statPath hmount k
            cases hstat : Ninepd.statPath k [slash] next with
            | mk more result =>
              rw [hstat] at hmore hplainly
              have hall : ∀ c ∈ calls ++ more, Guarded tree c := fun c hc =>
                (List.mem_append.mp hc).elim (hcalls c) (hmore c)
              cases result with
              | error errno => exact ⟨hall, fun path' qids' => hstop path' qids'⟩
              | ok st =>
                dsimp only
                by_cases hend : st.isLnk ∧ left ≠ 0
                · rw [if_pos hend]
                  refine ⟨hall, fun path' qids' h _ => ?_⟩
                  cases h
                  exact hnext
                · dsimp only at hplainly
                  rw [if_neg hend] at hplainly ⊢
                  obtain ⟨hgo, hbound⟩ := ih ((bytes.drop 2).drop (leValue (bytes.take 2)))
                    (qids ++ [qidOf st]) hnext
                    (fun l hl => hplainly l (List.mem_cons_of_mem _ hl)) hall
                  refine ⟨hgo, fun path' qids' h hlen => hbound path' qids' h ?_⟩
                  rw [List.length_append, List.length_singleton]
                  omega

end Calls

section Table

variable {P : Fid η → Prop} {fids fids' : List (Option (Fid η))} {id : ℕ}

theorem fidGet_mem {f : Fid η} (h : fidGet fids id = some f) : some f ∈ fids := by
  obtain ⟨slot, hslot, hfilter⟩ := List.exists_of_findSome?_eq_some h
  cases slot with
  | none => cases hfilter
  | some g =>
    have hg := (Option.filter_eq_some_iff.mp hfilter).1
    rwa [← hg]

theorem forall_fidSet {slot : Option (Fid η)} (hslot : ∀ f, slot = some f → P f)
    (h : ∀ f, some f ∈ fids → P f) : ∀ f, some f ∈ fidSet id slot fids → P f := by
  induction fids with
  | nil => exact h
  | cons old rest ih =>
    intro f hf
    have hrest : ∀ f, some f ∈ rest → P f := fun f hf => h f (List.mem_cons_of_mem _ hf)
    unfold fidSet at hf
    split_ifs at hf
    · rcases List.mem_cons.mp hf with heq | hf
      · exact hslot f heq.symm
      · exact hrest f hf
    · rcases List.mem_cons.mp hf with heq | hf
      · exact h f (heq ▸ List.mem_cons_self)
      · exact ih hrest f hf

theorem forall_fidDrop (h : ∀ f, some f ∈ fids → P f) : ∀ f, some f ∈ fidDrop id fids → P f :=
  forall_fidSet (fun _ hnone => by cases hnone) h

theorem forall_firstFree {new : Fid η} (hnew : P new) (h : ∀ f, some f ∈ fids → P f) :
    ∀ {fids'}, firstFree new fids = some fids' → ∀ f, some f ∈ fids' → P f := by
  induction fids with
  | nil =>
    intro fids' hfree
    cases hfree
  | cons slot rest ih =>
    intro fids' hfree f hf
    have hrest : ∀ f, some f ∈ rest → P f := fun f hf => h f (List.mem_cons_of_mem _ hf)
    cases slot with
    | none =>
      cases hfree
      rcases List.mem_cons.mp hf with heq | hf
      · rw [Option.some.inj heq]
        exact hnew
      · exact hrest f hf
    | some g =>
      obtain ⟨tail, htail, rfl⟩ := Option.map_eq_some_iff.mp hfree
      rcases List.mem_cons.mp hf with heq | hf
      · rw [Option.some.inj heq]
        exact h g List.mem_cons_self
      · exact ih hrest htail f hf

theorem forall_fidNew {path : List UInt8} (hnew : P ⟨id, path, none, none⟩)
    (h : ∀ f, some f ∈ fids → P f) (hfree : fidNew id path fids = some fids') :
    ∀ f, some f ∈ fids' → P f :=
  forall_firstFree hnew (forall_fidDrop h) hfree

end Table

/-- Every fid is bound to a path that is kept. -/
def Bound (tree : Tree) (d : Daemon η) : Prop := ∀ f, some f ∈ d.fids → Kept tree f.path

/-- What a request may do: its calls are guarded, and the fids stay bound as they must. -/
def Safe (tree : Tree) (r : Outcome η) : Prop :=
  Bound tree r.daemon ∧ ∀ c ∈ r.calls, Guarded tree c

theorem bound_new (tree : Tree) : Bound tree (Daemon.new η) := by
  intro f hf
  cases List.eq_of_mem_replicate hf

section Handlers

variable {tree : Tree} {k : Kernel η} {d : Daemon η}

theorem guarded_none : ∀ c ∈ ([] : List Call), Guarded tree c :=
  fun _ hc => absurd hc List.not_mem_nil

theorem safe_quiet (h : Bound tree d) (o : Out) : Safe tree ⟨d, [], o⟩ := ⟨h, guarded_none⟩

theorem kept_root (tree : Tree) : Kept tree [slash] :=
  ⟨[], rfl, straight_nil tree, fun hprior => by cases List.prefix_nil.mp hprior⟩

theorem guarded_append_bind (hmount : MountInPlace tree) {path : List UInt8} (h : Kept tree path)
    {calls : List Call} (hcalls : ∀ c ∈ calls, Guarded tree c) :
    ∀ c ∈ calls ++ [.bind path], Guarded tree c := by
  intro c hc
  rcases List.mem_append.mp hc with hc | hc
  · exact hcalls c hc
  · rw [List.mem_singleton.mp hc]
    exact h.guarded hmount rfl fun hfollows => absurd hfollows Bool.false_ne_true

theorem safe_attach (hmount : MountInPlace tree) (h : Bound tree d) (tag : ℕ) (b : List UInt8) :
    Safe tree (doAttach k [slash] d tag b) := by
  have hcalls := (kept_root tree).statPath hmount k
  unfold doAttach
  refine iteInduction (fun _ => safe_quiet h _) fun _ => ?_
  dsimp only
  cases hnew : fidNew (leValue (b.take 4)) [47] d.fids with
  | none => exact ⟨forall_fidDrop h, guarded_none⟩
  | some fids =>
    have hfids : ∀ f, some f ∈ fids → Kept tree f.path :=
      forall_fidNew (kept_root tree) h hnew
    have hslash : ([47] : List UInt8) = [slash] := rfl
    dsimp only
    rw [hslash]
    cases hstat : statPath k [slash] [slash] with
    | mk calls result =>
      rw [hstat] at hcalls
      cases result with
      | error errno => exact ⟨forall_fidDrop hfids, hcalls⟩
      | ok st => exact ⟨hfids, guarded_append_bind hmount (kept_root tree) hcalls⟩

theorem safe_walk (hmount : MountInPlace tree) (h : Bound tree d) (tag : ℕ) {b : List UInt8}
    (hheeds : WalkHeeds tree k d b) : Safe tree (doWalk k [slash] d tag b) := by
  unfold doWalk
  refine iteInduction (fun _ => safe_quiet h _) fun hlong => ?_
  refine iteInduction (fun _ => safe_quiet h _) fun hfew => ?_
  cases hget : fidGet d.fids (leValue (b.take 4)) with
  | none => exact safe_quiet h _
  | some f =>
    obtain ⟨hcalls, hbind⟩ := guarded_walkLoop hmount k (leValue ((b.drop 8).take 2))
      (b.drop 10) [] (h f (fidGet_mem hget))
      (hheeds (Nat.le_of_not_lt hlong) (Nat.le_of_not_lt hfew) f hget) guarded_none
    dsimp only
    cases hwalk : walkLoop k [slash] (leValue ((b.drop 8).take 2)) (b.drop 10) f.path [] [] with
    | mk calls result =>
      rw [hwalk] at hcalls hbind
      cases result with
      | error ecode => exact ⟨h, hcalls⟩
      | ok reached =>
        obtain ⟨path, qids⟩ := reached
        dsimp only
        refine iteInduction (fun hall => ?_) fun _ => ⟨h, hcalls⟩
        have hpath : Kept tree path :=
          hbind path qids rfl (by rw [hall, List.length_nil, Nat.zero_add])
        cases hnew : fidNew (leValue ((b.drop 4).take 4)) path d.fids with
        | none => exact ⟨forall_fidDrop h, hcalls⟩
        | some fids =>
          exact ⟨forall_fidNew hpath h hnew, guarded_append_bind hmount hpath hcalls⟩

theorem safe_getattr (hmount : MountInPlace tree) (h : Bound tree d) (tag : ℕ) (b : List UInt8) :
    Safe tree (doGetattr k [slash] d tag b) := by
  unfold doGetattr
  refine iteInduction (fun _ => safe_quiet h _) fun _ => ?_
  cases hget : fidGet d.fids (leValue (b.take 4)) with
  | none => exact safe_quiet h _
  | some f =>
    have hcalls := (h f (fidGet_mem hget)).statPath hmount k
    dsimp only
    cases hstat : statPath k [slash] f.path with
    | mk calls result =>
      rw [hstat] at hcalls
      cases result with
      | error errno => exact ⟨h, hcalls⟩
      | ok st => exact ⟨h, hcalls⟩

theorem safe_readlink (hmount : MountInPlace tree) (h : Bound tree d) (tag : ℕ) (b : List UInt8) :
    Safe tree (doReadlink k [slash] d tag b) := by
  unfold doReadlink
  refine iteInduction (fun _ => safe_quiet h _) fun _ => ?_
  cases hget : fidGet d.fids (leValue (b.take 4)) with
  | none => exact safe_quiet h _
  | some f =>
    dsimp only
    cases hreal : realPath [slash] f.path with
    | none => exact safe_quiet h _
    | some rp =>
      have hcall : ∀ c ∈ [Call.readlink rp], Guarded tree c := by
        intro c hc
        rw [List.mem_singleton.mp hc, realPath_root hreal]
        exact (h f (fidGet_mem hget)).guarded hmount rfl fun hfollows =>
          absurd hfollows Bool.false_ne_true
      dsimp only
      cases k.readlink rp (pathMax - 1) with
      | error errno => exact ⟨h, hcall⟩
      | ok target => exact ⟨h, hcall⟩

theorem not_isLnk_of_isReg {st : Stat} (h : st.isReg) : ¬st.isLnk := by
  intro hlnk
  rw [Stat.isLnk, show st.mode &&& 0o170000 = _ from h] at hlnk
  exact absurd hlnk (by decide)

/-- Only a regular file is opened, so the call that opens it follows nothing. -/
theorem safe_lopen (hmount : MountInPlace tree) (hserves : Serves tree k) (h : Bound tree d)
    (tag : ℕ) (b : List UInt8) : Safe tree (doLopen k [slash] d tag b) := by
  unfold doLopen
  refine iteInduction (fun _ => safe_quiet h _) fun _ => ?_
  cases hget : fidGet d.fids (leValue (b.take 4)) with
  | none => exact safe_quiet h _
  | some f =>
    have hkept := h f (fidGet_mem hget)
    dsimp only
    refine iteInduction (fun _ => safe_quiet h _) fun _ => ?_
    cases hreal : realPath [slash] f.path with
    | none => exact safe_quiet h _
    | some rp =>
      rw [realPath_root hreal]
      have hlstat : Guarded tree (.lstat f.path) :=
        hkept.guarded hmount rfl fun hfollows => absurd hfollows Bool.false_ne_true
      have hone : ∀ c ∈ [Call.lstat f.path], Guarded tree c := fun c hc => by
        rw [List.mem_singleton.mp hc]
        exact hlstat
      dsimp only
      cases hstat : k.lstat f.path with
      | error errno => exact ⟨h, hone⟩
      | ok st =>
        dsimp only
        refine iteInduction (fun hreg => ?_) fun _ => ⟨h, hone⟩
        have hopen : Guarded tree (.openFile f.path) := hkept.guarded hmount rfl fun _ hlink =>
          not_isLnk_of_isReg hreg ((hkept.link_iff hserves hstat).mpr hlink)
        have htwo : ∀ c ∈ [Call.lstat f.path, .openFile f.path], Guarded tree c := by
          intro c hc
          rcases List.mem_cons.mp hc with rfl | hc
          · exact hlstat
          · rw [List.mem_singleton.mp hc]
            exact hopen
        cases k.openFile f.path with
        | error errno => exact ⟨h, htwo⟩
        | ok fd => exact ⟨forall_fidSet (fun g hg => by cases hg; exact hkept) h, htwo⟩

theorem safe_read (h : Bound tree d) (tag : ℕ) (b : List UInt8) : Safe tree (doRead k d tag b) := by
  unfold doRead
  refine iteInduction (fun _ => safe_quiet h _) fun _ => ?_
  cases fidGet d.fids (leValue (b.take 4)) with
  | none => exact safe_quiet h _
  | some f =>
    dsimp only
    cases f.fd with
    | none => exact safe_quiet h _
    | some fd =>
      dsimp only
      cases k.pread fd (clamp d.msize (leValue ((b.drop 12).take 4)))
        (leValue ((b.drop 4).take 8)) with
      | error errno => exact safe_quiet h _
      | ok got => exact safe_quiet h _

theorem safe_readdir (hmount : MountInPlace tree) (h : Bound tree d) (tag : ℕ) {b : List UInt8}
    (hheeds : ReaddirHeeds tree d b) : Safe tree (doReaddir k [slash] d tag b) := by
  unfold doReaddir
  refine iteInduction (fun _ => safe_quiet h _) fun hlong => ?_
  cases hget : fidGet d.fids (leValue (b.take 4)) with
  | none => exact safe_quiet h _
  | some f =>
    have hkept := h f (fidGet_mem hget)
    dsimp only
    cases hents : (if leValue ((b.drop 4).take 8) = 0 then none else f.ents) with
    | some ents => exact safe_quiet h _
    | none =>
      have hlink : ¬LinkPath tree f.path := by
        refine hheeds (Nat.le_of_not_lt hlong) f hget ?_
        by_cases hzero : leValue ((b.drop 4).take 8) = 0
        · exact Or.inl hzero
        · rw [if_neg hzero] at hents
          exact Or.inr (by rw [hents]; rfl)
      have hcalls : ∀ c ∈ (scanDir k [slash] f.path).1, Guarded tree c := by
        unfold scanDir
        cases hreal : realPath [slash] f.path with
        | none => exact guarded_none
        | some rp =>
          intro c hc
          rw [List.mem_singleton.mp hc, realPath_root hreal]
          exact hkept.guarded hmount rfl fun _ => hlink
      dsimp only
      cases hscan : scanDir k [slash] f.path with
      | mk calls result =>
        rw [hscan] at hcalls
        have hset : ∀ {ents : Option (List Dent)} g,
            some { f with ents } = some g → Kept tree g.path := fun g hg => by
          cases hg
          exact hkept
        cases result with
        | error errno => exact ⟨forall_fidSet hset h, hcalls⟩
        | ok ents => exact ⟨forall_fidSet hset h, hcalls⟩

theorem safe_clunk (h : Bound tree d) (tag : ℕ) (b : List UInt8) :
    Safe tree (doClunk d tag b) := by
  unfold doClunk
  exact iteInduction (fun _ => safe_quiet h _) fun _ => ⟨forall_fidDrop h, guarded_none⟩

theorem safe_version (h : Bound tree d) (tag : ℕ) (b : List UInt8) :
    Safe tree (doVersion d tag b) := by
  unfold doVersion
  refine iteInduction (fun _ => safe_quiet h _) fun _ => ?_
  exact iteInduction (fun _ => safe_quiet h _) fun _ => ⟨h, guarded_none⟩

theorem safe_handle (hmount : MountInPlace tree) (hserves : Serves tree k) (h : Bound tree d)
    (m : Frame) (hwalk : m.type = Twalk → WalkHeeds tree k d m.body)
    (hreaddir : m.type = Treaddir → ReaddirHeeds tree d m.body) :
    Safe tree (handle [slash] k d m) := by
  unfold handle
  refine iteInduction (fun _ => safe_version h _ _) fun _ => ?_
  refine iteInduction (fun _ => safe_attach hmount h _ _) fun _ => ?_
  refine iteInduction (fun htype => safe_walk hmount h _ (hwalk htype)) fun _ => ?_
  refine iteInduction (fun _ => safe_getattr hmount h _ _) fun _ => ?_
  refine iteInduction (fun _ => safe_readlink hmount h _ _) fun _ => ?_
  refine iteInduction (fun _ => safe_lopen hmount hserves h _ _) fun _ => ?_
  refine iteInduction (fun _ => safe_read h _ _) fun _ => ?_
  refine iteInduction (fun htype => safe_readdir hmount h _ (hreaddir htype)) fun _ => ?_
  refine iteInduction (fun _ => safe_quiet h _) fun _ => ?_
  refine iteInduction (fun _ => safe_clunk h _ _) fun _ => ?_
  refine iteInduction (fun _ => safe_quiet h _) fun _ => ?_
  exact iteInduction (fun _ => safe_quiet h _) fun _ => safe_quiet h _

end Handlers

/-- In every run of requests that heed the guard, no path leads into the host's own files, and
no link is followed. -/
theorem guarded_run (tree : Tree) (hmount : MountInPlace tree)
    (events : List (GuestKernel tree η × Frame))
    (h : Along Heeds Session.step (Session.start η) events) :
    ∀ c ∈ (run Session.step (Session.start η) events).calls, Guarded tree c := by
  have hrun := run_along (fun s : Session η => Bound tree s.daemon ∧ ∀ c ∈ s.calls, Guarded tree c)
    (fun s e hs heeds => ?_) events (s := Session.start η)
    ⟨bound_new tree, guarded_none⟩ h
  · exact hrun.2
  · obtain ⟨hbound, hcalls⟩ := safe_handle hmount e.1.2 hs.1 e.2 heeds.1 heeds.2
    exact ⟨hbound, fun c hc => (List.mem_append.mp hc).elim (hs.2 c) (hcalls c)⟩

section Concrete

instance (tree : Tree) (p : Place) : Decidable (Excluded tree p) :=
  inferInstanceAs (Decidable (∃ mount ∈ lookup tree true excludePath, mount <+: p))

instance (tree : Tree) (follow : Bool) (path : Name) : Decidable (Follows tree follow path) :=
  match h : scan tree follow [] (components path) with
  | .link p target rest => isTrue ⟨p, target, rest, h⟩
  | .done _ | .fail => isFalse (by simp [Follows, h])

instance (tree : Tree) : DecidablePred (Guarded tree) := fun c =>
  inferInstanceAs (Decidable ((∀ p ∈ lookup tree c.follows c.path, ¬Excluded tree p) ∧ _))

instance (tree : Tree) : Decidable (MountInPlace tree) :=
  inferInstanceAs (Decidable (∀ mount ∈ lookup tree true excludePath, mount = yore))

instance (name : Name) : Decidable (Plain name) := inferInstanceAs (Decidable (_ ∧ _ ∧ _ ∧ _))

instance (name : Name) : Decidable (Whole name) := inferInstanceAs (Decidable (_ → _))

instance (tree : Tree) (path : List UInt8) : Decidable (LinkPath tree path) :=
  inferInstanceAs (Decidable (IsLink tree _))

instance (tree : Tree) (l : List (List UInt8 × Name)) : Decidable (Plainly tree l) :=
  inferInstanceAs (Decidable (∀ e ∈ l, _ ∧ (_ → _)))

instance (tree : Tree) (k : Kernel η) (d : Daemon η) (b : List UInt8) :
    Decidable (WalkHeeds tree k d b) :=
  inferInstanceAs (Decidable (_ → _ → ∀ f ∈ fidGet d.fids (leValue (b.take 4)), _))

instance (tree : Tree) (d : Daemon η) (b : List UInt8) : Decidable (ReaddirHeeds tree d b) :=
  inferInstanceAs (Decidable (_ → ∀ f ∈ fidGet d.fids (leValue (b.take 4)), _ → _))

instance {tree : Tree} (s : Session η) (e : GuestKernel tree η × Frame) : Decidable (Heeds s e) :=
  inferInstanceAs (Decidable ((_ → _) ∧ (_ → _)))

/-- A tree by the nodes that are there. -/
def treeOf (nodes : List (Place × Node)) : Tree := fun p => nodes.lookup p

def nodeStat (node : Node) : Stat :=
  let mode :=
    match node with
    | .directory => 0o040755
    | .link _ => 0o120777
    | .other => 0o100644
  ⟨mode, 1, 1, 0, 0, 0, 0, 4096, 0, 0, 0, 0⟩

/-- A kernel over a tree whose files are empty. -/
def treeKernel (tree : Tree) (ls : Place → List Dent) : Kernel Place where
  lstat path :=
    match (lookup tree false path).bind tree with
    | none => .error ENOENT
    | some node => .ok (nodeStat node)
  readlink path size :=
    match (lookup tree false path).bind tree with
    | some (.link target) => .ok (target.take size)
    | _ => .error EINVAL
  openFile path :=
    match lookup tree true path with
    | none => .error ENOENT
    | some p => .ok p
  pread _ _ _ := .ok []
  readdir path :=
    match lookup tree true path with
    | none => .error ENOENT
    | some p => if tree p = some .directory then .ok (ls p) else .error 20
  stale := 0
  readlink_le path size target h := by
    split at h
    · cases h
      exact List.length_take_le _ _
    · cases h
  pread_le fd count off got h := by
    cases h
    exact Nat.zero_le count

theorem serves_treeKernel (tree : Tree) (ls : Place → List Dent) :
    Serves tree (treeKernel tree ls) := by
  intro path st h
  change (match (lookup tree false path).bind tree with
    | none => Except.error ENOENT
    | some node => .ok (nodeStat node)) = .ok st at h
  cases hlookup : lookup tree false path with
  | none =>
    rw [hlookup] at h
    cases h
  | some p =>
    rw [hlookup, Option.bind_some] at h
    refine ⟨p, rfl, ?_⟩
    cases hnode : tree p with
    | none =>
      rw [hnode] at h
      cases h
    | some node =>
      rw [hnode] at h
      cases h
      cases node with
      | link target =>
        exact ⟨fun _ => ⟨target, hnode⟩, fun _ => show 0o120777 &&& 0o170000 = 0o120000 by decide⟩
      | directory =>
        exact ⟨fun hlnk => absurd hlnk (by decide), fun ⟨_, hlink⟩ => by simp [hnode] at hlink⟩
      | other =>
        exact ⟨fun hlnk => absurd hlnk (by decide), fun ⟨_, hlink⟩ => by simp [hnode] at hlink⟩

/-- The entries of a directory, of unknown type. -/
def entriesOf (nodes : List (Place × Node)) (p : Place) : List Dent :=
  nodes.filterMap fun node =>
    node.1.getLast?.bind fun name => if node.1.dropLast = p then some ⟨1, 0, name⟩ else none

def guestKernel (nodes : List (Place × Node)) : GuestKernel (treeOf nodes) Place :=
  ⟨treeKernel (treeOf nodes) (entriesOf nodes), serves_treeKernel _ _⟩

def attachFrame (fid : ℕ) : Frame := ⟨Tattach, 0, leBytes 4 fid ++ leBytes 4 (2 ^ 32 - 1)⟩

def walkFrame (fid newfid : ℕ) (names : List Name) : Frame :=
  ⟨Twalk, 0, leBytes 4 fid ++ (leBytes 4 newfid ++ (leBytes 2 names.length ++
    names.flatMap fun name => leBytes 2 name.length ++ name))⟩

def readdirFrame (fid count : ℕ) : Frame :=
  ⟨Treaddir, 0, leBytes 4 fid ++ (leBytes 8 0 ++ leBytes 4 count)⟩

/-- /mnt/yore with a file "f" in it; "a" is a link to /mnt, "b" one to /mnt/yore. -/
def linkedNodes : List (Place × Node) :=
  [([], .directory), ([[109, 110, 116]], .directory), (yore, .directory), (yore ++ [[102]], .other),
    ([[97]], .link [47, 109, 110, 116]), ([[98]], .link excludePath)]

def requests (frames : List Frame) : List (GuestKernel (treeOf linkedNodes) Place × Frame) :=
  frames.map fun m => (guestKernel linkedNodes, m)

theorem guarded_walk :
    let s := run Session.step (Session.start Place) (requests [attachFrame 0,
      walkFrame 0 1 [[109, 110, 116], [46, 46], [97]], walkFrame 1 2 [[46, 46], [109, 110, 116]],
      readdirFrame 2 4096])
    s.calls ≠ [] ∧ ∀ c ∈ s.calls, Guarded (treeOf linkedNodes) c :=
  ⟨by decide +kernel, guarded_run (treeOf linkedNodes) (by decide +kernel) _ (by decide +kernel)⟩

/-- A walk goes on from a link, a link is listed, and a NUL hides an empty name: each gets into
the host's own files. -/
theorem guard_passed :
    (¬∀ c ∈ (run Session.step (Session.start Place) (requests [attachFrame 0, walkFrame 0 1 [[97]],
      walkFrame 1 2 [[121, 111, 114, 101]]])).calls, Guarded (treeOf linkedNodes) c) ∧
    (¬∀ c ∈ (run Session.step (Session.start Place) (requests [attachFrame 0, walkFrame 0 1 [[98]],
      readdirFrame 1 4096])).calls, Guarded (treeOf linkedNodes) c) ∧
    ¬∀ c ∈ (run Session.step (Session.start Place) (requests [attachFrame 0,
      walkFrame 0 1 [[109, 110, 116], [0], [121, 111, 114, 101]]])).calls,
        Guarded (treeOf linkedNodes) c := by
  decide +kernel

end Concrete

end NixWasm.Ninepd
