import NixWasm.MemVfs

/-!
Paths of the in-memory file system as lists of segments. Every spelling of a path is
normalised to the one whose segments are neither empty nor dots, the parent of a path drops
its last segment, and a read-only prefix guards what has its segments as a prefix, but for
the root, which guards itself alone.
-/
namespace NixWasm.MemVfs

open Unicode NinepServer

section Split

theorem splitSlash_ne_nil (p : Utf16) : splitSlash p ≠ [] := by
  cases p with
  | nil => simp [splitSlash]
  | cons u p =>
    rw [splitSlash]
    split_ifs
    · simp
    · split <;> simp

theorem splitSlash_slash (p : Utf16) : splitSlash (slash :: p) = [] :: splitSlash p := by
  rw [splitSlash, if_pos rfl]

theorem splitSlash_append (a b : Utf16) :
    splitSlash (a ++ slash :: b) = splitSlash a ++ splitSlash b := by
  induction a with
  | nil => rw [List.nil_append, splitSlash_slash]; rfl
  | cons u a ih =>
    rw [List.cons_append, splitSlash, splitSlash, ih]
    split_ifs with hu
    · rfl
    · cases hsplit : splitSlash a with
      | nil => exact absurd hsplit (splitSlash_ne_nil a)
      | cons piece pieces => rfl

theorem splitSlash_plain {s : Utf16} (h : slash ∉ s) : splitSlash s = [s] := by
  induction s with
  | nil => rfl
  | cons u s ih =>
    rw [List.mem_cons, not_or] at h
    rw [splitSlash, if_neg (Ne.symm h.1), ih h.2]

theorem slash_notMem_of_splitSlash (p : Utf16) : ∀ s ∈ splitSlash p, slash ∉ s := by
  induction p with
  | nil => simp [splitSlash]
  | cons u p ih =>
    rw [splitSlash]
    split_ifs with hu
    · simpa using ih
    · cases hsplit : splitSlash p with
      | nil => exact absurd hsplit (splitSlash_ne_nil p)
      | cons piece pieces =>
        rw [hsplit] at ih
        intro s hs
        rcases List.mem_cons.mp hs with rfl | hs
        · rw [List.mem_cons, not_or]
          exact ⟨Ne.symm hu, ih piece List.mem_cons_self⟩
        · exact ih s (List.mem_cons_of_mem _ hs)

end Split

section Join

theorem join_singleton (s : Utf16) : join [s] = s := by simp [join, List.intercalate]

theorem join_cons (s : Utf16) {segs : List Utf16} (h : segs ≠ []) :
    join (s :: segs) = s ++ slash :: join segs := by
  cases segs with
  | nil => exact absurd rfl h
  | cons t segs => simp [join, List.intercalate, List.intersperse]

theorem join_append {a b : List Utf16} (ha : a ≠ []) (hb : b ≠ []) :
    join (a ++ b) = join a ++ slash :: join b := by
  induction a with
  | nil => exact absurd rfl ha
  | cons s a ih =>
    by_cases hnil : a = []
    · subst hnil
      rw [List.singleton_append, join_cons s hb, join_singleton]
    · rw [List.cons_append, join_cons s (by simp [hnil]), ih hnil, join_cons s hnil,
        List.append_assoc, List.cons_append]

theorem splitSlash_join {segs : List Utf16} (hne : segs ≠ []) (h : ∀ s ∈ segs, slash ∉ s) :
    splitSlash (join segs) = segs := by
  induction segs with
  | nil => exact absurd rfl hne
  | cons s segs ih =>
    have hs := splitSlash_plain (h s List.mem_cons_self)
    by_cases hnil : segs = []
    · subst hnil
      rw [join_singleton, hs]
    · rw [join_cons s hnil, splitSlash_append, hs,
        ih hnil fun t ht => h t (List.mem_cons_of_mem s ht)]
      rfl

end Join

/-- A segment of a normalised path. -/
structure Plain (s : Utf16) : Prop where
  ne_nil : s ≠ []
  ne_dot : s ≠ dot
  ne_dotdot : s ≠ dotdot
  no_slash : slash ∉ s

section Segments

theorem pushSegment_plain {segs : List Utf16} {s : Utf16} (h : Plain s) :
    pushSegment segs s = segs ++ [s] := by
  rw [pushSegment, if_neg (not_or.mpr ⟨h.ne_nil, h.ne_dot⟩), if_neg h.ne_dotdot]

theorem plain_pushSegment {segs : List Utf16} {s : Utf16} (h : ∀ t ∈ segs, Plain t)
    (hs : slash ∉ s) : ∀ t ∈ pushSegment segs s, Plain t := by
  unfold pushSegment
  split_ifs with hskip hup
  · exact h
  · exact fun t ht => h t (List.dropLast_subset _ ht)
  · intro t ht
    rcases List.mem_append.mp ht with ht | ht
    · exact h t ht
    · obtain rfl := List.mem_singleton.mp ht
      rw [not_or] at hskip
      exact ⟨hskip.1, hskip.2, hup, hs⟩

theorem plain_foldl {pieces segs : List Utf16} (hpieces : ∀ s ∈ pieces, slash ∉ s)
    (h : ∀ t ∈ segs, Plain t) : ∀ t ∈ pieces.foldl pushSegment segs, Plain t := by
  induction pieces generalizing segs with
  | nil => exact h
  | cons s pieces ih =>
    exact ih (fun t ht => hpieces t (List.mem_cons_of_mem s ht))
      (plain_pushSegment h (hpieces s List.mem_cons_self))

theorem plain_segments (path : Utf16) : ∀ s ∈ segments path, Plain s :=
  plain_foldl (slash_notMem_of_splitSlash _) fun _ ht => absurd ht List.not_mem_nil

theorem foldl_pushSegment_plain {segs : List Utf16} (h : ∀ s ∈ segs, Plain s)
    (start : List Utf16) : segs.foldl pushSegment start = start ++ segs := by
  induction segs generalizing start with
  | nil => exact (List.append_nil _).symm
  | cons s segs ih =>
    rw [List.foldl_cons, pushSegment_plain (h s List.mem_cons_self),
      ih fun t ht => h t (List.mem_cons_of_mem s ht), List.append_assoc, List.singleton_append]

/-- Segments are read back from the path that they make. -/
theorem segments_join {segs : List Utf16} (h : ∀ s ∈ segs, Plain s) :
    segments (slash :: join segs) = segs := by
  rw [segments, if_neg (List.cons_ne_nil _ _), splitSlash_slash, List.foldl_cons]
  have hskip : pushSegment [] [] = [] := rfl
  rw [hskip]
  by_cases hnil : segs = []
  · subst hnil
    rfl
  · rw [splitSlash_join hnil fun s hs => (h s hs).no_slash, foldl_pushSegment_plain h,
      List.nil_append]

theorem segments_normalize (path : Utf16) : segments (normalize path) = segments path :=
  segments_join (plain_segments path)

theorem join_eq_nil {segs : List Utf16} (h : ∀ s ∈ segs, Plain s) : join segs = [] ↔ segs = [] := by
  constructor
  · intro hjoin
    have hread := segments_join h
    rw [hjoin] at hread
    exact hread.symm
  · rintro rfl
    rfl

theorem normalize_eq_slash (path : Utf16) : normalize path = [slash] ↔ segments path = [] := by
  rw [normalize, List.cons_eq_cons, join_eq_nil (plain_segments path)]
  exact and_iff_right rfl

end Segments

section Parent

theorem lastSlash_append (x : Utf16) {s : Utf16} (h : slash ∉ s) :
    lastSlash (x ++ slash :: s) = x.length := by
  have hrev : (x ++ slash :: s).reverse = s.reverse ++ slash :: x.reverse := by simp
  have hidx : (s.reverse ++ slash :: x.reverse).idxOf slash = s.length := by
    rw [List.idxOf_append_of_notMem (by simpa using h), List.idxOf_cons_self, List.length_reverse,
      Nat.add_zero]
  rw [lastSlash, hrev, hidx, List.length_append, List.length_cons]
  omega

/-- A normalised path with its last segment apart. -/
theorem normalize_of_snoc {path : Utf16} {a : List Utf16} {s : Utf16}
    (h : segments path = a ++ [s]) :
    normalize path = (if a = [] then [] else slash :: join a) ++ slash :: s := by
  rw [normalize, h]
  split_ifs with hnil
  · rw [hnil, List.nil_append, join_singleton]
    rfl
  · rw [join_append hnil (List.cons_ne_nil _ _), join_singleton]
    rfl

theorem basename_eq (path : Utf16) : basename path = (segments path).getLastD [] := by
  rcases List.eq_nil_or_concat (segments path) with hnil | ⟨a, s, hsnoc⟩
  · rw [basename, if_pos ((normalize_eq_slash path).mpr hnil), hnil]
    rfl
  · rw [List.concat_eq_append] at hsnoc
    have hplain := plain_segments path s (by rw [hsnoc]; exact List.mem_concat_self)
    have hne : normalize path ≠ [slash] := by
      rw [Ne, normalize_eq_slash, hsnoc]
      simp
    rw [basename, if_neg hne, normalize_of_snoc hsnoc, lastSlash_append _ hplain.no_slash,
      List.drop_append, hsnoc]
    simp

theorem segments_dirname (path : Utf16) : segments (dirname path) = (segments path).dropLast := by
  have hroot : segments [slash] = [] := by rfl
  rcases List.eq_nil_or_concat (segments path) with hnil | ⟨a, s, hsnoc⟩
  · rw [dirname, if_pos ((normalize_eq_slash path).mpr hnil), hnil, hroot]
    rfl
  · rw [List.concat_eq_append] at hsnoc
    have hplain := plain_segments path s (by rw [hsnoc]; exact List.mem_concat_self)
    have hne : normalize path ≠ [slash] := by
      rw [Ne, normalize_eq_slash, hsnoc]
      simp
    have ha : ∀ t ∈ a, Plain t := fun t ht =>
      plain_segments path t (by rw [hsnoc]; exact List.mem_append_left _ ht)
    rw [dirname, if_neg hne, normalize_of_snoc hsnoc, lastSlash_append _ hplain.no_slash, hsnoc,
      List.dropLast_concat]
    split_ifs with hnil hzero hzero
    · rw [hnil, hroot]
    · exact absurd rfl hzero
    · simp at hzero
    · rw [List.take_left' rfl, segments_join ha]

/-- The place of a path in the tree: a call on the root names an entry with an empty name. -/
def place (path : Utf16) : List Utf16 := (segments path).dropLast ++ [basename path]

theorem place_eq {path : Utf16} (h : segments path ≠ []) : place path = segments path := by
  rw [place, basename_eq, List.getLastD_eq_getLast?, List.getLast?_eq_some_getLast h,
    Option.getD_some, List.dropLast_append_getLast h]

theorem place_root {path : Utf16} (h : segments path = []) : place path = [[]] := by
  rw [place, basename_eq, h]
  rfl

theorem place_ne_nil (path : Utf16) : place path ≠ [] := by simp [place]

end Parent

section Prefixes

/-- The segments that a read-only prefix guards. -/
def Guards (ro p : List Utf16) : Prop := if ro = [] then p = [] else ro <+: p

theorem prefix_join {a b : List Utf16} (hne : a ≠ []) (ha : ∀ s ∈ a, slash ∉ s)
    (hb : ∀ s ∈ b, slash ∉ s) : join a ++ [slash] <+: join b ↔ a <+: b ∧ a ≠ b := by
  constructor
  · rintro ⟨t, ht⟩
    have hbne : b ≠ [] := by
      rintro rfl
      simp [join] at ht
    have hsplit : b = a ++ splitSlash t := by
      rw [← splitSlash_join hbne hb, ← ht, List.append_assoc, List.singleton_append,
        splitSlash_append, splitSlash_join hne ha]
    refine ⟨⟨_, hsplit.symm⟩, fun heq => splitSlash_ne_nil t ?_⟩
    rw [heq] at hsplit
    exact List.append_right_eq_self.mp hsplit.symm
  · rintro ⟨⟨t, rfl⟩, hneq⟩
    have ht : t ≠ [] := by
      rintro rfl
      exact hneq (List.append_nil a).symm
    exact ⟨join t, by rw [join_append hne ht]; simp⟩

theorem guards_iff (ro path : Utf16) :
    (normalize path = normalize ro ∨ normalize ro ++ [slash] <+: normalize path) ↔
      Guards (segments ro) (segments path) := by
  have heq : normalize path = normalize ro ↔ segments path = segments ro := by
    constructor
    · intro h
      rw [← segments_normalize path, h, segments_normalize]
    · intro h
      rw [normalize, h]
      rfl
  have hclean : ∀ p : Utf16, ∀ s ∈ segments p, slash ∉ s := fun p s hs =>
    (plain_segments p s hs).no_slash
  rw [heq]
  unfold Guards
  split_ifs with hnil
  · rw [hnil]
    refine ⟨fun h => h.resolve_right ?_, Or.inl⟩
    rw [(normalize_eq_slash ro).mpr hnil, normalize]
    rintro ⟨t, ht⟩
    -- two slashes in front: no normalised path has an empty segment
    have hread := segments_normalize path
    by_cases hpath : segments path = []
    · rw [hpath] at ht
      simp [join] at ht
    · have hjoin : join (segments path) = slash :: t := by simpa using ht.symm
      have hsplit := splitSlash_join hpath (hclean path)
      rw [hjoin, splitSlash_slash] at hsplit
      exact (plain_segments path [] (by rw [← hsplit]; exact List.mem_cons_self)).ne_nil rfl
  · have hstep : normalize ro ++ [slash] <+: normalize path ↔
        join (segments ro) ++ [slash] <+: join (segments path) := by
      rw [normalize, normalize, List.cons_append, List.cons_prefix_cons]
      exact and_iff_right rfl
    rw [hstep, prefix_join hnil (hclean ro) (hclean path)]
    constructor
    · rintro (h | h)
      · exact h ▸ List.prefix_rfl
      · exact h.1
    · intro h
      by_cases hsame : segments path = segments ro
      · exact Or.inl hsame
      · exact Or.inr ⟨h, Ne.symm hsame⟩

end Prefixes

/-- A path is resolved from the root along its segments. -/
theorem resolve_eq (path : Utf16) (fs : Fs) : resolve path fs = walk fs .root (segments path) := by
  unfold resolve
  by_cases hnil : segments path = []
  · rw [if_pos ((normalize_eq_slash path).mpr hnil), hnil]
    rfl
  · have hne : normalize path ≠ [slash] := fun h => hnil ((normalize_eq_slash path).mp h)
    rw [if_neg hne, normalize, List.drop_one, List.tail_cons,
      splitSlash_join hnil fun s hs => (plain_segments path s hs).no_slash]

end NixWasm.MemVfs
