import NixWasm.Bytes

/-!
Layouts of length-prefixed binary formats, for readers that check fixed fields and length
prefixes against the end of the input but cut a content short there. A scan tells how many
bytes something takes up and how many of them the reader insists on. What ends in a content
is noticed to be cut only before that content.
-/
namespace NixWasm.WireLayout

open Bytes Bytes.Reader

structure Span where
  /-- Bytes taken up, whether or not they are all there. -/
  extent : ℕ
  /-- Bytes that have to be there. -/
  need : ℕ
deriving DecidableEq

/-- One after the other: what comes first is all there once the second needs anything. -/
def Span.append (x y : Span) : Span :=
  ⟨x.extent + y.extent, if y.need = 0 then x.need else x.extent + y.need⟩

/-- Nothing when the bytes that tell the extent are missing. -/
abbrev Scan := List UInt8 → Option Span

def empty : Scan := fun _ => some ⟨0, 0⟩

def fixed (n : ℕ) : Scan := fun bytes => if n ≤ bytes.length then some ⟨n, n⟩ else none

def andThen (s t : Scan) : Scan := fun bytes =>
  (s bytes).bind fun x => (t (bytes.drop x.extent)).map x.append

/-- A number in `width` bytes, and what it announces. -/
def counted (width : ℕ) (next : ℕ → Scan) : Scan := fun bytes =>
  (fixed width bytes).bind fun x =>
    (next (leValue (bytes.take width)) (bytes.drop x.extent)).map x.append

/-- A content after its length in `width` bytes. -/
def content (width : ℕ) : Scan := counted width fun n _ => some ⟨n, 0⟩

def times (s : Scan) : ℕ → Scan
  | 0 => empty
  | n + 1 => andThen s (times s n)

/-- Items after their count in `width` bytes. -/
def counts (width : ℕ) (item : Scan) : Scan := counted width (times item)

def sequence (scans : List Scan) : Scan := scans.foldr andThen empty

section Cuts

/-- A cut input scans like the whole one as long as it has the bytes that are needed. -/
structure Cuts (s : Scan) : Prop where
  need_le : ∀ bytes x, s bytes = some x → x.need ≤ x.extent
  take : ∀ bytes k, s (bytes.take k) = (s bytes).filter fun x => x.need ≤ k

theorem Span.append_need_le {x y : Span} (hx : x.need ≤ x.extent) (hy : y.need ≤ y.extent) :
    (x.append y).need ≤ (x.append y).extent := by
  simp only [Span.append]
  split <;> omega

/-- Both parts are there when their concatenation is. -/
theorem Span.append_need_le_iff {x y : Span} (hx : x.need ≤ x.extent) (k : ℕ) :
    (x.append y).need ≤ k ↔ x.need ≤ k ∧ y.need ≤ k - x.extent := by
  simp only [Span.append]
  split <;> omega

theorem cuts_empty : Cuts empty := by
  refine ⟨?_, ?_⟩
  · rintro bytes x ⟨⟩
    exact le_refl 0
  · intro bytes k
    simp [empty, Option.filter]

theorem cuts_fixed (n : ℕ) : Cuts (fixed n) := by
  refine ⟨?_, ?_⟩
  · intro bytes x hx
    simp only [fixed, Option.ite_none_right_eq_some, Option.some.injEq] at hx
    rw [← hx.2]
  · intro bytes k
    by_cases hn : n ≤ bytes.length
    · by_cases hk : n ≤ k <;> simp [fixed, hn, hk, Option.filter]
    · simp [fixed, hn, Option.filter]

/-- What follows may depend on the bytes that told the first extent. -/
theorem cuts_bind {s : Scan} (next : List UInt8 → Scan) (hs : Cuts s)
    (hnext : ∀ bytes, Cuts (next bytes))
    (hlocal : ∀ bytes k x, s bytes = some x → x.need ≤ k → next (bytes.take k) = next bytes) :
    Cuts fun bytes => (s bytes).bind fun x => (next bytes (bytes.drop x.extent)).map x.append := by
  refine ⟨?_, ?_⟩
  · intro bytes z hz
    obtain ⟨x, hx, hz⟩ := Option.bind_eq_some_iff.mp hz
    obtain ⟨y, hy, rfl⟩ := Option.map_eq_some_iff.mp hz
    exact Span.append_need_le (hs.need_le _ _ hx) ((hnext _).need_le _ _ hy)
  · intro bytes k
    have hfirst := hs.take bytes k
    cases hx : s bytes with
    | none => simp only [hfirst, hx, Option.filter_none, Option.bind_none]
    | some x =>
      have hle := hs.need_le _ _ hx
      have hiff := fun y : Span => Span.append_need_le_iff (y := y) hle k
      by_cases hk : x.need ≤ k
      · have hrest : next (bytes.take k) ((bytes.take k).drop x.extent) =
            (next bytes (bytes.drop x.extent)).filter fun y => y.need ≤ k - x.extent := by
          rw [hlocal bytes k x hx hk, List.drop_take, (hnext bytes).take]
        simp only [hfirst, hx, Option.filter_some, hk, decide_true, if_true,
          Option.bind_some, hrest]
        cases next bytes (bytes.drop x.extent) with
        | none => rfl
        | some y =>
          by_cases hy : y.need ≤ k - x.extent <;> simp [Option.filter, hiff, hk, hy]
      · simp only [hfirst, hx, Option.filter_some, hk, decide_false, Bool.false_eq_true, if_false,
          Option.bind_none, Option.bind_some]
        cases next bytes (bytes.drop x.extent) with
        | none => rfl
        | some y => simp [Option.filter, hiff, hk]

theorem cuts_andThen {s t : Scan} (hs : Cuts s) (ht : Cuts t) : Cuts (andThen s t) :=
  cuts_bind (fun _ => t) hs (fun _ => ht) fun _ _ _ _ _ => rfl

theorem cuts_counted (width : ℕ) {next : ℕ → Scan} (hnext : ∀ n, Cuts (next n)) :
    Cuts (counted width next) := by
  refine cuts_bind (fun bytes => next (leValue (bytes.take width))) (cuts_fixed width)
    (fun _ => hnext _) ?_
  intro bytes k x hx hk
  simp only [fixed, Option.ite_none_right_eq_some, Option.some.injEq] at hx
  obtain ⟨-, rfl⟩ := hx
  rw [List.take_take, Nat.min_eq_left hk]

theorem cuts_content (width : ℕ) : Cuts (content width) := by
  refine cuts_counted width fun n => ⟨?_, ?_⟩
  · rintro bytes x ⟨⟩
    exact Nat.zero_le n
  · intro bytes k
    simp [Option.filter]

theorem cuts_times {s : Scan} (hs : Cuts s) (n : ℕ) : Cuts (times s n) := by
  induction n with
  | zero => exact cuts_empty
  | succ n ih => exact cuts_andThen hs ih

theorem cuts_counts (width : ℕ) {item : Scan} (hitem : Cuts item) : Cuts (counts width item) :=
  cuts_counted width (cuts_times hitem)

theorem cuts_sequence {scans : List Scan} (h : ∀ s ∈ scans, Cuts s) : Cuts (sequence scans) := by
  induction scans with
  | nil => exact cuts_empty
  | cons s rest ih =>
    exact cuts_andThen (h s (by simp)) (ih fun t ht => h t (by simp [ht]))

end Cuts

section Spans

/-- The bytes are the whole of what is scanned, and so many of them are needed. -/
def Spans (s : Scan) (bytes : List UInt8) (need : ℕ) : Prop :=
  ∀ rest, s (bytes ++ rest) = some ⟨bytes.length, need⟩

theorem spans_empty : Spans empty [] 0 := fun _ => rfl

theorem spans_fixed (bytes : List UInt8) : Spans (fixed bytes.length) bytes bytes.length := by
  intro rest
  simp [fixed]

theorem spans_andThen {s t : Scan} {xs ys : List UInt8} {m n : ℕ} (hs : Spans s xs m)
    (ht : Spans t ys n) :
    Spans (andThen s t) (xs ++ ys) (if n = 0 then m else xs.length + n) := by
  intro rest
  have hfirst := hs (ys ++ rest)
  simp [andThen, List.append_assoc, hfirst, ht rest, Span.append]

theorem spans_counted (width : ℕ) (next : ℕ → Scan) {n m : ℕ} {ys : List UInt8}
    (hn : n < 256 ^ width) (hnext : Spans (next n) ys m) :
    Spans (counted width next) (leBytes width n ++ ys) (width + m) := by
  intro rest
  have hprefix := spans_fixed (leBytes width n) (ys ++ rest)
  rw [leBytes_length] at hprefix
  have hvalue : leValue ((leBytes width n ++ (ys ++ rest)).take width) = n := by
    rw [List.take_left' (leBytes_length width n), leValue_leBytes, Nat.mod_eq_of_lt hn]
  have hdrop : (leBytes width n ++ (ys ++ rest)).drop width = ys ++ rest :=
    List.drop_left' (leBytes_length width n)
  rw [List.append_assoc, counted, hprefix, Option.bind_some, hvalue, hdrop, hnext rest,
    Option.map_some, Span.append, List.length_append, leBytes_length]
  by_cases hm : m = 0 <;> simp [hm]

theorem spans_content (width : ℕ) {bytes : List UInt8} (h : bytes.length < 256 ^ width) :
    Spans (content width) (leBytes width bytes.length ++ bytes) width :=
  spans_counted width (fun n _ => some ⟨n, 0⟩) (m := 0) h fun _ => rfl

variable {α : Type} (scan : α → Scan) (write : α → List UInt8) (tail : α → ℕ)

/-- What the last of the written items leaves unneeded. -/
def tailOf (as : List α) : ℕ := (as.getLast?.map tail).getD 0

theorem tailOf_cons_cons (a b : α) (rest : List α) :
    tailOf tail (a :: b :: rest) = tailOf tail (b :: rest) := by
  rw [tailOf, List.getLast?_cons_cons, tailOf]

theorem tailOf_lt {as : List α} (h : ∀ a ∈ as, tail a < (write a).length) (hne : as ≠ []) :
    tailOf tail as < (as.flatMap write).length := by
  have hlast := h _ (List.getLast_mem hne)
  have hsub := (List.sublist_flatten_of_mem
    (List.mem_map_of_mem (f := write) (List.getLast_mem hne))).length_le
  rw [tailOf, List.getLast?_eq_getLast_of_ne_nil hne, Option.map_some, Option.getD_some,
    List.flatMap_def]
  omega

theorem spans_sequence (as : List α) (htail : ∀ a ∈ as, tail a < (write a).length)
    (h : ∀ a ∈ as, Spans (scan a) (write a) ((write a).length - tail a)) :
    Spans (sequence (as.map scan)) (as.flatMap write)
      ((as.flatMap write).length - tailOf tail as) := by
  induction as with
  | nil => exact spans_empty
  | cons a rest ih =>
    have hrest := ih (fun b hb => htail b (by simp [hb])) fun b hb => h b (by simp [hb])
    have hall := spans_andThen (h a (by simp)) hrest
    cases rest with
    | nil => simpa [sequence, tailOf] using hall
    | cons b rest =>
      have hlt := tailOf_lt write tail (fun c hc => htail c (by simp [hc]))
        (List.cons_ne_nil b rest)
      rw [if_neg (by omega)] at hall
      have hneed : (write a).length + (((b :: rest).flatMap write).length -
          tailOf tail (b :: rest)) =
          ((a :: b :: rest).flatMap write).length - tailOf tail (a :: b :: rest) := by
        rw [tailOf_cons_cons, List.flatMap_cons (x := a), List.length_append]
        omega
      rwa [hneed] at hall

theorem times_eq (s : Scan) (n : ℕ) : times s n = sequence (List.replicate n s) := by
  induction n with
  | zero => rfl
  | succ n ih =>
    rw [times, ih]
    rfl

theorem spans_counts (width : ℕ) {s : Scan} (as : List α) (hcount : as.length < 256 ^ width)
    (htail : ∀ a ∈ as, tail a < (write a).length)
    (h : ∀ a ∈ as, Spans s (write a) ((write a).length - tail a)) :
    Spans (counts width s) (leBytes width as.length ++ as.flatMap write)
      (width + ((as.flatMap write).length - tailOf tail as)) := by
  have hitems := spans_sequence (fun _ => s) write tail as htail h
  rw [List.map_const', ← times_eq] at hitems
  exact spans_counted width (times s) hcount hitems

end Spans

section Readers
variable {α β : Type}

/-- The reader succeeds exactly where the scan does, and is left behind what it spans. -/
def Follows (r : Reader α) (s : Scan) : Prop := ∀ bytes,
  (s bytes = none → r bytes = none) ∧
    ∀ x, s bytes = some x → ∃ a, r bytes = some (a, bytes.drop x.extent)

theorem follows_pure (a : α) : Follows (pure a) empty := by
  refine fun bytes => ⟨by simp [empty], ?_⟩
  rintro x ⟨⟩
  exact ⟨a, rfl⟩

theorem follows_bind {r : Reader α} {f : α → Reader β} {s t : Scan} (hr : Follows r s)
    (hf : ∀ a, Follows (f a) t) : Follows (r >>= f) (andThen s t) := by
  intro bytes
  have hrun : (r >>= f) bytes = (r bytes).bind fun p => f p.1 p.2 := rfl
  cases hs : s bytes with
  | none => simp [andThen, hs, hrun, (hr bytes).1 hs]
  | some x =>
    obtain ⟨a, ha⟩ := (hr bytes).2 x hs
    have htail := hf a (bytes.drop x.extent)
    cases ht : t (bytes.drop x.extent) with
    | none => simp [andThen, hs, ht, hrun, ha, htail.1 ht]
    | some y =>
      obtain ⟨b, hb⟩ := htail.2 y ht
      refine ⟨by simp [andThen, hs, ht], ?_⟩
      simp [andThen, hs, ht, hrun, ha, hb, Span.append, List.drop_drop]

theorem follows_map {r : Reader α} (f : α → β) {s : Scan} (hr : Follows r s) :
    Follows (f <$> r) s := by
  intro bytes
  have hrun : (f <$> r) bytes = (r bytes).bind fun p => some (f p.1, p.2) := rfl
  refine ⟨fun h => by rw [hrun, (hr bytes).1 h, Option.bind_none], ?_⟩
  intro x hx
  obtain ⟨a, ha⟩ := (hr bytes).2 x hx
  exact ⟨f a, by rw [hrun, ha, Option.bind_some]⟩

/-- The last read before the value is returned. -/
theorem follows_last {r : Reader α} {f : α → β} {s : Scan} (hr : Follows r s) :
    Follows (r >>= fun a => pure (f a)) s := follows_map f hr

theorem follows_exact (n : ℕ) : Follows (exact n) (fixed n) := by
  intro bytes
  by_cases h : n ≤ bytes.length <;> simp [exact, fixed, h]

theorem follows_le (n : ℕ) : Follows (le n) (fixed n) := follows_map leValue (follows_exact n)

/-- The number that was read tells what is read next. -/
theorem follows_counted (width : ℕ) {f : ℕ → Reader α} {next : ℕ → Scan}
    (hf : ∀ n, Follows (f n) (next n)) : Follows (le width >>= f) (counted width next) := by
  intro bytes
  have hrun : (le width >>= f) bytes = (exact width bytes).bind fun p => f (leValue p.1) p.2 := by
    change ((exact width bytes).bind fun p => some (leValue p.1, p.2)).bind
      (fun p => f p.1 p.2) = _
    rw [Option.bind_assoc]
    rfl
  by_cases h : width ≤ bytes.length
  · have htail := hf (leValue (bytes.take width)) (bytes.drop width)
    have hnow : (le width >>= f) bytes = f (leValue (bytes.take width)) (bytes.drop width) := by
      rw [hrun, exact, if_pos h, Option.bind_some]
    have hscan : counted width next bytes =
        (next (leValue (bytes.take width)) (bytes.drop width)).map
          (Span.append ⟨width, width⟩) := by
      rw [counted, fixed, if_pos h, Option.bind_some]
    rw [hnow, hscan]
    refine ⟨fun hnone => htail.1 (Option.map_eq_none_iff.mp hnone), ?_⟩
    intro z hz
    obtain ⟨y, hy, rfl⟩ := Option.map_eq_some_iff.mp hz
    obtain ⟨a, ha⟩ := htail.2 y hy
    exact ⟨a, by rw [ha, List.drop_drop]; rfl⟩
  · simp [counted, fixed, hrun, exact, h]

/-- A length and the content, as far as it is there. -/
theorem follows_content (width : ℕ) (f : List UInt8 → α) :
    Follows (le width >>= fun n => f <$> upTo n) (content width) := by
  refine follows_counted width fun n bytes => ⟨by simp, ?_⟩
  rintro x ⟨⟩
  exact ⟨f (bytes.take n), rfl⟩

theorem follows_items {r : Reader α} {s : Scan} (hr : Follows r s) (n : ℕ) :
    Follows (items r n) (times s n) := by
  induction n with
  | zero => exact follows_pure []
  | succ n ih => exact follows_bind hr fun a => follows_map (a :: ·) ih

theorem follows_counts {r : Reader α} {s : Scan} (hr : Follows r s) (width : ℕ) :
    Follows (le width >>= items r) (counts width s) :=
  follows_counted width (follows_items hr)

/-- A reader that follows a scan fails on exactly the cuts that leave out needed bytes. -/
theorem Follows.take_eq_none {r : Reader α} {s : Scan} (hr : Follows r s) (hs : Cuts s)
    (bytes : List UInt8) (k : ℕ) :
    r (bytes.take k) = none ↔ ∀ x, s bytes = some x → k < x.need := by
  have htake := hs.take bytes k
  have hhead := hr (bytes.take k)
  cases hx : s bytes with
  | none =>
    rw [hx, Option.filter_none] at htake
    simp [hhead.1 htake]
  | some x =>
    rw [hx, Option.filter_some] at htake
    by_cases hk : x.need ≤ k
    · rw [if_pos (decide_eq_true hk)] at htake
      obtain ⟨a, ha⟩ := hhead.2 x htake
      simp [ha, hk]
    · rw [if_neg (by simpa using hk)] at htake
      simp [hhead.1 htake, Nat.lt_of_not_le hk]

end Readers

end NixWasm.WireLayout
