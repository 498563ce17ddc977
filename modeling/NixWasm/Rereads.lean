import NixWasm.Leb

/-!
Reading a second time what a first reading took. A reader that stops short at the end of
its input takes less than it asks for, so its bytes may be followed by others only where
some followed them before. A rewriter reads an item and gives the bytes to write in its
place; it is echoed by a rewriter that gives these bytes back unchanged.
-/
namespace NixWasm.Bytes.Reader

variable {α β : Type}

/-- What may follow bytes read in front of `rest`. -/
def Follows (rest rest' : List UInt8) : Prop := rest = [] → rest' = []

/-- The bytes that a reader takes give the same value when they are read again. -/
def Stable (r : Reader α) : Prop :=
  ∀ bs a rest, r bs = some (a, rest) →
    ∃ xs, bs = xs ++ rest ∧ ∀ rest', Follows rest rest' → r (xs ++ rest') = some (a, rest')

/-- What `w` writes, `w'` reads and writes again. -/
def Echoes (w w' : Reader (List UInt8)) : Prop :=
  ∀ bs e rest, w bs = some (e, rest) →
    (bs = [] → e = [] ∧ rest = []) ∧
      ∀ rest', Follows rest rest' → w' (e ++ rest') = some (e, rest')

theorem follows_append {mid rest rest' ys : List UInt8} (hmid : mid = ys ++ rest)
    (h : Follows rest rest') : Follows mid (ys ++ rest') := by
  intro hnil
  rw [hmid, List.append_eq_nil_iff] at hnil
  rw [hnil.1, h hnil.2, List.append_nil]

theorem stable_of_reads {r : Reader α}
    (h : ∀ bs a rest, r bs = some (a, rest) → ∃ xs, bs = xs ++ rest ∧ Reads r xs a) :
    Stable r := by
  intro bs a rest hread
  obtain ⟨xs, hbs, hxs⟩ := h bs a rest hread
  exact ⟨xs, hbs, fun rest' _ => hxs rest'⟩

theorem stable_ofOption (o : Option α) : Stable (ofOption o) := by
  apply stable_of_reads
  intro bs a rest h
  obtain ⟨b, hb, heq⟩ := Option.map_eq_some_iff.mp h
  cases heq
  exact ⟨[], rfl, reads_ofOption hb⟩

theorem stable_pure (a : α) : Stable (pure a) := stable_ofOption (some a)

theorem stable_require (p : Prop) [Decidable p] : Stable (require p) := stable_ofOption _

theorem stable_byte : Stable byte := by
  apply stable_of_reads
  intro bs a rest h
  cases bs with
  | nil => cases h
  | cons b bs =>
    obtain ⟨rfl, rfl⟩ : b = a ∧ bs = rest := by simpa [byte] using h
    exact ⟨[b], rfl, reads_byte b⟩

theorem stable_uleb : Stable uleb := by
  apply stable_of_reads
  intro bs v rest h
  obtain ⟨l, hbs, rfl⟩ := readUleb_sound h
  exact ⟨l.bytes, hbs, reads_uleb l⟩

theorem stable_anyLeb : Stable anyLeb := by
  apply stable_of_reads
  intro bs u rest h
  induction bs with
  | nil => cases h
  | cons b bs ih =>
    by_cases hlast : b < 0x80
    · have hone : anyLeb (b :: bs) = some ((), bs) := if_pos hlast
      obtain rfl : bs = rest := by simpa [hone] using h
      exact ⟨[b], rfl, fun rest' => if_pos hlast⟩
    · have hmore : ∀ tail, anyLeb (b :: tail) = anyLeb tail := fun tail => if_neg hlast
      obtain ⟨xs, hbs, hxs⟩ := ih ((hmore bs).symm.trans h)
      refine ⟨b :: xs, by rw [hbs, List.cons_append], fun rest' => ?_⟩
      rw [List.cons_append, hmore]
      exact hxs rest'

theorem stable_upTo (n : ℕ) : Stable (upTo n) := by
  intro bs a rest h
  obtain ⟨rfl, rfl⟩ : bs.take n = a ∧ bs.drop n = rest := by simpa [upTo] using h
  refine ⟨bs.take n, (List.take_append_drop n bs).symm, fun rest' hrest => ?_⟩
  by_cases hn : n < bs.length
  · have hlen : (bs.take n).length = n := List.length_take_of_le (by omega)
    simp [upTo, List.take_left' hlen, List.drop_left' hlen]
  · rw [hrest (List.drop_eq_nil_of_le (by omega))]
    simp [upTo, List.take_take]

theorem stable_bind {r : Reader α} {f : α → Reader β} (hr : Stable r) (hf : ∀ a, Stable (f a)) :
    Stable (r >>= f) := by
  intro bs b rest h
  obtain ⟨a, mid, hfirst, hsecond⟩ := bind_eq_some h
  obtain ⟨xs, hbs, hxs⟩ := hr bs a mid hfirst
  obtain ⟨ys, hmid, hys⟩ := hf a mid b rest hsecond
  refine ⟨xs ++ ys, by rw [hbs, hmid, List.append_assoc], fun rest' hrest => ?_⟩
  change (r (xs ++ ys ++ rest')).bind (fun p => f p.1 p.2) = some (b, rest')
  rw [List.append_assoc, hxs _ (follows_append hmid hrest), Option.bind_some]
  exact hys rest' hrest

theorem stable_map {r : Reader α} (f : α → β) (hr : Stable r) : Stable (f <$> r) :=
  stable_bind hr fun a => stable_pure (f a)

/-- The bytes taken are the ones the reader says it took. -/
theorem consumed_eq_some {r : Reader α} (hr : Stable r) {bs xs rest : List UInt8} {a : α}
    (h : consumed r bs = some ((xs, a), rest)) :
    bs = xs ++ rest ∧ ∀ rest', Follows rest rest' → r (xs ++ rest') = some (a, rest') := by
  obtain ⟨⟨b, mid⟩, hread, heq⟩ := Option.map_eq_some_iff.mp h
  obtain ⟨ys, hbs, hys⟩ := hr bs b mid hread
  have htake : bs.take (bs.length - mid.length) = ys := by simp [hbs]
  simp only [htake, Prod.mk.injEq] at heq
  obtain ⟨⟨rfl, rfl⟩, rfl⟩ := heq
  exact ⟨hbs, hys⟩

theorem consumed_of_eq {r : Reader α} {xs rest : List UInt8} {a : α}
    (h : r (xs ++ rest) = some (a, rest)) : consumed r (xs ++ rest) = some ((xs, a), rest) := by
  simp [consumed, h]

/-- Bytes that are only skipped are written as they are. -/
theorem echoes_consumed {r : Reader α} (hr : Stable r) :
    Echoes (consumed r >>= fun p => pure p.1) (consumed r >>= fun p => pure p.1) := by
  intro bs e rest h
  obtain ⟨⟨xs, a⟩, mid, hread, hpure⟩ := bind_eq_some h
  obtain ⟨hbs, hxs⟩ := consumed_eq_some hr hread
  obtain ⟨rfl, rfl⟩ : xs = e ∧ mid = rest := pure_eq_some hpure
  refine ⟨fun hnil => ?_, fun rest' hrest => ?_⟩
  · rw [hbs, List.append_eq_nil_iff] at hnil
    exact hnil
  · change (consumed r (xs ++ rest')).bind (fun p => some (p.1.1, p.2)) = some (xs, rest')
    rw [consumed_of_eq (hxs rest' hrest), Option.bind_some]

/-- A part that is only skipped in front of one that is rewritten. -/
theorem echoes_after {r : Reader α} {w w' : α → Reader (List UInt8)} (hr : Stable r)
    (hw : ∀ a, Echoes (w a) (w' a)) :
    Echoes (consumed r >>= fun p => w p.2 >>= fun e => pure (p.1 ++ e))
      (consumed r >>= fun p => w' p.2 >>= fun e => pure (p.1 ++ e)) := by
  intro bs e rest h
  obtain ⟨⟨xs, a⟩, mid, hread, htail⟩ := bind_eq_some h
  obtain ⟨ys, rest₁, hwrite, hpure⟩ := bind_eq_some htail
  obtain ⟨hbs, hxs⟩ := consumed_eq_some hr hread
  obtain ⟨rfl, rfl⟩ : xs ++ ys = e ∧ rest₁ = rest := pure_eq_some hpure
  obtain ⟨hempty, hecho⟩ := hw a mid ys rest₁ hwrite
  refine ⟨fun hnil => ?_, fun rest' hrest => ?_⟩
  · rw [hbs, List.append_eq_nil_iff] at hnil
    obtain ⟨hys, hrest⟩ := hempty hnil.2
    exact ⟨by rw [hnil.1, hys, List.append_nil], hrest⟩
  · have hmid : Follows mid (ys ++ rest') := by
      intro hnil
      obtain ⟨hys, hrest₁⟩ := hempty hnil
      rw [hys, hrest hrest₁, List.append_nil]
    change (consumed r (xs ++ ys ++ rest')).bind
      (fun p => (w' p.1.2 p.2).bind fun q => some (p.1.1 ++ q.1, q.2)) = some (xs ++ ys, rest')
    rw [List.append_assoc, consumed_of_eq (hxs _ hmid), Option.bind_some, hecho rest' hrest,
      Option.bind_some]

/-- A list of rewritten items is read back item by item. -/
theorem echoes_items {w w' : Reader (List UInt8)} (hw : Echoes w w') (n : ℕ)
    {bs rest : List UInt8} {es : List (List UInt8)} (h : items w n bs = some (es, rest)) :
    (bs = [] → es.flatten = [] ∧ rest = []) ∧
      ∀ rest', Follows rest rest' → items w' n (es.flatten ++ rest') = some (es, rest') := by
  induction n generalizing bs es rest with
  | zero =>
    obtain ⟨rfl, rfl⟩ : [] = es ∧ bs = rest := pure_eq_some h
    exact ⟨fun hnil => ⟨rfl, hnil⟩, fun rest' _ => rfl⟩
  | succ n ih =>
    obtain ⟨e, mid, hfirst, htail⟩ := bind_eq_some h
    obtain ⟨⟨es', rest₁⟩, hitems, hpure⟩ := Option.bind_eq_some_iff.mp htail
    obtain ⟨rfl, rfl⟩ : e :: es' = es ∧ rest₁ = rest := by
      simpa using hpure
    obtain ⟨hempty, hecho⟩ := hw bs e mid hfirst
    obtain ⟨hempties, hechoes⟩ := ih hitems
    refine ⟨fun hnil => ?_, fun rest' hrest => ?_⟩
    · obtain ⟨he, hmid⟩ := hempty hnil
      obtain ⟨hes, hrest⟩ := hempties hmid
      exact ⟨by rw [List.flatten_cons, he, hes, List.append_nil], hrest⟩
    · have hmid : Follows mid (es'.flatten ++ rest') := by
        intro hnil
        obtain ⟨hes, hrest₁⟩ := hempties hnil
        rw [hes, hrest hrest₁, List.append_nil]
      change (w' ((e :: es').flatten ++ rest')).bind
        (fun p => (items w' n p.2).bind fun q => some (p.1 :: q.1, q.2)) = some (e :: es', rest')
      rw [List.flatten_cons, List.append_assoc, hecho _ hmid, Option.bind_some,
        hechoes rest' hrest, Option.bind_some]

end NixWasm.Bytes.Reader
