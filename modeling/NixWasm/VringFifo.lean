import NixWasm.IndexedRing
import NixWasm.Runs
import NixWasm.VringChains

/-!
The two rings of a virtqueue as queues, over whole runs of the guest and the device. The guest
fills the slot of its next avail entry and stores its index afterwards, for one entry or for
many; the device polls `next` and publishes used buffers at any time; the guest collects them
with an index of its own. Whatever else happens leaves the two rings alone: other queues and
devices, the guest's descriptors and buffers, memory growth.
-/
namespace NixWasm.Virtio

open Bytes ByteStore Effects Runs IndexedRing

variable {δ : Type}

section Rings

def availIdx (ring : VringLayout) (memory : List UInt8) : Option ℕ :=
  field memory (ring.avail + 2) 2

def availSlot (ring : VringLayout) (memory : List UInt8) (k : ℕ) : Option ℕ :=
  field memory (ring.avail + 4 + k * 2) 2

def usedIdx (ring : VringLayout) (memory : List UInt8) : Option ℕ :=
  field memory (ring.used + 2) 2

/-- The id and the length of a used entry. -/
def usedSlot (ring : VringLayout) (memory : List UInt8) (k : ℕ) : Option (ℕ × ℕ) :=
  (field memory (ring.used + 4 + k * 8) 4).bind fun id =>
    (field memory (ring.used + 4 + k * 8 + 4) 4).map (id, ·)

/-- Both rings lie in a memory of `m` bytes and do not overlap. -/
def Placed (ring : VringLayout) (m : ℕ) : Prop :=
  ring.avail + 4 + ring.num * 2 ≤ m ∧ ring.used + 4 + ring.num * 8 ≤ m ∧
    (ring.avail + 4 + ring.num * 2 ≤ ring.used ∨ ring.used + 4 + ring.num * 8 ≤ ring.avail)

/-- The avail ring reads the same, from its index on. -/
def SameAvail (ring : VringLayout) (a b : List UInt8) : Prop :=
  load a (ring.avail + 2) (2 + ring.num * 2) = load b (ring.avail + 2) (2 + ring.num * 2)

def SameUsed (ring : VringLayout) (a b : List UInt8) : Prop :=
  load a (ring.used + 2) (2 + ring.num * 8) = load b (ring.used + 2) (2 + ring.num * 8)

end Rings

section Guest

/-- The guest writes the entry after the `filled` ones it wrote before. -/
def fillAvail (ring : VringLayout) (filled : ℕ) (head : UInt16) (memory : List UInt8) :
    List UInt8 :=
  splice memory (ring.avail + 4 + filled % 2 ^ 16 % ring.num * 2) (leBytes 2 head.toNat)

/-- The guest exposes all the entries it wrote. -/
def exposeAvail (ring : VringLayout) (filled : ℕ) (memory : List UInt8) : List UInt8 :=
  splice memory (ring.avail + 2) (leBytes 2 (filled % 2 ^ 16))

/-- What the guest finds in the used ring with its cursor. -/
def findUsed (ring : VringLayout) (cursor : ℕ) (memory : List UInt8) : Option (ℕ × ℕ) :=
  if usedIdx ring memory = some cursor then none else usedSlot ring memory (cursor % ring.num)

end Guest

/-- A queue between the guest and the device, with the histories of both sides. -/
structure Session (δ : Type) where
  host : Host δ
  /-- Heads the guest wrote into the avail ring. -/
  filled : List UInt16
  /-- How many of them it exposed. -/
  exposed : ℕ
  /-- Heads that `next` returned. -/
  taken : List ℕ
  pushed : List (ℕ × ℕ)
  /-- Used entries the guest found. -/
  collected : List (ℕ × ℕ)

/-- The heads the guest posted, in order. -/
def Session.posted (s : Session δ) : List ℕ := (s.filled.take s.exposed).map UInt16.toNat

inductive Event (δ : Type)
  | fill (head : UInt16)
  | expose
  | poll
  | push (head len : ℕ)
  | collect
  /-- Anything that is not about the rings of this queue. -/
  | elsewhere (host : Host δ)

variable (q : ℕ) (ring : VringLayout)

def Session.step (s : Session δ) : Event δ → Session δ
  | .fill head =>
    { s with
      host := { s.host with memory := fillAvail ring s.filled.length head s.host.memory }
      filled := s.filled ++ [head] }
  | .expose =>
    { s with
      host := { s.host with memory := exposeAvail ring s.filled.length s.host.memory }
      exposed := s.filled.length }
  | .poll =>
    match next q ring s.host with
    | .ok (some chain) host => { s with host, taken := s.taken ++ [chain.head] }
    | .ok none host => { s with host }
    | .error _ host => { s with host }
  | .push head len =>
    { s with host := final (pushUsed q ring head len s.host), pushed := s.pushed ++ [(head, len)] }
  | .collect =>
    match findUsed ring (s.collected.length % 2 ^ 16) s.host.memory with
    | some entry => { s with collected := s.collected ++ [entry] }
    | none => s
  | .elsewhere host => { s with host }

/-- At most a ring full of chains is posted and not taken, and of used entries pushed and not
collected. -/
def Session.admits (s : Session δ) : Event δ → Prop
  | .fill _ => s.filled.length < s.taken.length + ring.num
  | .push _ _ => s.pushed.length < s.collected.length + ring.num
  | .elsewhere host =>
    host.lastAvail q = s.host.lastAvail q ∧ SameAvail ring host.memory s.host.memory ∧
      SameUsed ring host.memory s.host.memory
  | .expose | .poll | .collect => True

instance (m : ℕ) : Decidable (Placed ring m) := inferInstanceAs (Decidable (_ ∧ _ ∧ _))

instance (a b : List UInt8) : Decidable (SameAvail ring a b) := inferInstanceAs (Decidable (_ = _))

instance (a b : List UInt8) : Decidable (SameUsed ring a b) := inferInstanceAs (Decidable (_ = _))

instance (s : Session δ) : (e : Event δ) → Decidable (s.admits q ring e)
  | .fill _ => inferInstanceAs (Decidable (_ < _))
  | .push _ _ => inferInstanceAs (Decidable (_ < _))
  | .elsewhere _ => inferInstanceAs (Decidable (_ ∧ _ ∧ _))
  | .expose | .poll | .collect => inferInstanceAs (Decidable True)

/-- A queue that was just set up. -/
structure Session.Initial (s : Session δ) : Prop where
  placed : Placed ring s.host.memory.length
  lastAvail : s.host.lastAvail q = 0
  availIdx : availIdx ring s.host.memory = some 0
  usedIdx : usedIdx ring s.host.memory = some 0
  fresh : s.filled = [] ∧ s.exposed = 0 ∧ s.taken = [] ∧ s.pushed = [] ∧ s.collected = []

/-- A used entry as its two fields hold it. -/
def usedEntry (entry : ℕ × ℕ) : ℕ × ℕ := (entry.1 % 2 ^ 32, entry.2 % 2 ^ 32)

section Reading
variable {ring} {a b : List UInt8}

theorem field_congr {pos n : ℕ} (hsame : load a pos n = load b pos n) (hfits : pos + n ≤ b.length)
    {off k : ℕ} (hlow : pos ≤ off) (hhigh : off + k ≤ pos + n) : field a off k = field b off k := by
  obtain ⟨out, hout⟩ : ∃ out, load b pos n = some out := ⟨_, if_pos hfits⟩
  rw [field, field, load_of_load (hsame.trans hout) hlow hhigh, load_of_load hout hlow hhigh]

theorem SameAvail.idx (h : SameAvail ring a b) (hfits : ring.avail + 4 + ring.num * 2 ≤ b.length) :
    availIdx ring a = availIdx ring b :=
  field_congr h (by omega) (by omega) (by omega)

theorem SameAvail.slot (h : SameAvail ring a b) (hfits : ring.avail + 4 + ring.num * 2 ≤ b.length)
    {k : ℕ} (hk : k < ring.num) : availSlot ring a k = availSlot ring b k :=
  field_congr h (by omega) (by omega) (by omega)

theorem SameUsed.idx (h : SameUsed ring a b) (hfits : ring.used + 4 + ring.num * 8 ≤ b.length) :
    usedIdx ring a = usedIdx ring b :=
  field_congr h (by omega) (by omega) (by omega)

theorem SameUsed.slot (h : SameUsed ring a b) (hfits : ring.used + 4 + ring.num * 8 ≤ b.length)
    {k : ℕ} (hk : k < ring.num) : usedSlot ring a k = usedSlot ring b k := by
  have hid : field a (ring.used + 4 + k * 8) 4 = field b (ring.used + 4 + k * 8) 4 :=
    field_congr h (by omega) (by omega) (by omega)
  have hlen : field a (ring.used + 4 + k * 8 + 4) 4 = field b (ring.used + 4 + k * 8 + 4) 4 :=
    field_congr h (by omega) (by omega) (by omega)
  rw [usedSlot, usedSlot, hid, hlen]

/-- Rings that read the same are in the memory still. -/
theorem Placed.of_same (h : Placed ring b.length) (havail : SameAvail ring a b)
    (hused : SameUsed ring a b) : Placed ring a.length := by
  obtain ⟨hin, hin', hapart⟩ := h
  have hloaded : ∀ {pos n : ℕ}, load a pos n = load b pos n → pos + n ≤ b.length →
      pos + n ≤ a.length := by
    intro pos n hsame hfits
    by_contra hout
    rw [load, load, if_neg hout, if_pos hfits] at hsame
    cases hsame
  have ha := hloaded havail (by omega)
  have hu := hloaded hused (by omega)
  exact ⟨by omega, by omega, hapart⟩

/-- A store outside the used ring leaves it alone. -/
theorem sameUsed_splice {memory src : List UInt8} {pos : ℕ}
    (hfits : pos + src.length ≤ memory.length)
    (hapart : ring.used + 4 + ring.num * 8 ≤ pos ∨ pos + src.length ≤ ring.used + 2) :
    SameUsed ring (splice memory pos src) memory :=
  load_splice_apart hfits (by omega)

end Reading

section Operations
variable {ring} {memory : List UInt8} {h : Host δ}

/-- Filling an avail entry changes that slot alone. -/
theorem fillAvail_spec (hplaced : Placed ring memory.length) (filled : ℕ) (head : UInt16)
    (hdvd : ring.num ∣ 2 ^ 16) :
    (fillAvail ring filled head memory).length = memory.length ∧
    availIdx ring (fillAvail ring filled head memory) = availIdx ring memory ∧
    availSlot ring (fillAvail ring filled head memory) (filled % ring.num) = some head.toNat ∧
    (∀ k, k < ring.num → k ≠ filled % ring.num →
      availSlot ring (fillAvail ring filled head memory) k = availSlot ring memory k) ∧
    SameUsed ring (fillAvail ring filled head memory) memory := by
  obtain ⟨hin, -, hapart⟩ := hplaced
  have hslot : filled % 2 ^ 16 % ring.num = filled % ring.num := Nat.mod_mod_of_dvd _ hdvd
  have hlt : filled % ring.num < ring.num := Nat.mod_lt _ ring.numPos
  have hfits : ring.avail + 4 + filled % ring.num * 2 + (leBytes 2 head.toNat).length ≤
      memory.length := by
    rw [leBytes_length]
    omega
  have hhead : head.toNat % 256 ^ 2 = head.toNat := Nat.mod_eq_of_lt head.toNat_lt
  have hlen := leBytes_length 2 head.toNat
  simp only [fillAvail, hslot]
  refine ⟨splice_length hfits, field_splice_apart hfits (by omega), ?_, ?_,
    sameUsed_splice hfits (by omega)⟩
  · rw [availSlot, field_splice_self _ (by omega), hhead]
  · intro k hk hne
    exact field_splice_apart hfits (by omega)

theorem exposeAvail_spec (hplaced : Placed ring memory.length) (filled : ℕ) :
    (exposeAvail ring filled memory).length = memory.length ∧
    availIdx ring (exposeAvail ring filled memory) = some (filled % 2 ^ 16) ∧
    (∀ k, k < ring.num → availSlot ring (exposeAvail ring filled memory) k =
      availSlot ring memory k) ∧
    SameUsed ring (exposeAvail ring filled memory) memory := by
  obtain ⟨hin, -, hapart⟩ := hplaced
  have hlen := leBytes_length 2 (filled % 2 ^ 16)
  have hfits : ring.avail + 2 + (leBytes 2 (filled % 2 ^ 16)).length ≤ memory.length := by omega
  refine ⟨splice_length hfits, ?_, fun k hk => field_splice_apart hfits (by omega),
    sameUsed_splice hfits (by omega)⟩
  rw [availIdx, exposeAvail, field_splice_self _ (by omega)]
  simp

/-- The next chain, when there is one and its descriptors can be read. -/
theorem next_spec {idx head : ℕ} (hidx : availIdx ring h.memory = some idx)
    (hslot : h.lastAvail q ≠ idx →
      availSlot ring h.memory (h.lastAvail q % ring.num) = some head) :
    (h.lastAvail q = idx → next q ring h = .ok none h) ∧
    (h.lastAvail q ≠ idx →
      (∃ out in_, readChain ring head h = .ok (out, in_) h ∧
        next q ring h = .ok (some ⟨head, out, in_⟩)
          { h with
            lastAvail := Function.update h.lastAvail q ((h.lastAvail q + 1) % 2 ^ 16)
            popped := h.popped ++ [(q, head)] }) ∨
      ∃ e, readChain ring head h = .error e h ∧ next q ring h = .error e h) := by
  have hrun : next q ring h = (getUint (ring.avail + 2) 2 >>= fun idx =>
      if h.lastAvail q = idx then pure none else
        getUint (ring.avail + 4 + h.lastAvail q % ring.num * 2) 2 >>= fun head =>
          readChain ring head >>= fun segments => do
            modify fun k =>
              { k with
                lastAvail := Function.update k.lastAvail q ((h.lastAvail q + 1) % 2 ^ 16)
                popped := k.popped ++ [(q, head)] }
            pure (some ⟨head, segments.1, segments.2⟩) : Js (Host δ) _) h := rfl
  rw [hrun, getUint_bind]
  rw [availIdx] at hidx
  simp only [hidx]
  refine ⟨fun hsame => by rw [if_pos hsame]; rfl, fun hmore => ?_⟩
  have hhead := hslot hmore
  rw [availSlot] at hhead
  rw [if_neg hmore, getUint_bind]
  simp only [hhead]
  rcases readChain_spec ring head h with ⟨ds, -, -, hok⟩ | ⟨e, herror, -⟩
  · refine Or.inl ⟨_, _, hok, ?_⟩
    change EStateM.bind (readChain ring head) _ h = _
    rw [EStateM.bind, hok]
    rfl
  · refine Or.inr ⟨e, herror, ?_⟩
    change EStateM.bind (readChain ring head) _ h = _
    rw [EStateM.bind, herror]

theorem setUint_bind {α : Type} (off n v : ℕ) (f : Unit → Js (Host δ) α) (h : Host δ) :
    (setUint off n v >>= f) h =
      if off + n ≤ h.memory.length then
        f () { h with memory := splice h.memory off (leBytes n v) }
      else .error outOfBounds h := by
  by_cases hfits : off + n ≤ h.memory.length <;>
    simp [setUint, store, hfits, run_bind, run_get, run_modify, run_throw]

/-- A used buffer is published in the slot of the used index, which moves on. -/
theorem pushUsed_spec (hplaced : Placed ring h.memory.length) {idx : ℕ}
    (hidx : usedIdx ring h.memory = some idx) (head len : ℕ) :
    ∃ memory, pushUsed q ring head len h =
        .ok () { h with memory, pushed := h.pushed ++ [(q, head, len)] } ∧
      memory.length = h.memory.length ∧ usedIdx ring memory = some ((idx + 1) % 2 ^ 16) ∧
      usedSlot ring memory (idx % ring.num) = some (usedEntry (head, len)) ∧
      (∀ k, k < ring.num → k ≠ idx % ring.num →
        usedSlot ring memory k = usedSlot ring h.memory k) ∧
      ∀ pos n, (pos + n ≤ ring.used + 2 ∨ ring.used + 4 + ring.num * 8 ≤ pos) →
        load memory pos n = load h.memory pos n := by
  obtain ⟨hin, hin', hapart⟩ := hplaced
  have hlt : idx % ring.num < ring.num := Nat.mod_lt _ ring.numPos
  have hlength := fun n v : ℕ => leBytes_length n v
  let elem := ring.used + 4 + idx % ring.num * 8
  let id := splice h.memory elem (leBytes 4 head)
  let entry := splice id (elem + 4) (leBytes 4 len)
  let memory := splice entry (ring.used + 2) (leBytes 2 ((idx + 1) % 2 ^ 16))
  have hid : elem + (leBytes 4 head).length ≤ h.memory.length := by rw [hlength]; omega
  have hidlen : id.length = h.memory.length := splice_length hid
  have hentry : elem + 4 + (leBytes 4 len).length ≤ id.length := by rw [hlength, hidlen]; omega
  have hentrylen : entry.length = h.memory.length := (splice_length hentry).trans hidlen
  have hmemory : ring.used + 2 + (leBytes 2 ((idx + 1) % 2 ^ 16)).length ≤ entry.length := by
    rw [hlength, hentrylen]
    omega
  have hmemorylen : memory.length = h.memory.length := (splice_length hmemory).trans hentrylen
  -- a field outside the three stores reads as before
  have hkept : ∀ off n, (off + n ≤ elem ∨ elem + 8 ≤ off) →
      (off + n ≤ ring.used + 2 ∨ ring.used + 4 ≤ off) →
      field memory off n = field h.memory off n := by
    intro off n hslot hindex
    rw [field_splice_apart hmemory (by rw [hlength]; omega),
      field_splice_apart hentry (by rw [hlength]; omega),
      field_splice_apart hid (by rw [hlength]; omega)]
  refine ⟨memory, ?_, hmemorylen, ?_, ?_, ?_, ?_⟩
  · rw [pushUsed, getUint_bind]
    rw [usedIdx] at hidx
    simp only [hidx]
    rw [setUint_bind, if_pos (by rwa [hlength] at hid), setUint_bind,
      if_pos (by rwa [hlength] at hentry), setUint_bind, if_pos (by rwa [hlength] at hmemory)]
    rfl
  · rw [usedIdx, field_splice_self _ (by rwa [hlength] at hmemory), Nat.mod_eq_of_lt]
    exact Nat.mod_lt _ (by decide)
  · have hwidth : (256 : ℕ) ^ 4 = 2 ^ 32 := by norm_num
    have hfirst : field memory elem 4 = some (head % 2 ^ 32) := by
      rw [field_splice_apart hmemory (by rw [hlength]; omega),
        field_splice_apart hentry (by omega), field_splice_self _ (by rwa [hlength] at hid), hwidth]
    have hsecond : field memory (elem + 4) 4 = some (len % 2 ^ 32) := by
      rw [field_splice_apart hmemory (by rw [hlength]; omega),
        field_splice_self _ (by rwa [hlength] at hentry), hwidth]
    rw [usedSlot, hfirst, Option.bind_some, hsecond]
    rfl
  · intro k hk hne
    have hapart : k * 8 + 8 ≤ idx % ring.num * 8 ∨ idx % ring.num * 8 + 8 ≤ k * 8 := by omega
    rw [usedSlot, usedSlot, hkept _ _ (by omega) (by omega), hkept _ _ (by omega) (by omega)]
  · intro pos n hout
    rw [load_splice_apart hmemory (by rw [hlength]; omega),
      load_splice_apart hentry (by rw [hlength]; omega),
      load_splice_apart hid (by rw [hlength]; omega)]

end Operations

section Invariant
variable {q ring}

/-- The two rings hold what is on its way, and the histories of the two ends agree. -/
structure Session.Inv (q : ℕ) (ring : VringLayout) (s : Session δ) : Prop where
  placed : Placed ring s.host.memory.length
  lastAvail : s.host.lastAvail q = s.taken.length % 2 ^ 16
  availIdx : availIdx ring s.host.memory = some (s.exposed % 2 ^ 16)
  avail : Window ring.num (availSlot ring s.host.memory) (s.filled.map UInt16.toNat) s.exposed
    s.taken.length
  taken : s.taken = (s.filled.map UInt16.toNat).take s.taken.length
  usedIdx : usedIdx ring s.host.memory = some (s.pushed.length % 2 ^ 16)
  used : Window ring.num (usedSlot ring s.host.memory) (s.pushed.map usedEntry) s.pushed.length
    s.collected.length
  collected : s.collected = (s.pushed.map usedEntry).take s.collected.length

variable {s : Session δ}

theorem Session.Initial.inv (h : s.Initial q ring) : s.Inv q ring := by
  obtain ⟨hfilled, hexposed, htaken, hpushed, hcollected⟩ := h.fresh
  refine ⟨h.placed, ?_, ?_, ?_, ?_, ?_, ?_, ?_⟩
  · rw [h.lastAvail, htaken]
    rfl
  · rw [h.availIdx, hexposed]
    rfl
  · rw [hfilled, hexposed, htaken]
    exact window_nil _ _
  · rw [htaken]
    rfl
  · rw [h.usedIdx, hpushed]
    rfl
  · rw [hpushed, hcollected]
    exact window_nil _ _
  · rw [hcollected]
    rfl

/-- A history that is a prefix of a log stays one when the log grows. -/
theorem take_append_of_take {α : Type} {xs log : List α} (more : List α)
    (h : xs = log.take xs.length) : xs = (log ++ more).take xs.length := by
  have hle : xs.length ≤ log.length := by
    have hlen := congrArg List.length h
    rw [List.length_take] at hlen
    omega
  rw [List.take_append_of_le_length hle]
  exact h

/-- It grows by the item the log has next. -/
theorem append_eq_take {α : Type} {xs log : List α} {a : α} (h : xs = log.take xs.length)
    (ha : log[xs.length]? = some a) : xs ++ [a] = log.take (xs ++ [a]).length := by
  rw [List.length_append, List.length_singleton, List.take_add_one, ha, ← h]
  rfl

theorem Session.Inv.fill (h : s.Inv q ring) (hdvd : ring.num ∣ 2 ^ 16) (head : UInt16)
    (hfree : s.filled.length < s.taken.length + ring.num) :
    (s.step q ring (.fill head)).Inv q ring := by
  obtain ⟨hlen, hidx, hself, hother, hused⟩ := fillAvail_spec h.placed s.filled.length head hdvd
  have hlog : (s.filled.map UInt16.toNat).length = s.filled.length := List.length_map ..
  have hmap : (s.filled ++ [head]).map UInt16.toNat =
      s.filled.map UInt16.toNat ++ [head.toNat] := by simp
  refine ⟨?_, h.lastAvail, ?_, ?_, ?_, ?_, ?_, h.collected⟩
  · exact hlen ▸ h.placed
  · exact hidx.trans h.availIdx
  · simp only [Session.step, hmap]
    exact h.avail.fill head.toNat (by omega) (by rw [hlog]; exact hself)
      (by rw [hlog]; exact hother)
  · simp only [Session.step, hmap]
    exact take_append_of_take _ h.taken
  · exact (hused.idx h.placed.2.1).trans h.usedIdx
  · exact h.used.congr ring.numPos fun k hk => hused.slot h.placed.2.1 hk

theorem Session.Inv.expose (h : s.Inv q ring) : (s.step q ring .expose).Inv q ring := by
  obtain ⟨hlen, hidx, hslots, hused⟩ := exposeAvail_spec h.placed s.filled.length
  have hwindow := (h.avail.expose).congr ring.numPos hslots
  rw [List.length_map] at hwindow
  exact ⟨hlen ▸ h.placed, h.lastAvail, hidx, hwindow, h.taken,
    (hused.idx h.placed.2.1).trans h.usedIdx,
    h.used.congr ring.numPos fun k hk => hused.slot h.placed.2.1 hk, h.collected⟩

/-- What `next` does in a session: nothing when all posted heads were taken, and otherwise the
next posted head, unless its descriptors cannot be read. -/
theorem Session.Inv.next_cases (h : s.Inv q ring) (hdvd : ring.num ∣ 2 ^ 16)
    (hlap : ring.num < 2 ^ 16) :
    (s.taken.length = s.exposed → next q ring s.host = .ok none s.host) ∧
    (s.taken.length < s.exposed → ∃ head, (s.filled.map UInt16.toNat)[s.taken.length]? = some head ∧
      ((∃ out in_, readChain ring head s.host = .ok (out, in_) s.host ∧
        next q ring s.host = .ok (some ⟨head, out, in_⟩)
          { s.host with
            lastAvail := Function.update s.host.lastAvail q ((s.host.lastAvail q + 1) % 2 ^ 16)
            popped := s.host.popped ++ [(q, head)] }) ∨
      ∃ e, readChain ring head s.host = .error e s.host ∧ next q ring s.host =
        .error e s.host)) := by
  have hsettled := h.avail.settled_iff hlap
  rw [← h.lastAvail] at hsettled
  have hle := h.avail.exposed_le
  constructor
  · intro hall
    have hslot : s.host.lastAvail q ≠ s.exposed % 2 ^ 16 →
        availSlot ring s.host.memory (s.host.lastAvail q % ring.num) = some 0 :=
      fun hmore => absurd (hsettled.mpr hall) hmore
    exact (next_spec q h.availIdx hslot).1 (hsettled.mpr hall)
  · intro hmore
    obtain ⟨head, hhead⟩ : ∃ head, (s.filled.map UInt16.toNat)[s.taken.length]? = some head :=
      ⟨_, List.getElem?_eq_getElem (by omega)⟩
    have hslot := h.avail.slot_done hdvd hmore
    rw [← h.lastAvail, hhead] at hslot
    refine ⟨head, hhead, (next_spec q h.availIdx fun _ => hslot).2 ?_⟩
    exact fun hsame => absurd (hsettled.mp hsame) (Nat.ne_of_lt hmore)

theorem Session.Inv.poll (h : s.Inv q ring) (hdvd : ring.num ∣ 2 ^ 16) (hlap : ring.num < 2 ^ 16) :
    (s.step q ring .poll).Inv q ring := by
  obtain ⟨hnone, hsome⟩ := h.next_cases hdvd hlap
  rcases Nat.eq_or_lt_of_le h.avail.done_le with hall | hmore
  · simp only [Session.step, hnone hall]
    exact h
  · obtain ⟨head, hhead, ⟨out, in_, -, hrun⟩ | ⟨e, -, hrun⟩⟩ := hsome hmore
    · have hlen : (s.taken ++ [head]).length = s.taken.length + 1 := by simp
      simp only [Session.step, hrun]
      refine ⟨h.placed, ?_, h.availIdx, ?_, append_eq_take h.taken hhead, h.usedIdx, h.used,
        h.collected⟩
      · simp only [Function.update_self, h.lastAvail, hlen, Nat.mod_add_mod]
      · simp only [hlen]
        exact h.avail.take hmore
    · simp only [Session.step, hrun]
      exact h

theorem Session.Inv.push (h : s.Inv q ring) (hdvd : ring.num ∣ 2 ^ 16) (head len : ℕ)
    (hfree : s.pushed.length < s.collected.length + ring.num) :
    (s.step q ring (.push head len)).Inv q ring := by
  obtain ⟨memory, hrun, hlen, hidx, hself, hother, hout⟩ :=
    pushUsed_spec q h.placed h.usedIdx head len
  have havail : SameAvail ring memory s.host.memory := by
    have hapart := h.placed.2.2
    exact hout _ _ (by omega)
  have hlog : (s.pushed.map usedEntry).length = s.pushed.length := List.length_map ..
  have hmap : (s.pushed ++ [(head, len)]).map usedEntry =
      s.pushed.map usedEntry ++ [usedEntry (head, len)] := by simp
  have hcount : (s.pushed ++ [(head, len)]).length = s.pushed.length + 1 := by simp
  rw [Nat.mod_mod_of_dvd _ hdvd] at hself hother
  have hwindow := (h.used.fill (usedEntry (head, len)) (by omega) (by rw [hlog]; exact hself)
    (by rw [hlog]; exact hother)).expose
  rw [← hmap, List.length_map] at hwindow
  simp only [Session.step, hrun, final]
  refine ⟨hlen ▸ h.placed, h.lastAvail, ?_, ?_, h.taken, ?_, hwindow, ?_⟩
  · exact (havail.idx h.placed.1).trans h.availIdx
  · exact h.avail.congr ring.numPos fun k hk => havail.slot h.placed.1 hk
  · rw [hidx, hcount, Nat.mod_add_mod]
  · simp only [hmap]
    exact take_append_of_take _ h.collected

/-- What the guest finds: the next used entry, until it has found them all. -/
theorem Session.Inv.findUsed_cases (h : s.Inv q ring) (hdvd : ring.num ∣ 2 ^ 16)
    (hlap : ring.num < 2 ^ 16) :
    (s.collected.length = s.pushed.length →
      findUsed ring (s.collected.length % 2 ^ 16) s.host.memory = none) ∧
    (s.collected.length < s.pushed.length →
      ∃ entry, (s.pushed.map usedEntry)[s.collected.length]? = some entry ∧
        findUsed ring (s.collected.length % 2 ^ 16) s.host.memory = some entry) := by
  have hsettled := h.used.settled_iff hlap
  constructor
  · intro hall
    rw [findUsed, h.usedIdx, hall, if_pos rfl]
  · intro hmore
    obtain ⟨entry, hentry⟩ : ∃ entry, (s.pushed.map usedEntry)[s.collected.length]? = some entry :=
      ⟨_, List.getElem?_eq_getElem (by rw [List.length_map]; exact hmore)⟩
    refine ⟨entry, hentry, ?_⟩
    rw [findUsed, h.usedIdx, if_neg, h.used.slot_done hdvd hmore, hentry]
    intro hsame
    exact absurd (hsettled.mp (Option.some.inj hsame).symm) (Nat.ne_of_lt hmore)

theorem Session.Inv.collect (h : s.Inv q ring) (hdvd : ring.num ∣ 2 ^ 16)
    (hlap : ring.num < 2 ^ 16) : (s.step q ring .collect).Inv q ring := by
  obtain ⟨hnone, hsome⟩ := h.findUsed_cases hdvd hlap
  rcases Nat.eq_or_lt_of_le h.used.done_le with hall | hmore
  · simp only [Session.step, hnone hall]
    exact h
  · obtain ⟨entry, hentry, hfound⟩ := hsome hmore
    have hlen : (s.collected ++ [entry]).length = s.collected.length + 1 := by simp
    simp only [Session.step, hfound]
    refine ⟨h.placed, h.lastAvail, h.availIdx, h.avail, h.taken, h.usedIdx, ?_,
      append_eq_take h.collected hentry⟩
    simp only [hlen]
    exact h.used.take hmore

theorem Session.Inv.elsewhere (h : s.Inv q ring) (host : Host δ)
    (hadmits : s.admits q ring (.elsewhere host)) :
    (s.step q ring (.elsewhere host)).Inv q ring := by
  obtain ⟨hcursor, havail, hused⟩ := hadmits
  exact ⟨h.placed.of_same havail hused, hcursor.trans h.lastAvail,
    (havail.idx h.placed.1).trans h.availIdx,
    h.avail.congr ring.numPos fun k hk => havail.slot h.placed.1 hk, h.taken,
    (hused.idx h.placed.2.1).trans h.usedIdx,
    h.used.congr ring.numPos fun k hk => hused.slot h.placed.2.1 hk, h.collected⟩

theorem Session.inv_run (hdvd : ring.num ∣ 2 ^ 16) (hlap : ring.num < 2 ^ 16)
    (hinit : s.Initial q ring) (events : List (Event δ))
    (hadmits : Along (Session.admits q ring) (Session.step q ring) s events) :
    (run (Session.step q ring) s events).Inv q ring := by
  refine run_along (Session.Inv q ring) (fun s e hinv he => ?_) events hinit.inv hadmits
  cases e with
  | fill head => exact hinv.fill hdvd head he
  | expose => exact hinv.expose
  | poll => exact hinv.poll hdvd hlap
  | push head len => exact hinv.push hdvd head len he
  | collect => exact hinv.collect hdvd hlap
  | elsewhere host => exact hinv.elsewhere host he

/-- The bytes a device writes into a chain are none of the rings' business. -/
theorem Session.admits_writeIn (chain : VringChain) (bytes : List UInt8)
    (hapart : ∀ a ∈ addresses chain.in_,
      (a < ring.avail + 2 ∨ ring.avail + 4 + ring.num * 2 ≤ a) ∧
        (a < ring.used + 2 ∨ ring.used + 4 + ring.num * 8 ≤ a)) :
    s.admits q ring (.elsewhere (final (writeIn chain bytes s.host))) := by
  have hlength := inside_length s.host.memory.length s.host.memory
    ((addresses chain.in_).zip bytes) rfl
  -- a byte of a ring is none of the stored ones
  have hkept : ∀ p, (∀ a ∈ addresses chain.in_, a ≠ p) →
      (storeAll s.host.memory
        (inside s.host.memory.length ((addresses chain.in_).zip bytes)))[p]? =
        s.host.memory[p]? := by
    intro p hp
    refine getElem?_storeAll_outside (fun t ht => (mem_inside ht).2) fun t ht => ?_
    exact hp _ (List.of_mem_zip (mem_inside ht).1).1
  rw [final_writeIn]
  refine ⟨rfl, load_congr hlength fun p hlow hhigh => hkept p fun a ha => ?_,
    load_congr hlength fun p hlow hhigh => hkept p fun a ha => ?_⟩
  · have hout := (hapart a ha).1
    omega
  · have hout := (hapart a ha).2
    omega

end Invariant

/-- In every run with at most a ring full outstanding on either side, the heads `next` returns
are the posted ones in order and the guest finds the used entries in the order they were pushed.
Each walk of a chain ends, and a device reads and writes the bytes of its segments in turn. -/
theorem virtqueue_fifo (q : ℕ) (ring : VringLayout) (k : ℕ) (hnum : ring.num = 2 ^ k)
    (hk : k ≤ 15) :
    (∀ (s : Session δ) (events : List (Event δ)), s.Initial q ring →
      Along (Session.admits q ring) (Session.step q ring) s events →
      let t := run (Session.step q ring) s events
      t.taken = t.posted.take t.taken.length ∧
      (t.taken.length = t.posted.length → next q ring t.host = .ok none t.host) ∧
      (t.taken.length < t.posted.length → ∃ head, t.posted[t.taken.length]? = some head ∧
        ((∃ chain host, next q ring t.host = .ok (some chain) host ∧ chain.head = head) ∨
          ∃ e, readChain ring head t.host = .error e t.host ∧
            next q ring t.host = .error e t.host)) ∧
      t.collected = (t.pushed.map usedEntry).take t.collected.length ∧
      (findUsed ring (t.collected.length % 2 ^ 16) t.host.memory = none ↔
        t.collected.length = t.pushed.length)) ∧
    (∀ (head : ℕ) (h : Host δ),
      (∃ ds, Linked ring h.memory head ds ∧ ds.length ≤ ring.num + 1 ∧
        readChain ring head h = .ok (readable ds, writables ds) h) ∨
      ∃ e, readChain ring head h = .error e h ∧
        ∀ ds, Linked ring h.memory head ds → ring.num + 1 < ds.length) ∧
    (∀ (chain : VringChain) (h : Host δ), readOut chain h =
      if h.arrayLimit < (addresses chain.out).length then
        .error (.rangeError "Array buffer allocation failed") h
      else
        match (addresses chain.out).mapM (h.memory[·]?) with
        | some bytes => .ok bytes h
        | none => .error outOfBounds h) ∧
    ∀ (chain : VringChain) (bytes : List UInt8) (h : Host δ),
      writeIn chain bytes h =
        match stored ((addresses chain.in_).zip bytes) h with
        | .ok _ h' => .ok ((addresses chain.in_).zip bytes).length h'
        | .error e h' => .error e h' := by
  have hdvd : ring.num ∣ 2 ^ 16 := by
    rw [hnum]
    exact pow_dvd_pow 2 (by omega)
  have hlap : ring.num < 2 ^ 16 := by
    rw [hnum]
    exact Nat.pow_lt_pow_right (by decide) (by omega)
  refine ⟨?_, readChain_spec ring, readOut_spec, writeIn_spec⟩
  intro s events hinit hadmits t
  have hinv : t.Inv q ring := Session.inv_run hdvd hlap hinit events hadmits
  obtain ⟨hnone, hsome⟩ := hinv.next_cases hdvd hlap
  obtain ⟨hfoundAll, hfound⟩ := hinv.findUsed_cases hdvd hlap
  have hexposed : t.exposed ≤ t.filled.length := by
    have hle := hinv.avail.exposed_le
    rwa [List.length_map] at hle
  have hposted : t.posted.length = t.exposed := by
    rw [Session.posted, List.length_map, List.length_take, Nat.min_eq_left hexposed]
  have hprior : t.posted = (t.filled.map UInt16.toNat).take t.exposed := by
    rw [Session.posted, List.map_take]
  rw [hposted]
  refine ⟨?_, hnone, fun hmore => ?_, hinv.collected, ?_⟩
  · rw [hprior, List.take_take, Nat.min_eq_left hinv.avail.done_le]
    exact hinv.taken
  · obtain ⟨head, hhead, hnext⟩ := hsome hmore
    refine ⟨head, by rw [hprior, List.getElem?_take_of_lt hmore, hhead], ?_⟩
    rcases hnext with ⟨out, in_, -, hrun⟩ | hthrow
    · exact Or.inl ⟨_, _, hrun, rfl⟩
    · exact Or.inr hthrow
  · constructor
    · intro hdone
      rcases Nat.eq_or_lt_of_le hinv.used.done_le with hall | hmore
      · exact hall
      · obtain ⟨entry, -, hentry⟩ := hfound hmore
        rw [hdone] at hentry
        cases hentry
    · exact hfoundAll

/-- A ring of two entries that is posted three heads, in two batches. -/
theorem virtqueue_fifo_laps :
    let ring : VringLayout := ⟨0, 32, 40, 2, by decide⟩
    let host : Host Unit := ⟨List.replicate 64 0, 16, fun _ => none, fun _ => 0, [], [], ()⟩
    let events : List (Event Unit) := [.fill 1, .fill 0, .expose, .poll, .poll, .push 1 7, .fill 1,
      .expose, .collect, .poll]
    let t := run (Session.step 0 ring) ⟨host, [], 0, [], [], []⟩ events
    t.taken = t.posted.take t.taken.length ∧ t.taken = [1, 0, 1] ∧ t.collected = [(1, 7)] := by
  intro ring host events t
  have hinit : Session.Initial 0 ring (⟨host, [], 0, [], [], []⟩ : Session Unit) :=
    ⟨by decide +kernel, rfl, by decide +kernel, by decide +kernel, rfl, rfl, rfl, rfl, rfl⟩
  have hruns := (virtqueue_fifo (δ := Unit) 0 ring 1 rfl (by decide)).1 _ events hinit
    (by decide +kernel)
  exact ⟨hruns.1, by decide +kernel, by decide +kernel⟩

end NixWasm.Virtio
