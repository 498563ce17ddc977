import NixWasm.VringFifo

/-!
The chains that wait on a virtqueue: what the guest posted and the device has not taken. Their
descriptors are in the table and their buffers are apart from the table and the rings, so a
device that takes one chain, fills it and gives it back leaves the others as they were.
-/
namespace NixWasm.Virtio

open Bytes ByteStore Effects

variable {δ : Type}

/-- The descriptor table reads the same. -/
def SameTable (ring : VringLayout) (a b : List UInt8) : Prop :=
  load a ring.desc (16 * ring.num) = load b ring.desc (16 * ring.num)

/-- A chain as its descriptors have it, all of them in the table. -/
structure Described (ring : VringLayout) (memory : List UInt8) (chain : VringChain)
    (ds : List Descriptor) : Prop where
  linked : Linked ring memory chain.head ds
  ends : ds.length ≤ ring.num + 1
  head : chain.head < ring.num
  links : ∀ d ∈ ds, d.chained → d.next < ring.num
  out : chain.out = readable ds
  in_ : chain.in_ = writables ds

/-- The byte belongs neither to the table nor to a ring. -/
def Clear (ring : VringLayout) (a : ℕ) : Prop :=
  (a < ring.avail + 2 ∨ ring.avail + 4 + ring.num * 2 ≤ a) ∧
    (a < ring.used + 2 ∨ ring.used + 4 + ring.num * 8 ≤ a) ∧
    (a < ring.desc ∨ ring.desc + 16 * ring.num ≤ a)

/-- These chains wait on queue `q`, oldest first. -/
structure Posted (q : ℕ) (ring : VringLayout) (h : Host δ) (chains : List VringChain) : Prop where
  placed : Placed ring h.memory.length
  table : ring.desc + 16 * ring.num ≤ h.memory.length
  apart : ring.desc + 16 * ring.num ≤ ring.used + 2 ∨ ring.used + 4 + ring.num * 8 ≤ ring.desc
  few : chains.length < 2 ^ 16
  cursor : h.lastAvail q < 2 ^ 16
  idx : availIdx ring h.memory = some ((h.lastAvail q + chains.length) % 2 ^ 16)
  slots : ∀ k c, chains[k]? = some c →
    availSlot ring h.memory ((h.lastAvail q + k) % 2 ^ 16 % ring.num) = some c.head
  described : ∀ c ∈ chains, ∃ ds, Described ring h.memory c ds
  buffers : ∀ c ∈ chains, ∀ a ∈ addresses c.in_, a < h.memory.length ∧ Clear ring a

section Frame
variable {q : ℕ} {ring : VringLayout} {a b : List UInt8} {h h' : Host δ} {chains : List VringChain}

theorem Linked.unique {memory : List UInt8} {i : ℕ} {ds ds' : List Descriptor}
    (h : Linked ring memory i ds) (h' : Linked ring memory i ds') : ds = ds' := by
  induction h generalizing ds' with
  | last hd hend =>
    cases h' with
    | last hd' => rw [Option.some.inj (hd.symm.trans hd')]
    | link hd' hnext => exact absurd hnext (Option.some.inj (hd.symm.trans hd') ▸ hend)
  | link hd hnext _ ih =>
    cases h' with
    | last hd' hend => exact absurd hnext (Option.some.inj (hd.symm.trans hd') ▸ hend)
    | link hd' _ hrest =>
      cases Option.some.inj (hd.symm.trans hd')
      rw [ih hrest]

theorem SameTable.descriptor (hsame : SameTable ring a b)
    (hfits : ring.desc + 16 * ring.num ≤ b.length) {i : ℕ} (hi : i < ring.num) :
    descriptor ring a i = descriptor ring b i := by
  have hfield : ∀ off n, off + n ≤ 16 →
      field a (ring.desc + i * 16 + off) n = field b (ring.desc + i * 16 + off) n := by
    intro off n hoff
    exact field_congr hsame hfits (by omega) (by omega)
  have haddr := hfield 0 8 (by omega)
  rw [Nat.add_zero] at haddr
  rw [Virtio.descriptor, Virtio.descriptor, haddr, hfield 8 4 (by omega), hfield 12 2 (by omega),
    hfield 14 2 (by omega)]

theorem SameTable.linked (hsame : SameTable ring a b)
    (hfits : ring.desc + 16 * ring.num ≤ b.length) {i : ℕ} {ds : List Descriptor}
    (hlinked : Linked ring b i ds) (hi : i < ring.num)
    (hlinks : ∀ d ∈ ds, d.chained → d.next < ring.num) : Linked ring a i ds := by
  induction hlinked with
  | last hd hend => exact .last ((hsame.descriptor hfits hi).trans hd) hend
  | link hd hnext _ ih =>
    refine .link ((hsame.descriptor hfits hi).trans hd) hnext (ih ?_ fun d hmem => ?_)
    · exact hlinks _ List.mem_cons_self hnext
    · exact hlinks d (List.mem_cons_of_mem _ hmem)

/-- The waiting chains are in the cursor, the avail ring and the table. -/
theorem Posted.congr (hposted : Posted q ring h chains) (hcursor : h'.lastAvail q = h.lastAvail q)
    (hlength : h'.memory.length = h.memory.length) (havail : SameAvail ring h'.memory h.memory)
    (htable : SameTable ring h'.memory h.memory) : Posted q ring h' chains := by
  have hin := hposted.placed.1
  refine ⟨hlength ▸ hposted.placed, hlength ▸ hposted.table, hposted.apart, hposted.few,
    hcursor ▸ hposted.cursor, ?_, fun k c hk => ?_, fun c hc => ?_, fun c hc a ha => ?_⟩
  · rw [havail.idx hin, hcursor]
    exact hposted.idx
  · rw [hcursor, havail.slot hin (Nat.mod_lt _ ring.numPos)]
    exact hposted.slots k c hk
  · obtain ⟨ds, hds⟩ := hposted.described c hc
    exact ⟨ds, htable.linked hposted.table hds.linked hds.head hds.links, hds.ends, hds.head,
      hds.links, hds.out, hds.in_⟩
  · rw [hlength]
    exact hposted.buffers c hc a ha

end Frame

section Taking
variable {q : ℕ} {ring : VringLayout} {h : Host δ} {chain : VringChain} {chains : List VringChain}

theorem Posted.next_nil (hposted : Posted q ring h []) : next q ring h = .ok none h := by
  have hidx := hposted.idx
  have hcursor := hposted.cursor
  rw [List.length_nil, Nat.add_zero, Nat.mod_eq_of_lt hcursor] at hidx
  have hslot : h.lastAvail q ≠ h.lastAvail q →
      availSlot ring h.memory (h.lastAvail q % ring.num) = some 0 := fun hne => absurd rfl hne
  exact (next_spec q hidx hslot).1 rfl

/-- The oldest chain is taken, and the others go on waiting. -/
theorem Posted.next_cons (hposted : Posted q ring h (chain :: chains)) :
    ∃ h', next q ring h = .ok (some chain) h' ∧ h'.memory = h.memory ∧ h'.queues = h.queues ∧
      h'.own = h.own ∧ Posted q ring h' chains := by
  have hcursor := hposted.cursor
  have hfew := hposted.few
  rw [List.length_cons] at hfew
  have hmore : h.lastAvail q ≠ (h.lastAvail q + (chain :: chains).length) % 2 ^ 16 := by
    rw [List.length_cons]
    omega
  have hslot := hposted.slots 0 chain rfl
  rw [Nat.add_zero, Nat.mod_eq_of_lt hcursor] at hslot
  obtain ⟨ds, hds⟩ := hposted.described chain List.mem_cons_self
  have hread : readChain ring chain.head h = .ok (chain.out, chain.in_) h := by
    rcases readChain_spec ring chain.head h with ⟨ds', hlinked, -, hrun⟩ | ⟨e, -, hlong⟩
    · rw [hrun, hds.out, hds.in_, hlinked.unique hds.linked]
    · exact absurd hds.ends (Nat.not_le_of_lt (hlong ds hds.linked))
  obtain ⟨out, in_, hrun, hnext⟩ : ∃ out in_, readChain ring chain.head h = .ok (out, in_) h ∧
      next q ring h = .ok (some ⟨chain.head, out, in_⟩)
        { h with
          lastAvail := Function.update h.lastAvail q ((h.lastAvail q + 1) % 2 ^ 16)
          popped := h.popped ++ [(q, chain.head)] } := by
    refine ((next_spec q hposted.idx fun _ => hslot).2 hmore).resolve_right ?_
    rintro ⟨e, herror, -⟩
    rw [hread] at herror
    cases herror
  rw [hread] at hrun
  cases hrun
  refine ⟨_, hnext, rfl, rfl, rfl, hposted.placed, hposted.table, hposted.apart, by omega, ?_, ?_,
    fun k c hk => ?_, fun c hc => hposted.described c (List.mem_cons_of_mem _ hc),
    fun c hc => hposted.buffers c (List.mem_cons_of_mem _ hc)⟩
  · dsimp only
    rw [Function.update_self]
    exact Nat.mod_lt _ (by decide)
  · have hidx := hposted.idx
    dsimp only
    rw [hidx, Function.update_self, List.length_cons, Nat.mod_add_mod, Nat.add_assoc,
      Nat.add_comm 1]
  · have hslot := hposted.slots (k + 1) c hk
    dsimp only
    rw [Function.update_self, Nat.mod_add_mod, Nat.add_assoc, Nat.add_comm 1]
    exact hslot

end Taking

section Giving
variable {q : ℕ} {ring : VringLayout} {h : Host δ} {chain : VringChain} {chains : List VringChain}

/-- Stores outside a range leave it alone. -/
theorem load_storeAll_apart {memory : List UInt8} {stores : List (ℕ × UInt8)} {pos n : ℕ}
    (hinside : ∀ s ∈ stores, s.1 < memory.length)
    (hapart : ∀ s ∈ stores, s.1 < pos ∨ pos + n ≤ s.1) :
    load (storeAll memory stores) pos n = load memory pos n := by
  refine load_congr (storeAll_length hinside) fun p hlow hhigh => ?_
  refine getElem?_storeAll_outside hinside fun s hs => ?_
  have hout := hapart s hs
  omega

/-- A buffer that is filled as far as it reaches. -/
theorem Posted.writeIn (hposted : Posted q ring h chains) (bytes : List UInt8)
    (hbuffer : ∀ a ∈ addresses chain.in_, a < h.memory.length ∧ Clear ring a) :
    ∃ memory, Virtio.writeIn chain bytes h =
        .ok (min (inCapacity chain) bytes.length) { h with memory } ∧
      Posted q ring { h with memory } chains := by
  have hstores : ∀ s ∈ (addresses chain.in_).zip bytes,
      s.1 < h.memory.length ∧ Clear ring s.1 := fun s hs => hbuffer _ (List.of_mem_zip hs).1
  have hinside : ∀ s ∈ (addresses chain.in_).zip bytes, s.1 < h.memory.length :=
    fun s hs => (hstores s hs).1
  have hall : inside h.memory.length ((addresses chain.in_).zip bytes) =
      (addresses chain.in_).zip bytes := by
    rw [inside, List.takeWhile_eq_self_iff]
    exact fun s hs => decide_eq_true (hinside s hs)
  have hrun := writeIn_spec chain bytes h
  dsimp only at hrun
  rw [stored, hall, if_pos rfl, List.length_zip, addresses_length] at hrun
  refine ⟨_, hrun, hposted.congr rfl (storeAll_length hinside) ?_ ?_⟩
  · refine load_storeAll_apart hinside fun s hs => ?_
    have hclear := (hstores s hs).2.1
    omega
  · refine load_storeAll_apart hinside fun s hs => ?_
    exact (hstores s hs).2.2.2

/-- A used buffer that is published. -/
theorem Posted.pushUsed (hposted : Posted q ring h chains) (head len : ℕ) :
    ∃ memory, Virtio.pushUsed q ring head len h =
        .ok () { h with memory, pushed := h.pushed ++ [(q, head, len)] } ∧
      Posted q ring { h with memory, pushed := h.pushed ++ [(q, head, len)] } chains := by
  obtain ⟨hin, hin', hapart⟩ := hposted.placed
  have htable := hposted.apart
  obtain ⟨idx, hidx⟩ : ∃ idx, usedIdx ring h.memory = some idx :=
    ⟨_, by rw [usedIdx, field, load, if_pos (by omega), Option.map_some]⟩
  obtain ⟨memory, hrun, hlength, -, -, -, hout⟩ := pushUsed_spec q hposted.placed hidx head len
  exact ⟨memory, hrun, hposted.congr rfl hlength (hout _ _ (by omega)) (hout _ _ (by omega))⟩

end Giving

end NixWasm.Virtio
