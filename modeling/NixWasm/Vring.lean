import NixWasm.ByteStore
import NixWasm.Effects
import Mathlib.Logic.Function.Basic

/-!
The split virtqueues of virtio/vring.ts and the device base of virtio/device.ts. A
device works on the shared guest memory, whose views refuse a range that leaves it,
and on the avail cursors of its queues. The heads a device takes from a queue and the
used buffers it publishes are logged in the order in which that happens.
-/
namespace NixWasm.Virtio

open Bytes ByteStore Effects

/-- Byte offsets of a split vring in linear memory, and its ring size. -/
structure VringLayout where
  desc : ℕ
  avail : ℕ
  used : ℕ
  num : ℕ
  numPos : 0 < num
deriving DecidableEq

structure VringSegment where
  addr : ℕ
  len : ℕ
deriving DecidableEq

/-- A popped chain: readable segments in `out`, writable ones in `in_`. -/
structure VringChain where
  head : ℕ
  out : List VringSegment
  in_ : List VringSegment
deriving DecidableEq

/-- The world of one device. `own` is the state of the device model itself. -/
structure Host (δ : Type) where
  memory : List UInt8
  /-- The longest byte array the engine allocates. -/
  arrayLimit : ℕ
  queues : ℕ → Option VringLayout
  lastAvail : ℕ → ℕ
  /-- Log of the heads taken, with their queue. -/
  popped : List (ℕ × ℕ)
  /-- Log of the used buffers published: queue, head and length. -/
  pushed : List (ℕ × ℕ × ℕ)
  own : δ

def descFNext : ℕ := 1
def descFWrite : ℕ := 2

variable {δ : Type}

def outOfBounds : Thrown := .rangeError "Offset is outside the bounds of the DataView"

def invalidView : Thrown := .rangeError "Invalid typed array length"

/-- A DataView read of `n` little-endian bytes. -/
def getUint (off n : ℕ) : Js (Host δ) ℕ := do
  match load (← get).memory off n with
  | some bytes => return leValue bytes
  | none => throw outOfBounds

def setUint (off n v : ℕ) : Js (Host δ) Unit := do
  match store (← get).memory off (leBytes n v) with
  | some memory => modify fun h => { h with memory }
  | none => throw outOfBounds

/-- The bytes of a `Uint8Array` view over the memory. -/
def memView (addr len : ℕ) : Js (Host δ) (List UInt8) := do
  match load (← get).memory addr len with
  | some bytes => return bytes
  | none => throw invalidView

/-- `memView(addr, bytes.length).set(bytes)`. -/
def setMem (addr : ℕ) (bytes : List UInt8) : Js (Host δ) Unit := do
  match store (← get).memory addr bytes with
  | some memory => modify fun h => { h with memory }
  | none => throw invalidView

def vring (q : ℕ) : Js (Host δ) (Option VringLayout) := return (← get).queues q

/-- The descriptors from `i` on, as many as the guard still allows. -/
def readChainFrom (ring : VringLayout) :
    ℕ → ℕ → List VringSegment → List VringSegment →
      Js (Host δ) (List VringSegment × List VringSegment)
  | 0, _, _, _ => throw (.error "[vring] descriptor chain too long (corrupt vring?)")
  | guard + 1, i, out, in_ => do
    let d := ring.desc + i * 16
    let addr ← getUint d 8
    let len ← getUint (d + 8) 4
    let flags ← getUint (d + 12) 2
    let next ← getUint (d + 14) 2
    let writable := flags &&& descFWrite ≠ 0
    let out := if writable then out else out ++ [⟨addr, len⟩]
    let in_ := if writable then in_ ++ [⟨addr, len⟩] else in_
    if flags &&& descFNext = 0 then return (out, in_) else readChainFrom ring guard next out in_

def readChain (ring : VringLayout) (head : ℕ) :
    Js (Host δ) (List VringSegment × List VringSegment) :=
  readChainFrom ring (ring.num + 1) head [] []

/-- Pop the next available chain; `none` when the guest exposed no other. -/
def next (q : ℕ) (ring : VringLayout) : Js (Host δ) (Option VringChain) := do
  let lastAvail := (← get).lastAvail q
  let idx ← getUint (ring.avail + 2) 2
  if lastAvail = idx then return none
  let head ← getUint (ring.avail + 4 + lastAvail % ring.num * 2) 2
  let segments ← readChain ring head
  modify fun h =>
    { h with
      lastAvail := Function.update h.lastAvail q ((lastAvail + 1) % 2 ^ 16)
      popped := h.popped ++ [(q, head)] }
  return some ⟨head, segments.1, segments.2⟩

/-- The bytes of the segments, read one by one: an empty segment reads nothing. -/
def readSegments : List VringSegment → Js (Host δ) (List UInt8)
  | [] => return []
  | seg :: rest => do
    let bytes ← if seg.len = 0 then pure [] else do
      match load (← get).memory seg.addr seg.len with
      | some bytes => pure bytes
      | none => throw outOfBounds
    return bytes ++ (← readSegments rest)

/-- The readable bytes of a chain in one array. -/
def readOut (chain : VringChain) : Js (Host δ) (List UInt8) := do
  if (← get).arrayLimit < (chain.out.map VringSegment.len).sum then
    throw (.rangeError "Array buffer allocation failed")
  readSegments chain.out

/-- Byte stores from `addr` on; those inside the memory are kept when one is not. -/
def writeBytes (addr : ℕ) (bytes : List UInt8) : Js (Host δ) Unit := do
  let memory := (← get).memory
  let fits := bytes.take (memory.length - addr)
  modify fun h => { h with memory := if fits = [] then memory else splice memory addr fits }
  if fits.length < bytes.length then throw outOfBounds

/-- Fill the writable segments with `bytes`, as far as they reach. -/
def writeSegments : List VringSegment → List UInt8 → Js (Host δ) Unit
  | [], _ => return ()
  | seg :: rest, bytes => do
    writeBytes seg.addr (bytes.take seg.len)
    writeSegments rest (bytes.drop seg.len)

/-- Total writable byte capacity of a chain. -/
def inCapacity (chain : VringChain) : ℕ := (chain.in_.map VringSegment.len).sum

def writeIn (chain : VringChain) (bytes : List UInt8) : Js (Host δ) ℕ := do
  writeSegments chain.in_ bytes
  return min (inCapacity chain) bytes.length

/-- Publish a used buffer. -/
def pushUsed (q : ℕ) (ring : VringLayout) (head len : ℕ) : Js (Host δ) Unit := do
  let usedIdx ← getUint (ring.used + 2) 2
  let elem := ring.used + 4 + usedIdx % ring.num * 8
  setUint elem 4 head
  setUint (elem + 4) 4 len
  setUint (ring.used + 2) 2 ((usedIdx + 1) % 2 ^ 16)
  modify fun h => { h with pushed := h.pushed ++ [(q, head, len)] }

section Books
variable {P : δ → List (ℕ × ℕ × ℕ) → Prop}

theorem keepsBooks_getUint (off n : ℕ) :
    Keeps (fun h : Host δ => P h.own h.pushed) (getUint off n : Js (Host δ) ℕ) := by
  intro h hP
  simp only [getUint, wp_bind, wp_get]
  cases load h.memory off n <;> exact hP

theorem keepsBooks_setUint (off n v : ℕ) :
    Keeps (fun h : Host δ => P h.own h.pushed) (setUint off n v : Js (Host δ) Unit) := by
  intro h hP
  simp only [setUint, wp_bind, wp_get]
  cases store h.memory off (leBytes n v) <;> exact hP

theorem keepsBooks_readChainFrom (ring : VringLayout) (guard i : ℕ) (out in_ : List VringSegment) :
    Keeps (fun h : Host δ => P h.own h.pushed)
      (readChainFrom ring guard i out in_ : Js (Host δ) _) := by
  induction guard generalizing i out in_ with
  | zero => exact keeps_throw _
  | succ guard ih =>
    refine keeps_bind (keepsBooks_getUint _ _) fun addr => ?_
    refine keeps_bind (keepsBooks_getUint _ _) fun len => ?_
    refine keeps_bind (keepsBooks_getUint _ _) fun flags => ?_
    refine keeps_bind (keepsBooks_getUint _ _) fun next => ?_
    exact keeps_ite (keeps_pure _) (ih _ _ _)

theorem keepsBooks_next (q : ℕ) (ring : VringLayout) :
    Keeps (fun h : Host δ => P h.own h.pushed) (next q ring : Js (Host δ) _) := by
  refine keeps_bind keeps_get fun h => keeps_bind (keepsBooks_getUint _ _) fun idx => ?_
  refine keeps_ite (keeps_pure _) (keeps_bind (keepsBooks_getUint _ _) fun head => ?_)
  refine keeps_bind (keepsBooks_readChainFrom _ _ _ _ _) fun segments => ?_
  exact keeps_bind (keeps_modify fun h hP => hP) fun _ => keeps_pure _

/-- Publishing logs the used buffer, or nothing when it throws. -/
theorem pushUsed_books (q : ℕ) (ring : VringLayout) (head len : ℕ) (h : Host δ) :
    Wp (pushUsed q ring head len)
      (fun _ h' => h'.own = h.own ∧ h'.pushed = h.pushed ++ [(q, head, len)])
      (fun _ h' => h'.own = h.own ∧ h'.pushed = h.pushed) h := by
  have hset : ∀ off n v, Keeps (fun k : Host δ => k.own = h.own ∧ k.pushed = h.pushed)
      (setUint off n v) := keepsBooks_setUint (P := fun own pushed => own = h.own ∧
      pushed = h.pushed)
  rw [pushUsed, wp_bind]
  refine (keepsBooks_getUint (P := fun own pushed => own = h.own ∧ pushed = h.pushed) _ _ h
    ⟨rfl, rfl⟩).mono (fun usedIdx h₁ hbooks₁ => ?_) fun _ _ hbooks => hbooks
  rw [wp_bind]
  refine (hset _ _ _ h₁ hbooks₁).mono (fun _ h₂ hbooks₂ => ?_) fun _ _ hbooks => hbooks
  rw [wp_bind]
  refine (hset _ _ _ h₂ hbooks₂).mono (fun _ h₃ hbooks₃ => ?_) fun _ _ hbooks => hbooks
  rw [wp_bind]
  refine (hset _ _ _ h₃ hbooks₃).mono (fun _ h₄ hbooks₄ => ?_) fun _ _ hbooks => hbooks
  rw [wp_modify]
  exact ⟨hbooks₄.1, by rw [hbooks₄.2]⟩

end Books

section Own
variable {P : δ → Prop}

theorem keepsOwn_getUint (off n : ℕ) :
    Keeps (fun h : Host δ => P h.own) (getUint off n : Js (Host δ) ℕ) :=
  keepsBooks_getUint (P := fun own _ => P own) off n

theorem keepsOwn_setUint (off n v : ℕ) :
    Keeps (fun h : Host δ => P h.own) (setUint off n v : Js (Host δ) Unit) :=
  keepsBooks_setUint (P := fun own _ => P own) off n v

theorem keepsOwn_setMem (addr : ℕ) (bytes : List UInt8) :
    Keeps (fun h : Host δ => P h.own) (setMem addr bytes : Js (Host δ) Unit) := by
  intro h hP
  simp only [setMem, wp_bind, wp_get]
  cases store h.memory addr bytes <;> exact hP

theorem keepsOwn_next (q : ℕ) (ring : VringLayout) :
    Keeps (fun h : Host δ => P h.own) (next q ring : Js (Host δ) _) :=
  keepsBooks_next (P := fun own _ => P own) q ring

theorem keepsOwn_readSegments (segs : List VringSegment) :
    Keeps (fun h : Host δ => P h.own) (readSegments segs : Js (Host δ) _) := by
  induction segs with
  | nil => exact keeps_pure _
  | cons seg rest ih =>
    intro h hP
    have hrest : ∀ bytes : List UInt8, Wp (readSegments rest >>= fun more => pure (bytes ++ more))
        (fun _ h' => P h'.own) (fun _ h' => P h'.own) h := fun bytes =>
      keeps_bind ih (fun _ => keeps_pure _) h hP
    simp only [readSegments, wp_ite, wp_bind, wp_get]
    refine ⟨fun _ => by simpa using hrest [], fun _ => ?_⟩
    cases load h.memory seg.addr seg.len with
    | none => exact hP
    | some bytes => simpa using hrest bytes

theorem keepsOwn_readOut (chain : VringChain) :
    Keeps (fun h : Host δ => P h.own) (readOut chain : Js (Host δ) _) :=
  keeps_bind keeps_get fun _ =>
    keeps_ite (keeps_bind (keeps_throw _) fun _ => keepsOwn_readSegments _)
      (keepsOwn_readSegments _)

theorem keepsOwn_pushUsed (q : ℕ) (ring : VringLayout) (head len : ℕ) :
    Keeps (fun h : Host δ => P h.own) (pushUsed q ring head len : Js (Host δ) Unit) := by
  unfold pushUsed
  refine keeps_bind (keepsOwn_getUint _ _) fun usedIdx => ?_
  refine keeps_bind (keepsOwn_setUint _ _ _) fun _ => ?_
  refine keeps_bind (keepsOwn_setUint _ _ _) fun _ => ?_
  refine keeps_bind (keepsOwn_setUint _ _ _) fun _ => ?_
  exact keeps_modify fun h hP => hP

end Own

section Room
variable {h : Host δ} {m : ℕ}

/-- Taking a chain reads the memory only. -/
theorem keepsMemory_getUint (memory : List UInt8) (off n : ℕ) :
    Keeps (fun h : Host δ => h.memory = memory) (getUint off n : Js (Host δ) ℕ) := by
  intro h hm
  simp only [getUint, wp_bind, wp_get]
  cases load h.memory off n <;> exact hm

theorem keepsMemory_readChainFrom (memory : List UInt8) (ring : VringLayout) (guard i : ℕ)
    (out in_ : List VringSegment) :
    Keeps (fun h : Host δ => h.memory = memory)
      (readChainFrom ring guard i out in_ : Js (Host δ) _) := by
  induction guard generalizing i out in_ with
  | zero => exact keeps_throw _
  | succ guard ih =>
    refine keeps_bind (keepsMemory_getUint _ _ _) fun addr => ?_
    refine keeps_bind (keepsMemory_getUint _ _ _) fun len => ?_
    refine keeps_bind (keepsMemory_getUint _ _ _) fun flags => ?_
    refine keeps_bind (keepsMemory_getUint _ _ _) fun next => ?_
    exact keeps_ite (keeps_pure _) (ih _ _ _)

theorem keepsMemory_next (memory : List UInt8) (q : ℕ) (ring : VringLayout) :
    Keeps (fun h : Host δ => h.memory = memory) (next q ring : Js (Host δ) _) := by
  refine keeps_bind keeps_get fun h => keeps_bind (keepsMemory_getUint _ _ _) fun idx => ?_
  refine keeps_ite (keeps_pure _) (keeps_bind (keepsMemory_getUint _ _ _) fun head => ?_)
  refine keeps_bind (keepsMemory_readChainFrom _ _ _ _ _ _) fun segments => ?_
  exact keeps_bind (keeps_modify fun h hm => hm) fun _ => keeps_pure _

/-- The program returns, and the memory keeps its length. -/
abbrev Succeeds {α : Type} (x : Js (Host δ) α) (m : ℕ) (h : Host δ) : Prop :=
  Wp x (fun _ h' => h'.memory.length = m) (fun _ _ => False) h

theorem succeeds_getUint (hm : h.memory.length = m) {off n : ℕ} (hfits : off + n ≤ m) :
    Succeeds (getUint off n) m h := by
  simp only [Succeeds, getUint, wp_bind, wp_get, load, hm, if_pos hfits, wp_pure]

theorem succeeds_setUint (hm : h.memory.length = m) {off n : ℕ} (v : ℕ) (hfits : off + n ≤ m) :
    Succeeds (setUint off n v) m h := by
  have hlength : off + (leBytes n v).length ≤ h.memory.length := by
    rw [leBytes_length, hm]
    exact hfits
  simp only [Succeeds, setUint, wp_bind, wp_get, store, if_pos hlength, wp_modify]
  rw [splice_length hlength, hm]

theorem succeeds_writeBytes (hm : h.memory.length = m) {addr : ℕ} {bytes : List UInt8}
    (hfits : addr + bytes.length ≤ m) : Succeeds (writeBytes addr bytes) m h := by
  have hall : bytes.take (h.memory.length - addr) = bytes := by
    apply List.take_of_length_le
    omega
  simp only [Succeeds, writeBytes, wp_bind, wp_get, wp_modify, hall, lt_irrefl, if_false, wp_pure]
  split
  · exact hm
  · rw [splice_length (by omega), hm]

theorem succeeds_writeSegments (segs : List VringSegment) (bytes : List UInt8) (h : Host δ)
    (hm : h.memory.length = m) (hinside : ∀ seg ∈ segs, seg.addr + seg.len ≤ m) :
    Succeeds (writeSegments segs bytes) m h := by
  induction segs generalizing bytes h with
  | nil => exact hm
  | cons seg rest ih =>
    have hseg := hinside seg List.mem_cons_self
    have htake : (bytes.take seg.len).length ≤ seg.len := List.length_take_le ..
    rw [Succeeds, writeSegments, wp_bind]
    refine (succeeds_writeBytes hm (by omega)).mono (fun _ h' hm' => ?_) fun _ _ hfalse => hfalse
    exact ih _ h' hm' fun s hs => hinside s (List.mem_cons_of_mem _ hs)

/-- A used buffer is published when the used ring lies in the memory. -/
theorem succeeds_pushUsed (hm : h.memory.length = m) (q : ℕ) (ring : VringLayout) (head len : ℕ)
    (hinside : ring.used + 4 + 8 * ring.num ≤ m) : Succeeds (pushUsed q ring head len) m h := by
  have hpos := ring.numPos
  rw [Succeeds, pushUsed, wp_bind]
  refine (succeeds_getUint hm (by omega)).mono (fun usedIdx h₁ hm₁ => ?_) fun _ _ hfalse => hfalse
  have hslot : usedIdx % ring.num < ring.num := Nat.mod_lt _ hpos
  rw [wp_bind]
  refine (succeeds_setUint hm₁ head (by omega)).mono (fun _ h₂ hm₂ => ?_) fun _ _ hfalse => hfalse
  rw [wp_bind]
  refine (succeeds_setUint hm₂ len (by omega)).mono (fun _ h₃ hm₃ => ?_) fun _ _ hfalse => hfalse
  rw [wp_bind]
  exact (succeeds_setUint hm₃ _ (by omega)).mono (fun _ _ hm₄ => hm₄) fun _ _ hfalse => hfalse

end Room

end NixWasm.Virtio
