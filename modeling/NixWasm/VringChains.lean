import NixWasm.Vring
import Mathlib.Data.List.TakeWhile

/-!
What a device gets and gives through one chain of a virtqueue. The walk follows the links from
the head for at most one descriptor more than the ring has, so it ends on every table: with the
segments of the linked descriptors, or with a throw when the links leave the memory or do not
end. Reading and writing go through the segments byte by byte.
-/
namespace NixWasm.Virtio

open Bytes ByteStore Effects

variable {δ : Type}

structure Descriptor where
  addr : ℕ
  len : ℕ
  flags : ℕ
  next : ℕ
deriving DecidableEq

namespace Descriptor

def writable (d : Descriptor) : Prop := d.flags &&& descFWrite ≠ 0

def chained (d : Descriptor) : Prop := d.flags &&& descFNext ≠ 0

instance (d : Descriptor) : Decidable d.writable := inferInstanceAs (Decidable (_ ≠ _))

def segment (d : Descriptor) : VringSegment := ⟨d.addr, d.len⟩

end Descriptor

/-- Descriptor `i`, which need not be one of the table: the guest chooses the links. -/
def descriptor (ring : VringLayout) (memory : List UInt8) (i : ℕ) : Option Descriptor := do
  let d := ring.desc + i * 16
  return ⟨← field memory d 8, ← field memory (d + 8) 4, ← field memory (d + 12) 2,
    ← field memory (d + 14) 2⟩

/-- The descriptors from `i` on, up to the first without a next. -/
inductive Linked (ring : VringLayout) (memory : List UInt8) : ℕ → List Descriptor → Prop
  | last {i : ℕ} {d : Descriptor} (hd : descriptor ring memory i = some d) (hend : ¬ d.chained) :
    Linked ring memory i [d]
  | link {i : ℕ} {d : Descriptor} {rest : List Descriptor} (hd : descriptor ring memory i = some d)
    (hnext : d.chained) (hrest : Linked ring memory d.next rest) : Linked ring memory i (d :: rest)

/-- The segments a device reads. -/
def readable (ds : List Descriptor) : List VringSegment :=
  (ds.filter fun d => ¬ d.writable).map Descriptor.segment

def writables (ds : List Descriptor) : List VringSegment :=
  (ds.filter fun d => d.writable).map Descriptor.segment

/-- The addresses of the bytes of the segments, one after the other. -/
def addresses (segs : List VringSegment) : List ℕ :=
  segs.flatMap fun seg => List.range' seg.addr seg.len

section Walk

theorem readable_cons (d : Descriptor) (ds : List Descriptor) :
    readable (d :: ds) = readable [d] ++ readable ds := by
  by_cases hd : d.writable <;> simp [readable, hd]

theorem writables_cons (d : Descriptor) (ds : List Descriptor) :
    writables (d :: ds) = writables [d] ++ writables ds := by
  by_cases hd : d.writable <;> simp [writables, hd]

variable {ring : VringLayout} {h : Host δ}

/-- What comes after a read, or the throw of the view. -/
theorem getUint_bind {α : Type} (off n : ℕ) (f : ℕ → Js (Host δ) α) (h : Host δ) :
    (getUint off n >>= f) h =
      match field h.memory off n with
      | some v => f v h
      | none => .error outOfBounds h := by
  cases hload : load h.memory off n <;>
    simp [getUint, field, hload, run_bind, run_get, run_pure, run_throw]

/-- One round of the walk: the descriptor is read, or the walk throws. -/
theorem readChainFrom_succ (guard i : ℕ) (out in_ : List VringSegment) (h : Host δ) :
    (readChainFrom ring (guard + 1) i out in_ : Js (Host δ) _) h =
      match descriptor ring h.memory i with
      | none => .error outOfBounds h
      | some d =>
        (if d.flags &&& descFNext = 0 then pure (out ++ readable [d], in_ ++ writables [d])
          else readChainFrom ring guard d.next (out ++ readable [d]) (in_ ++ writables [d]) :
            Js (Host δ) _) h := by
  simp only [readChainFrom, getUint_bind, descriptor, Option.bind_eq_bind]
  cases haddr : field h.memory (ring.desc + i * 16) 8 with
  | none => rfl
  | some addr =>
    cases hlen : field h.memory (ring.desc + i * 16 + 8) 4 with
    | none => rfl
    | some len =>
      cases hflags : field h.memory (ring.desc + i * 16 + 12) 2 with
      | none => rfl
      | some flags =>
        cases hnext : field h.memory (ring.desc + i * 16 + 14) 2 with
        | none => rfl
        | some next =>
          simp only [Option.bind_some, Option.pure_def]
          by_cases hwritable : flags &&& descFWrite = 0 <;>
            simp [readable, writables, Descriptor.writable, Descriptor.segment, hwritable]

/-- The walk returns the segments of the linked descriptors, or throws where there are none or
too many. -/
theorem readChainFrom_spec (guard i : ℕ) (out in_ : List VringSegment) (h : Host δ) :
    (∃ ds, Linked ring h.memory i ds ∧ ds.length ≤ guard ∧
      readChainFrom ring guard i out in_ h = .ok (out ++ readable ds, in_ ++ writables ds) h) ∨
    ∃ e, readChainFrom ring guard i out in_ h = .error e h ∧
      ∀ ds, Linked ring h.memory i ds → guard < ds.length := by
  induction guard generalizing i out in_ with
  | zero =>
    refine Or.inr ⟨_, rfl, fun ds hds => ?_⟩
    cases hds <;> simp
  | succ guard ih =>
    rw [readChainFrom_succ]
    cases hd : descriptor ring h.memory i with
    | none =>
      refine Or.inr ⟨_, rfl, fun ds hds => ?_⟩
      cases hds with
      | last hd' _ => simp [hd] at hd'
      | link hd' _ _ => simp [hd] at hd'
    | some d =>
      by_cases hend : d.flags &&& descFNext = 0
      · have hlast : ¬ d.chained := fun hnext => hnext hend
        refine Or.inl ⟨[d], .last hd hlast, by simp, ?_⟩
        simp only [hend, if_true]
        rfl
      · simp only [hend, if_false]
        rcases ih d.next (out ++ readable [d]) (in_ ++ writables [d]) with
          ⟨ds, hlinked, hlen, hrun⟩ | ⟨e, hrun, hlong⟩
        · refine Or.inl ⟨d :: ds, .link hd hend hlinked, by simpa using hlen, ?_⟩
          rw [hrun, List.append_assoc, List.append_assoc, readable_cons d ds, writables_cons d ds]
        · refine Or.inr ⟨e, hrun, fun ds hds => ?_⟩
          cases hds with
          | last hd' hlast =>
            rw [hd, Option.some.injEq] at hd'
            exact absurd hend (by rw [hd']; exact fun h => hlast h)
          | link hd' _ hrest =>
            rw [hd, Option.some.injEq] at hd'
            have := hlong _ (by rw [hd']; exact hrest)
            rw [List.length_cons]
            omega

/-- The walk from the head ends on every table. -/
theorem readChain_spec (ring : VringLayout) (head : ℕ) (h : Host δ) :
    (∃ ds, Linked ring h.memory head ds ∧ ds.length ≤ ring.num + 1 ∧
      readChain ring head h = .ok (readable ds, writables ds) h) ∨
    ∃ e, readChain ring head h = .error e h ∧
      ∀ ds, Linked ring h.memory head ds → ring.num + 1 < ds.length :=
  readChainFrom_spec (ring.num + 1) head [] [] h

end Walk

section Copies

theorem addresses_cons (seg : VringSegment) (rest : List VringSegment) :
    addresses (seg :: rest) = List.range' seg.addr seg.len ++ addresses rest := rfl

theorem addresses_length (segs : List VringSegment) :
    (addresses segs).length = (segs.map VringSegment.len).sum := by
  simp [addresses, List.length_flatMap]

/-- A nonempty range is read byte by byte. -/
theorem load_eq_mapM (memory : List UInt8) (addr n : ℕ) (hn : n ≠ 0) :
    load memory addr n = (List.range' addr n).mapM (memory[·]?) := by
  induction n generalizing addr with
  | zero => exact absurd rfl hn
  | succ n ih =>
    rw [List.range'_succ, List.mapM_cons]
    by_cases hfirst : addr < memory.length
    · have hdrop : memory.drop addr = memory[addr] :: memory.drop (addr + 1) :=
        List.drop_eq_getElem_cons hfirst
      have hload : load memory addr (n + 1) =
          (if addr + 1 + n ≤ memory.length then some ((memory.drop (addr + 1)).take n)
            else none).map (memory[addr] :: ·) := by
        rw [load, hdrop, List.take_succ_cons, Nat.add_right_comm, ← Nat.add_assoc]
        split <;> rfl
      rw [hload, List.getElem?_eq_getElem hfirst]
      by_cases hzero : n = 0
      · simp [hzero, Nat.succ_le_of_lt hfirst]
      · rw [← ih (addr + 1) hzero, load]
        split <;> rfl
    · rw [List.getElem?_eq_none (by omega), load, if_neg (by omega)]
      rfl

theorem readSegments_spec (segs : List VringSegment) (h : Host δ) :
    readSegments segs h =
      match (addresses segs).mapM (h.memory[·]?) with
      | some bytes => .ok bytes h
      | none => .error outOfBounds h := by
  induction segs with
  | nil => rfl
  | cons seg rest ih =>
    have hseg : readSegments (seg :: rest) h =
        match (List.range' seg.addr seg.len).mapM (h.memory[·]?) with
        | some bytes => ((bytes ++ ·) <$> readSegments rest) h
        | none => .error outOfBounds h := by
      by_cases hzero : seg.len = 0
      · simp only [readSegments, hzero, if_true]
        rfl
      · rw [← load_eq_mapM _ _ _ hzero]
        simp only [readSegments, hzero, if_false]
        cases hload : load h.memory seg.addr seg.len <;>
          simp [hload, run_bind, run_get, run_throw, run_map]
    rw [hseg, addresses_cons, List.mapM_append]
    cases (List.range' seg.addr seg.len).mapM (h.memory[·]?) with
    | none => rfl
    | some bytes =>
      simp only [Functor.map, EStateM.map, ih, bind, Option.bind]
      cases (addresses rest).mapM (h.memory[·]?) <;> rfl

/-- A device gets the bytes of the readable segments, one after the other, or a throw. -/
theorem readOut_spec (chain : VringChain) (h : Host δ) :
    readOut chain h =
      if h.arrayLimit < (addresses chain.out).length then
        .error (.rangeError "Array buffer allocation failed") h
      else
        match (addresses chain.out).mapM (h.memory[·]?) with
        | some bytes => .ok bytes h
        | none => .error outOfBounds h := by
  rw [addresses_length, ← readSegments_spec]
  by_cases hlimit : h.arrayLimit < (chain.out.map VringSegment.len).sum <;>
    simp [readOut, hlimit, run_bind, run_get, run_throw]

/-- Reading leaves everything as it is. -/
theorem readOut_same (chain : VringChain) (h : Host δ) :
    Wp (readOut chain) (fun _ h' => h' = h) (fun _ h' => h' = h) h := by
  unfold Wp
  rw [readOut_spec]
  by_cases hlimit : h.arrayLimit < (addresses chain.out).length
  · rw [if_pos hlimit]
  · rw [if_neg hlimit]
    cases (addresses chain.out).mapM (h.memory[·]?) with
    | none => rfl
    | some bytes => rfl

/-- A list cut in two, zipped with one list. -/
theorem zip_append_left {α β : Type} (xs ys : List α) (bs : List β) :
    (xs ++ ys).zip bs = xs.zip (bs.take xs.length) ++ ys.zip (bs.drop xs.length) := by
  induction xs generalizing bs with
  | nil => simp
  | cons x xs ih =>
    cases bs with
    | nil => simp
    | cons b bs => simp [ih]

theorem zip_range' (addr : ℕ) {n : ℕ} {bytes : List UInt8} (hle : bytes.length ≤ n) :
    (List.range' addr n).zip bytes = (List.range' addr bytes.length).zip bytes := by
  have hsplit : List.range' addr n =
      List.range' addr bytes.length ++ List.range' (addr + bytes.length) (n - bytes.length) := by
    rw [List.range'_append_1, Nat.add_sub_cancel' hle]
  rw [hsplit, zip_append_left, List.length_range', List.take_length, List.drop_length,
    List.zip_nil_right, List.append_nil]

/-- The stores before the first that leaves the memory. -/
def inside (m : ℕ) (stores : List (ℕ × UInt8)) : List (ℕ × UInt8) :=
  stores.takeWhile fun s => s.1 < m

theorem inside_range' (m addr : ℕ) (bytes : List UInt8) :
    inside m ((List.range' addr bytes.length).zip bytes) =
      (List.range' addr (bytes.take (m - addr)).length).zip (bytes.take (m - addr)) := by
  induction bytes generalizing addr with
  | nil => simp [inside]
  | cons b bytes ih =>
    rw [List.length_cons, List.range'_succ, List.zip_cons_cons, inside]
    by_cases hin : addr < m
    · have hsub : m - addr = (m - (addr + 1)) + 1 := by omega
      rw [List.takeWhile_cons_of_pos (by simpa using hin), hsub, List.take_succ_cons,
        List.length_cons, List.range'_succ, List.zip_cons_cons]
      exact congrArg _ (ih (addr + 1))
    · have hsub : m - addr = 0 := by omega
      rw [List.takeWhile_cons_of_neg (by simpa using hin), hsub]
      rfl

theorem mem_inside {m : ℕ} {stores : List (ℕ × UInt8)} {s : ℕ × UInt8} (hs : s ∈ inside m stores) :
    s ∈ stores ∧ s.1 < m := by
  have hin := List.mem_takeWhile_imp (p := fun s : ℕ × UInt8 => decide (s.1 < m)) hs
  exact ⟨(List.takeWhile_prefix _).subset hs, of_decide_eq_true hin⟩

theorem inside_length (m : ℕ) (image : List UInt8) (stores : List (ℕ × UInt8))
    (hm : image.length = m) : (storeAll image (inside m stores)).length = m := by
  refine (storeAll_length fun s hs => ?_).trans hm
  rw [hm]
  exact (mem_inside hs).2

/-- What the stores leave, and whether one of them threw. -/
def stored (stores : List (ℕ × UInt8)) (h : Host δ) : EStateM.Result Thrown (Host δ) Unit :=
  let host := { h with memory := storeAll h.memory (inside h.memory.length stores) }
  if inside h.memory.length stores = stores then .ok () host else .error outOfBounds host

theorem writeBytes_spec (addr : ℕ) (bytes : List UInt8) (h : Host δ) :
    writeBytes addr bytes h = stored ((List.range' addr bytes.length).zip bytes) h := by
  have hstores := inside_range' h.memory.length addr bytes
  have hmemory : (if bytes.take (h.memory.length - addr) = [] then h.memory
      else splice h.memory addr (bytes.take (h.memory.length - addr))) =
      storeAll h.memory (inside h.memory.length ((List.range' addr bytes.length).zip bytes)) := by
    rw [hstores]
    by_cases hempty : bytes.take (h.memory.length - addr) = []
    · rw [if_pos hempty, hempty]
      rfl
    · have hpos : addr ≤ h.memory.length := by
        by_contra hout
        exact hempty (by rw [Nat.sub_eq_zero_of_le (by omega), List.take_zero])
      rw [if_neg hempty]
      refine splice_eq_storeAll _ _ _ ?_
      rw [List.length_take]
      omega
  have hall : inside h.memory.length ((List.range' addr bytes.length).zip bytes) =
      (List.range' addr bytes.length).zip bytes ↔
        ¬ (bytes.take (h.memory.length - addr)).length < bytes.length := by
    rw [hstores]
    constructor
    · intro heq
      have hlen := congrArg List.length heq
      simp only [List.length_zip, List.length_range', Nat.min_self] at hlen
      omega
    · intro hle
      have htake : bytes.take (h.memory.length - addr) = bytes := by
        rw [List.length_take] at hle
        exact List.take_of_length_le (by omega)
      rw [htake]
  have hrun : writeBytes addr bytes h =
      (if (bytes.take (h.memory.length - addr)).length < bytes.length then throw outOfBounds
        else pure () : Js (Host δ) Unit)
        { h with memory := if bytes.take (h.memory.length - addr) = [] then h.memory
                  else splice h.memory addr (bytes.take (h.memory.length - addr)) } := rfl
  rw [hrun, hmemory, stored]
  by_cases hshort : (bytes.take (h.memory.length - addr)).length < bytes.length
  · rw [if_pos hshort, if_neg (fun heq => hall.mp heq hshort)]
    rfl
  · rw [if_neg hshort, if_pos (hall.mpr hshort)]
    rfl

/-- Stores go on where the ones before did not throw. -/
theorem stored_append (before after : List (ℕ × UInt8)) (h : Host δ) :
    stored (before ++ after) h =
      match stored before h with
      | .ok _ h' => stored after h'
      | .error e h' => .error e h' := by
  have hlength := inside_length h.memory.length h.memory before rfl
  by_cases hall : inside h.memory.length before = before
  · have hsplit : inside h.memory.length (before ++ after) =
        before ++ inside h.memory.length after := by
      rw [inside, List.takeWhile_append, if_pos]
      · rfl
      · exact congrArg List.length hall
    rw [hall] at hlength
    simp only [stored, hall, if_true, hlength, hsplit, List.append_cancel_left_eq, storeAll,
      List.foldl_append] at hlength ⊢
  · have hsplit : inside h.memory.length (before ++ after) = inside h.memory.length before := by
      rw [inside, List.takeWhile_append, if_neg]
      · rfl
      · intro hlen
        exact hall ((List.takeWhile_prefix _).eq_of_length hlen)
    have hne : inside h.memory.length before ≠ before ++ after := by
      intro heq
      have hle := (List.takeWhile_prefix (l := before) fun s =>
        decide (s.1 < h.memory.length)).length_le
      have hlen := congrArg List.length heq
      rw [List.length_append] at hlen
      exact hall ((List.takeWhile_prefix _).eq_of_length (by unfold inside at hlen; omega))
    simp only [stored, hall, if_false, hsplit, hne]

theorem writeSegments_spec (segs : List VringSegment) (bytes : List UInt8) (h : Host δ) :
    writeSegments segs bytes h = stored ((addresses segs).zip bytes) h := by
  induction segs generalizing bytes h with
  | nil => simp [writeSegments, addresses, stored, inside, storeAll, pure, EStateM.pure]
  | cons seg rest ih =>
    rw [addresses_cons, zip_append_left, stored_append, List.length_range']
    have hseg : (List.range' seg.addr seg.len).zip (bytes.take seg.len) =
        (List.range' seg.addr (bytes.take seg.len).length).zip (bytes.take seg.len) :=
      zip_range' _ (List.length_take_le ..)
    rw [hseg, ← writeBytes_spec]
    change EStateM.bind (writeBytes seg.addr (bytes.take seg.len)) _ h = _
    unfold EStateM.bind
    cases writeBytes seg.addr (bytes.take seg.len) h with
    | ok a h' => exact ih _ h'
    | error e h' => rfl

/-- A device stores its bytes into the writable segments, one after the other, as far as they
reach or up to the first address outside the memory. -/
theorem writeIn_spec (chain : VringChain) (bytes : List UInt8) (h : Host δ) :
    let stores := (addresses chain.in_).zip bytes
    writeIn chain bytes h =
      match stored stores h with
      | .ok _ h' => .ok stores.length h'
      | .error e h' => .error e h' := by
  intro stores
  have hcount : stores.length = min (inCapacity chain) bytes.length := by
    rw [List.length_zip, addresses_length, inCapacity]
  have hrun : writeIn chain bytes h =
      (writeSegments chain.in_ bytes >>= fun _ =>
        (pure (min (inCapacity chain) bytes.length) : Js (Host δ) ℕ)) h := rfl
  rw [hrun, hcount]
  change EStateM.bind _ _ h = _
  unfold EStateM.bind
  rw [writeSegments_spec]
  cases stored stores h <;> rfl

theorem final_writeIn (chain : VringChain) (bytes : List UInt8) (h : Host δ) :
    final (writeIn chain bytes h) =
      { h with
        memory := storeAll h.memory (inside h.memory.length
          ((addresses chain.in_).zip bytes)) } := by
  rw [writeIn_spec]
  by_cases hall : inside h.memory.length ((addresses chain.in_).zip bytes) =
      (addresses chain.in_).zip bytes
  · simp only [stored, hall, if_true, final]
  · simp only [stored, hall, if_false, final]

end Copies

section Deliveries

/-- A used buffer that a device gives back, with the bytes put into it, and the memory as the
device left it. -/
structure Delivery where
  head : ℕ
  in_ : List VringSegment
  bytes : List UInt8
  used : ℕ
  memory : List UInt8

/-- The first `used` bytes of the buffer are the delivered ones. A chain that lists an address
twice has no such bytes of its own. -/
structure Delivery.Faithful (d : Delivery) : Prop where
  used_eq : d.used = d.bytes.length
  fits : d.used ≤ (addresses d.in_).length
  read : (addresses d.in_).Nodup →
    ∀ s ∈ (addresses d.in_).zip d.bytes, d.memory[s.1]? = some s.2

/-- What `writeIn` wrote can be read back from the buffer. -/
theorem writeIn_faithful (chain : VringChain) (bytes : List UInt8)
    (hle : bytes.length ≤ inCapacity chain) (h : Host δ) :
    Wp (writeIn chain bytes)
      (fun written h' => h'.own = h.own ∧ h'.pushed = h.pushed ∧ written = bytes.length ∧
        Delivery.Faithful ⟨chain.head, chain.in_, bytes, written, h'.memory⟩)
      (fun _ h' => h'.own = h.own ∧ h'.pushed = h.pushed) h := by
  have hlen : bytes.length ≤ (addresses chain.in_).length := by
    rw [addresses_length]
    exact hle
  have hcount : ((addresses chain.in_).zip bytes).length = bytes.length := by
    rw [List.length_zip]
    omega
  unfold Wp
  rw [writeIn_spec, stored]
  by_cases hall : inside h.memory.length ((addresses chain.in_).zip bytes) =
      (addresses chain.in_).zip bytes
  · simp only [hall, if_true]
    refine ⟨trivial, trivial, hcount, hcount, hcount ▸ hlen, fun hnodup s hs => ?_⟩
    have hin : ∀ s ∈ (addresses chain.in_).zip bytes, s.1 < h.memory.length := fun s hs =>
      (mem_inside (hall ▸ hs)).2
    have hdistinct : (((addresses chain.in_).zip bytes).map Prod.fst).Nodup := by
      have htake : ((addresses chain.in_).take bytes.length).length ≤ bytes.length :=
        List.length_take_le ..
      rw [List.zip_eq_zip_take_min, Nat.min_eq_right hlen, List.take_length, List.map_fst_zip htake]
      exact hnodup.sublist (List.take_sublist _ _)
    exact getElem?_storeAll_of_nodup hin hdistinct hs
  · simp only [hall, if_false]
    exact ⟨trivial, trivial⟩

/-- A buffer that goes back with nothing in it. -/
theorem faithful_empty (chain : VringChain) (memory : List UInt8) :
    Delivery.Faithful ⟨chain.head, chain.in_, [], 0, memory⟩ :=
  ⟨rfl, Nat.zero_le _, fun _ s hs => by simp at hs⟩

end Deliveries

end NixWasm.Virtio
