import NixWasm.ByteStore

/-!
The frames that the host sends to the tray service. Bytes are collected in a buffer of 1024
and cut into frames with a length in front; a frame is an action on an item, on a row of a
menu or on a notification, or it is skipped. The host's stream may arrive in any chunks.
Every read of a frame's body is checked here, so that a read past its end is an outcome.
-/
namespace NixWasm.TrayHost

open ByteStore

def maxId : ℕ := 192
def hostMagic : UInt8 := 71
def hostVersion : UInt8 := 1

/-- `sizeof host_input`. -/
def inputSize : ℕ := 1024

/-- What a frame asks for. -/
inductive Action
  | item (id : List UInt8) (action : UInt8) (x y : ℕ)
  | menu (id : List UInt8) (rowId : ℤ) (revision : ℕ)
  | noticeAction (id : ℕ) (key : List UInt8)
  | noticeClose (id : ℕ) (reason : UInt8)
deriving DecidableEq

section Frames

def read16 (bytes : List UInt8) (pos : ℕ) : Option ℕ := field bytes pos 2

def read32 (bytes : List UInt8) (pos : ℕ) : Option ℕ := field bytes pos 4

/-- The copy of `n` bytes into a string of `capacity` bytes: what C reads of it later. -/
def copyString (body : List UInt8) (pos n capacity : ℕ) : Option (List UInt8) :=
  if n < capacity then (load body pos n).map (List.takeWhile (· ≠ 0)) else none

/-- The magic, the version and the kind, each read only when the ones before it agree. -/
def isFrame (body : List UInt8) (kind : UInt8) : Option Bool := do
  if (← body[0]?) = hostMagic then
    if (← body[1]?) = hostVersion then
      return (← body[2]?) = kind
    else return false
  else return false

/-- A frame of a kind: `head` bytes and a text, whose length is at `lenAt`. -/
def frameOf (kind : UInt8) (head lenAt limit : ℕ) (body : List UInt8)
    (act : Option (Option Action)) : Option (Option Action) :=
  if body.length < head then some none
  else do
    if ← isFrame body kind then
      let n ← read16 body lenAt
      if n = body.length - head ∧ n ≤ limit then act
      else return none
    else return none

def itemFrame (body : List UInt8) : Option (Option Action) :=
  frameOf 3 10 3 maxId body do
    let idLen ← read16 body 3
    let id ← copyString body 10 idLen (maxId + 1)
    return some (.item id (← body[5]?) (← read16 body 6) (← read16 body 8))

def menuFrame (body : List UInt8) : Option (Option Action) :=
  frameOf 8 13 3 maxId body do
    let idLen ← read16 body 3
    let id ← copyString body 13 idLen (maxId + 1)
    return some (.menu id (BitVec.ofNat 32 (← read32 body 5)).toInt (← read32 body 9))

def noticeFrame (body : List UInt8) : Option (Option Action) :=
  frameOf 6 10 8 64 body do
    let id ← read32 body 3
    let code ← body[7]?
    if code = 0 then
      let keyLen ← read16 body 8
      return some (.noticeAction id (← copyString body 10 keyLen 65))
    else if 1 ≤ code ∧ code ≤ 4 then return some (.noticeClose id code)
    else return none

/-- The three checks of a frame, in turn. -/
def frameActions (body : List UInt8) : Option (List Action) := do
  let item ← itemFrame body
  let menu ← menuFrame body
  let notice ← noticeFrame body
  return item.toList ++ menu.toList ++ notice.toList

end Frames

/-- What the loop has done: the actions, the number of frames behind it, and the bytes that
are left, or nothing when it closed the connection. -/
structure Drained where
  actions : List Action
  frames : ℕ
  rest : Option (List UInt8)
deriving DecidableEq

def Drained.after (actions : List Action) (d : Drained) : Drained :=
  ⟨actions ++ d.actions, d.frames + 1, d.rest⟩

/-- The loop of `host_input_ready`, over the bytes from `offset` on. -/
def drain (input : List UInt8) : Option Drained :=
  if 4 ≤ input.length then
    match read32 input 0 with
    | none => none
    | some length =>
      if 13 + maxId < length then some ⟨[], 0, none⟩
      else if input.length < 4 + length then some ⟨[], 0, some input⟩
      else
        match frameActions ((input.drop 4).take length) with
        | none => none
        | some actions => (drain (input.drop (4 + length))).map (Drained.after actions)
  else some ⟨[], 0, some input⟩
termination_by input.length
decreasing_by
  rw [List.length_drop]
  omega

/-- The connection, with what it has done so far. -/
structure Host where
  input : List UInt8
  isOpen : Bool
  actions : List Action
  frames : ℕ

inductive Ready
  /-- A hangup or an error condition. -/
  | hangup
  /-- The result of `recv` is not positive. -/
  | failed
  | received (chunk : List UInt8)

/-- `close_host`. -/
def Host.closed (host : Host) : Host := { host with input := [], isOpen := false }

/-- The actions of a round, and then the bytes that are left or the end of the connection. -/
def Host.absorb (host : Host) (d : Drained) : Host :=
  let done := { host with actions := host.actions ++ d.actions, frames := host.frames + d.frames }
  match d.rest with
  | none => done.closed
  | some rest => { done with input := rest }

/-- `host_input_ready`; the watch of a closed connection is gone. -/
def hostInputReady (host : Host) (ready : Ready) : Option Host :=
  if host.isOpen then
    match ready with
    | .hangup => some host.closed
    | .failed => some host.closed
    | .received chunk => (drain (host.input ++ chunk)).map host.absorb
  else some host

/-- A new connection. -/
def Host.connected : Host := ⟨[], true, [], 0⟩

def receive (host : Host) : List (List UInt8) → Option Host
  | [] => some host
  | chunk :: chunks => (hostInputReady host (.received chunk)).bind (receive · chunks)

/-- Each chunk is one that `recv` can return: not empty, and within the free space. -/
def Chunked (host : Host) : List (List UInt8) → Prop
  | [] => True
  | chunk :: chunks =>
    (host.isOpen = true → 0 < chunk.length ∧ chunk.length ≤ inputSize - host.input.length) ∧
    ∀ next, hostInputReady host (.received chunk) = some next → Chunked next chunks

section Reads

theorem load_isSome {bytes : List UInt8} {pos n : ℕ} (h : pos + n ≤ bytes.length) :
    (load bytes pos n).isSome = true := by
  rw [load, if_pos h]
  rfl

theorem field_isSome {bytes : List UInt8} {pos n : ℕ} (h : pos + n ≤ bytes.length) :
    (field bytes pos n).isSome = true := by
  rw [field, Option.isSome_map]
  exact load_isSome h

theorem byte_isSome {bytes : List UInt8} {pos : ℕ} (h : pos < bytes.length) :
    ∃ b, bytes[pos]? = some b := ⟨bytes[pos], List.getElem?_eq_getElem h⟩

theorem copyString_isSome {body : List UInt8} {pos n capacity : ℕ} (hcap : n < capacity)
    (h : pos + n ≤ body.length) : (copyString body pos n capacity).isSome = true := by
  rw [copyString, if_pos hcap, Option.isSome_map]
  exact load_isSome h

theorem isFrame_isSome {body : List UInt8} (kind : UInt8) (h : 3 ≤ body.length) :
    ∃ b, isFrame body kind = some b := by
  obtain ⟨b₀, h₀⟩ := @byte_isSome body 0 (by omega)
  obtain ⟨b₁, h₁⟩ := @byte_isSome body 1 (by omega)
  obtain ⟨b₂, h₂⟩ := @byte_isSome body 2 (by omega)
  by_cases hmagic : b₀ = hostMagic
  · by_cases hversion : b₁ = hostVersion
    · exact ⟨decide (b₂ = kind), by simp [isFrame, h₀, h₁, h₂, hmagic, hversion]⟩
    · exact ⟨false, by simp [isFrame, h₀, h₁, hmagic, hversion]⟩
  · exact ⟨false, by simp [isFrame, h₀, hmagic]⟩

/-- A frame is read within its body when its head holds the length and the action's own reads
are within a body whose length is as it says. -/
theorem frameOf_isSome {kind : UInt8} {head lenAt limit : ℕ} {body : List UInt8}
    {act : Option (Option Action)} (hhead : 3 ≤ head) (hlen : lenAt + 2 ≤ head)
    (hact : ∀ n, read16 body lenAt = some n → body.length = head + n → n ≤ limit →
      act.isSome = true) : (frameOf kind head lenAt limit body act).isSome = true := by
  unfold frameOf
  split
  · rfl
  · rename_i hlong
    obtain ⟨b, hb⟩ := isFrame_isSome kind (show 3 ≤ body.length by omega)
    obtain ⟨n, hn⟩ := Option.isSome_iff_exists.mp
      (@field_isSome body lenAt 2 (by omega))
    change read16 body lenAt = some n at hn
    rw [hb, hn]
    cases b with
    | false => rfl
    | true =>
      by_cases hgood : n = body.length - head ∧ n ≤ limit
      · have hfound := hact n hn (by omega) hgood.2
        change (if n = body.length - head ∧ n ≤ limit then act else some none).isSome = true
        rwa [if_pos hgood]
      · change (if n = body.length - head ∧ n ≤ limit then act else some none).isSome = true
        rw [if_neg hgood]
        rfl

theorem itemFrame_isSome (body : List UInt8) : (itemFrame body).isSome = true := by
  refine frameOf_isSome (by decide) (by decide) fun n hn hlength hlimit => ?_
  obtain ⟨id, hid⟩ := Option.isSome_iff_exists.mp
    (@copyString_isSome body 10 n (maxId + 1) (by omega) (by omega))
  obtain ⟨action, haction⟩ := @byte_isSome body 5 (by omega)
  obtain ⟨x, hx⟩ := Option.isSome_iff_exists.mp (@field_isSome body 6 2 (by omega))
  obtain ⟨y, hy⟩ := Option.isSome_iff_exists.mp (@field_isSome body 8 2 (by omega))
  change read16 body 6 = some x at hx
  change read16 body 8 = some y at hy
  simp [hn, hid, haction, hx, hy]

theorem menuFrame_isSome (body : List UInt8) : (menuFrame body).isSome = true := by
  refine frameOf_isSome (by decide) (by decide) fun n hn hlength hlimit => ?_
  obtain ⟨id, hid⟩ := Option.isSome_iff_exists.mp
    (@copyString_isSome body 13 n (maxId + 1) (by omega) (by omega))
  obtain ⟨row, hrow⟩ := Option.isSome_iff_exists.mp (@field_isSome body 5 4 (by omega))
  obtain ⟨revision, hrevision⟩ := Option.isSome_iff_exists.mp (@field_isSome body 9 4 (by omega))
  change read32 body 5 = some row at hrow
  change read32 body 9 = some revision at hrevision
  simp [hn, hid, hrow, hrevision]

theorem noticeFrame_isSome (body : List UInt8) : (noticeFrame body).isSome = true := by
  refine frameOf_isSome (by decide) (by decide) fun n hn hlength hlimit => ?_
  obtain ⟨key, hkey⟩ := Option.isSome_iff_exists.mp
    (@copyString_isSome body 10 n 65 (by omega) (by omega))
  obtain ⟨code, hcode⟩ := @byte_isSome body 7 (by omega)
  obtain ⟨id, hid⟩ := Option.isSome_iff_exists.mp (@field_isSome body 3 4 (by omega))
  change read32 body 3 = some id at hid
  by_cases hzero : code = 0
  · simp [hid, hcode, hzero, hn, hkey]
  · by_cases hclose : 1 ≤ code ∧ code ≤ 4
    · simp [hid, hcode, hzero, hclose]
    · simp [hid, hcode, hzero, hclose]

/-- No frame is read beyond its body. -/
theorem frameActions_isSome (body : List UInt8) : ∃ actions, frameActions body = some actions := by
  obtain ⟨item, hitem⟩ := Option.isSome_iff_exists.mp (itemFrame_isSome body)
  obtain ⟨menu, hmenu⟩ := Option.isSome_iff_exists.mp (menuFrame_isSome body)
  obtain ⟨notice, hnotice⟩ := Option.isSome_iff_exists.mp (noticeFrame_isSome body)
  exact ⟨_, by rw [frameActions, hitem, hmenu, hnotice]; rfl⟩

end Reads

end NixWasm.TrayHost
