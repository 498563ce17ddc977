import NixWasm.Coroutines
import NixWasm.NinepContents
import NixWasm.NinepStreamedRuns
import Mathlib.Data.Fintype.Basic

/-!
Twrites in flight. The virtio-9p device starts every request it pops and awaits them
together, so a handler may be suspended wherever it awaits the backend. `twriteTask` is
the Twrite handler cut at its awaits; run alone it is `twrite`. A request has the file in
hand between reading its bytes and writing them back, between opening a writer and registering
it, between taking a writer off a fid and closing it, and during `writer.write`. No
acknowledged write is lost while no other request reads the file in the meantime, and none
looks at its writer during a write to it.
-/
namespace NixWasm.NinepServer

open Unicode Vfs NinepCodec Effects Runs Coroutines

variable {V σ : Type} [DecidableEq V]

/-- What a step of a Twrite is about to do. -/
inductive Await
  | start | table | stat | snapshot | adopt | close | append | save | read | write
deriving DecidableEq

abbrev Async (V σ : Type) := Task (World V σ) Fault Await

namespace Config

/-- `closeWriter` up to its await: the writer is off the fid. What it has to write, if
anything, is returned. -/
def takeWriter (r : Ref) : Handler V σ (Option (V × Writer)) := do
  let f ← fidAt r
  modifyFid r fun f => { f with writer := none, writerPath := none }
  match f.writerPath with
  | none => pure ()
  | some path =>
    if (← get).owners (f.vfs, path) = some r then
      modify fun w => { w with owners := Function.update w.owners (f.vfs, path) none }
  return f.writer.bind fun w => if w.dirty then some (f.vfs, w) else none

/-- `closeConflictingWriter` up to its await. -/
def takeConflict (r : Ref) : Handler V σ (Option (V × Writer)) := do
  let f ← fidAt r
  match (← get).owners (f.vfs, f.path) with
  | none => return none
  | some owner => if owner ≠ r then takeWriter owner else return none

variable (cfg : Config V σ)

/-- `writer.close()` of a writer that was taken off. -/
def closeTask : Option (V × Writer) → Async V σ Unit
  | none => pure ()
  | some (v, wr) => .atom .close (cfg.writeBytes v wr.path wr.bytes)

/-- The fid gets its new writer and its claim on the file. -/
def adopt (r : Ref) (v : V) (p : Path) (writer : Writer) : Handler V σ Unit := do
  modifyFid r fun f => { f with writer := some writer, writerPath := some f.path }
  modify fun w => { w with owners := Function.update w.owners (v, p) (some r) }

/-- `openWriter` up to its first await: `none` when the backend does not stream. -/
def enter (r : Ref) : Handler V σ (Fid V × Option (Option (V × Writer))) := do
  let f ← fidAt r
  if cfg.openWrite f.vfs then return (f, some (← takeConflict r)) else return (f, none)

/-- `openWriter(f, true)`. -/
def openTask (r : Ref) : Async V σ Unit := do
  match ← .atom .table (cfg.enter r) with
  | (_, none) => pure ()
  | (f, some conflict) =>
    cfg.closeTask conflict
    cfg.closeTask (← .atom .table (takeWriter r))
    let writer ← .atom .snapshot (cfg.openWriteAt f.vfs f.path true)
    .atom .adopt (adopt r f.vfs f.path writer)

section Twrite

variable (offset : ℕ) (data : List UInt8)

/-- The size test: the data goes to the fid's writer (`.inl`), or the writer is taken off. -/
def testSize (r : Ref) : Handler V σ (Writer ⊕ Option (V × Writer)) := do
  match (← fidAt r).writer with
  | some w =>
    if offset = w.bytes.length then return .inl w
    else return .inr (← takeWriter r)
  | none => return .inr (← takeWriter r)

/-- After the conflicting writer is closed: a fid without a writer looks the file up,
any other one goes on at once. -/
def resume (r : Ref) : Handler V σ (Fid V × Option (Writer ⊕ Option (V × Writer))) := do
  let f ← fidAt r
  if f.writer.isNone ∧ cfg.openWrite f.vfs then return (f, none)
  else return (f, some (← testSize offset r))

/-- `writer.write` grows the writer. What is written to one that was closed or written to since
the size test is lost. -/
def grow (r : Ref) (w : Writer) : Handler V σ Unit := do
  match (← fidAt r).writer with
  | some now =>
    if now.path = w.path ∧ now.bytes = w.bytes then
      modifyFid r fun f => { f with writer := some ⟨w.path, w.bytes ++ data, true⟩ }
  | none => pure ()

/-- A backend that saves at once has the bytes before `writer.write` is done. -/
def settle (r : Ref) (v : V) : Handler V σ Unit := do
  match (← fidAt r).writer with
  | some w => if cfg.eager v w then cfg.flush r v w
  | none => pure ()

/-- `writer.write`. -/
def appendTask (r : Ref) (v : V) (w : Writer) : Async V σ Unit := do
  .atom .append (grow data r w)
  .atom .save (cfg.settle r v)

/-- The last part, after the size test. -/
def finishTask (r : Ref) (f : Fid V) : Writer ⊕ Option (V × Writer) → Async V σ Body
  | .inl w => do
    cfg.appendTask data r f.vfs w
    return .rwrite data.length
  | .inr pending => do
    cfg.closeTask pending
    let cur ← .atom .read (cfg.readBytes f.vfs f.path)
    .atom .write (cfg.writeBytes f.vfs f.path (overlay cur offset data))
    return .rwrite data.length

/-- The writer is opened again when the request continues at the end of the file. -/
def reopenTask (r : Ref) (f : Fid V) : Async V σ Unit := do
  let found ← .atom .stat (cfg.stat f.vfs f.path)
  let size ← .atom .stat (twrite.sizeOrZero cfg f.vfs found)
  if offset = size then cfg.openTask r else pure ()

def twriteTask (cid fid : ℕ) : Async V σ Body := do
  let (r, pending) ← .atom .start do
    let r ← cfg.getFid cid fid
    return (r, ← takeConflict r)
  cfg.closeTask pending
  match ← .atom .table (cfg.resume offset r) with
  | (f, some tested) => cfg.finishTask offset data r f tested
  | (f, none) =>
    cfg.reopenTask offset r f
    cfg.finishTask offset data r f (← .atom .table (testSize offset r))

end Twrite

end Config

section Alone

variable (cfg : Config V σ)

theorem takeWriter_eq (r : Ref) (w : World V σ) :
    Config.takeWriter r w = .ok ((w.heap r).writer.bind fun wr =>
      if wr.dirty then some ((w.heap r).vfs, wr) else none) (w.release r) := by
  unfold Config.takeWriter
  rw [bind_ok (fidAt_eq r w), bind_ok (modifyFid_eq r _ w)]
  unfold World.release
  cases hp : (w.heap r).writerPath with
  | none => rfl
  | some path =>
    change (if w.owners ((w.heap r).vfs, path) = some r then _ else _ :
      Handler V σ (Option (V × Writer))) _ = _
    by_cases ho : w.owners ((w.heap r).vfs, path) = some r
    · simp only [if_pos ho]
      rfl
    · simp only [if_neg ho]
      rfl

theorem closeWriter_take (r : Ref) :
    cfg.closeWriter r =
      Config.takeWriter r >>= fun pending => (cfg.closeTask pending).alone := by
  funext w
  rw [closeWriter_eq, bind_ok (takeWriter_eq r w)]
  cases (w.heap r).writer with
  | none => rfl
  | some wr =>
    by_cases hd : wr.dirty = true
    · simp [hd, Config.closeTask]
    · simp [hd, Config.closeTask]

theorem closeConflictingWriter_take (r : Ref) :
    cfg.closeConflictingWriter r =
      Config.takeConflict r >>= fun pending => (cfg.closeTask pending).alone := by
  unfold Config.closeConflictingWriter Config.takeConflict
  rw [bind_assoc]
  congr 1
  funext f
  rw [bind_assoc]
  congr 1
  funext w
  cases w.owners (f.vfs, f.path) with
  | none => rfl
  | some owner =>
    by_cases ho : owner ≠ r
    · simp only [if_pos ho]
      exact closeWriter_take cfg owner
    · simp only [if_neg ho]
      rfl

omit [DecidableEq V] in
theorem discard_eq {α : Type} (x : Handler V σ α) : discard x = x >>= fun _ => pure () := by
  funext w
  cases h : x w with
  | ok a w' =>
    rw [bind_ok h]
    change EStateM.map _ x w = _
    simp only [EStateM.map, h]
    rfl
  | error e w' =>
    rw [bind_error h]
    change EStateM.map _ x w = _
    simp only [EStateM.map, h]

theorem alone_openTask (r : Ref) :
    (cfg.openTask r).alone = discard (cfg.openWriter r true) := by
  unfold Config.openTask Config.openWriter Config.enter
  rw [discard_eq, bind_assoc, Task.alone_bind, Task.alone_atom, bind_assoc]
  congr 1
  funext f
  by_cases ho : cfg.openWrite f.vfs = true
  · simp only [if_pos ho, bind_assoc, pure_bind, Task.alone_bind, Task.alone_atom,
      closeConflictingWriter_take, closeWriter_take, Config.adopt]
    rfl
  · simp only [if_neg ho, pure_bind]
    rfl

omit [DecidableEq V] in
/-- A writer that is as the size test found it grows. -/
theorem grow_eq (data : List UInt8) {r : Ref} {wr now : Writer} {w : World V σ}
    (hnow : (w.heap r).writer = some now) (hpath : now.path = wr.path)
    (hbytes : now.bytes = wr.bytes) :
    Config.grow data r wr w = .ok () (w.setFid r { w.heap r with
      writer := some ⟨wr.path, wr.bytes ++ data, true⟩ }) := by
  unfold Config.grow
  rw [bind_ok (fidAt_eq r w), hnow]
  simp only [if_pos (And.intro hpath hbytes)]
  exact modifyFid_eq r _ w

theorem settle_eq {r : Ref} (v : V) {now : Writer} {w : World V σ}
    (hnow : (w.heap r).writer = some now) :
    cfg.settle r v w = (if cfg.eager v now then cfg.flush r v now else pure ()) w := by
  unfold Config.settle
  rw [bind_ok (fidAt_eq r w), hnow]

/-- A write that nothing interrupts. -/
theorem alone_appendTask (data : List UInt8) (r : Ref) (v : V) (wr : Writer) (w : World V σ)
    (hwr : (w.heap r).writer = some wr) :
    (cfg.appendTask data r v wr).alone w = cfg.replaceBytes r v wr (wr.bytes ++ data) w := by
  unfold Config.appendTask Config.replaceBytes
  simp only [Task.alone_bind, Task.alone_atom]
  rw [bind_ok (grow_eq data hwr rfl rfl), bind_ok (modifyFid_eq r _ w),
    settle_eq cfg v (congrArg Fid.writer (setFid_heap_self w r _))]
  rfl

theorem alone_finishTask (offset : ℕ) (data : List UInt8) (r : Ref) (f : Fid V) :
    (Config.testSize offset r >>= fun tested =>
        (cfg.finishTask offset data r f tested).alone) = (do
      match (← Config.fidAt r).writer with
      | some w =>
        if offset = w.bytes.length then
          cfg.replaceBytes r f.vfs w (w.bytes ++ data)
          return .rwrite data.length
        else Config.twrite.readModifyWrite cfg offset data r f
      | none => Config.twrite.readModifyWrite cfg offset data r f) := by
  have hrest : (Config.takeWriter r >>= fun pending =>
      (cfg.finishTask offset data r f (.inr pending)).alone) =
      Config.twrite.readModifyWrite cfg offset data r f := by
    unfold Config.twrite.readModifyWrite Config.finishTask
    simp only [closeWriter_take, Task.alone_bind, Task.alone_atom, Task.alone_pure, bind_assoc]
  unfold Config.testSize
  rw [bind_assoc]
  funext w
  rw [bind_ok (fidAt_eq r w), bind_ok (fidAt_eq r w)]
  cases hwr : (w.heap r).writer with
  | none =>
    simp only [bind_assoc, pure_bind]
    exact congrFun hrest w
  | some wr =>
    by_cases ho : offset = wr.bytes.length
    · simp only [if_pos ho, pure_bind]
      unfold Config.finishTask
      rw [Task.alone_bind]
      change EStateM.bind _ _ w = EStateM.bind _ _ w
      unfold EStateM.bind
      rw [alone_appendTask cfg data r f.vfs wr w hwr]
      rfl
    · simp only [if_neg ho, bind_assoc, pure_bind]
      exact congrFun hrest w

/-- A Twrite that nothing interrupts is the handler. -/
theorem alone_twriteTask (cid fid offset : ℕ) (data : List UInt8) :
    (cfg.twriteTask offset data cid fid).alone = cfg.twrite cid fid offset data := by
  unfold Config.twriteTask Config.twrite
  simp only [Task.alone_bind, Task.alone_atom, bind_assoc, pure_bind, closeConflictingWriter_take]
  congr 1
  funext r
  congr 1
  funext pending
  congr 1
  funext _
  unfold Config.resume
  rw [bind_assoc]
  congr 1
  funext f
  unfold Config.twrite.reopen
  by_cases hreopen : f.writer.isNone ∧ cfg.openWrite f.vfs
  · simp only [if_pos hreopen, pure_bind, Config.reopenTask, Task.alone_bind, Task.alone_atom,
      bind_assoc]
    congr 1
    funext found
    congr 1
    funext size
    rw [alone_finishTask]
    by_cases hsize : offset = size
    · simp only [if_pos hsize, alone_openTask] <;> rfl
    · simp only [if_neg hsize] <;> rfl
  · simp only [if_neg hreopen, pure_bind, bind_assoc]
    exact alone_finishTask cfg offset data r f

end Alone

section Sharing

/-- Steps that look at the bytes of the file. -/
def Await.observes : Await → Bool
  | .snapshot | .read => true
  | _ => false

/-- Steps that look at a writer, and may take it off. -/
def Await.tests : Await → Bool
  | .start | .table => true
  | _ => false

/-- Steps of `writer.write`. -/
def Await.appends : Await → Bool
  | .append | .save => true
  | _ => false

/-- Steps of a request that has the file in hand. -/
def Await.holds : Await → Bool
  | .close | .adopt | .write | .append | .save => true
  | _ => false

/-- Where a Twrite is: with a writer's bytes it took off, with a copy of the file, in
`writer.write` on a fid before and after the writer has grown, done, or with nothing in hand. -/
inductive Mode
  | idle
  | taken (bytes : List UInt8)
  | copied (bytes : List UInt8)
  | appending (r : Ref) (wr : Writer)
  | saving (r : Ref)
  | acked

def Mode.appends : Mode → Bool
  | .appending .. | .saving _ => true
  | _ => false

def Mode.holds : Mode → Bool
  | .taken _ | .copied _ | .appending .. | .saving _ => true
  | _ => false

/-- The data is in the file. -/
def Mode.written : Mode → Bool
  | .saving _ | .acked => true
  | _ => false

theorem holds_of_appends {m : Mode} (h : m.appends = true) : m.holds = true := by
  cases m with
  | appending r wr => rfl
  | saving r => rfl
  | _ => cases h

variable (cfg : Config V σ) (v : V) (p : Path)

/-- Nobody has a writer on the file. -/
structure Bare (w : World V σ) : Prop where
  unowned : w.owners (v, p) = none
  idle : ∀ r, At v p r w → (w.heap r).writer = none

/-- The fid has the writer on the file. -/
structure Writing (c : List UInt8) (r : Ref) (w : World V σ) : Prop where
  holding : Holding cfg v p c w
  bound : At v p r w
  writer : (w.heap r).writer ≠ none

/-- The file holds `c`, counting what a request has in hand. -/
def Held (c : List UInt8) (w : World V σ) : Mode → Prop
  | .taken bytes => bytes = c ∧ Bare v p w
  | .copied bytes => bytes = c ∧ Bare v p w ∧ Holding cfg v p c w
  | .appending r wr => wr.bytes = c ∧ wr.path = p ∧ Writing cfg v p c r w
  | .saving r => Writing cfg v p c r w
  | _ => Holding cfg v p c w

/-- What a request in mode `m` finds, beside another one in mode `o`. -/
structure Found (w₀ : World V σ) (m o : Mode) (c : List UInt8) (w : World V σ) : Prop where
  fids : SameFids w₀ w
  one : m.holds = true → o.holds = false
  held : Held cfg v p c w (if m.holds then m else o)

/-- The file is read while no other request has it in hand and no writer is open, and writers
are looked at while no other request writes to one. -/
def Alone (label : Await) (o : Mode) (w : World V σ) : Prop :=
  (label.observes = true → o.holds = false ∧ w.owners (v, p) = none) ∧
    (label.tests = true → o.appends = false)

def Fits (m : Mode) (label : Await) : Prop :=
  label.holds = m.holds ∧ label.appends = m.appends

def Rely (w₀ : World V σ) (m : Mode) (label : Await) (w : World V σ) : Prop :=
  ∃ o c, Found cfg v p w₀ m o c w ∧ Alone v p label o w

/-- The contents stay, or they get the data; then the data is in the file. -/
def Moves (w₀ : World V σ) (offset : ℕ) (data : List UInt8) (o : Mode) (c : List UInt8)
    (m m' : Mode) (w : World V σ) : Prop :=
  ((m'.written = true → m.written = true) ∧ Found cfg v p w₀ m' o c w) ∨
    Found cfg v p w₀ m' o (Config.overlay c offset data) w

def Owe (w₀ : World V σ) (offset : ℕ) (data : List UInt8) (m : Mode) (label : Await)
    (w : World V σ) (m' : Mode) (w' : World V σ) : Prop :=
  ∀ o c, Found cfg v p w₀ m o c w → Alone v p label o w →
    Moves cfg v p w₀ offset data o c m m' w'

/-- Every step of the task does what it owes the other requests. -/
abbrev Minds {α : Type} (w₀ : World V σ) (offset : ℕ) (data : List UInt8) (done : Mode → α → Prop) :
    Mode → Async V σ α → Prop :=
  Follows Fits (Rely cfg v p w₀) (Owe cfg v p w₀ offset data) done

variable {cfg v p} {w₀ w : World V σ} {offset : ℕ} {data : List UInt8} {c : List UInt8} {m o : Mode}
  {r : Ref}

omit [DecidableEq V] in
theorem minds_atom {α : Type} {done : Mode → α → Prop} {label : Await} {x : Handler V σ α}
    (mode : α → Mode) (hfits : Fits m label)
    (h : ∀ o c w, Found cfg v p w₀ m o c w → Alone v p label o w →
      Wp x (fun a w' => Moves cfg v p w₀ offset data o c m (mode a) w' ∧ done (mode a) a)
        (fun _ _ => True) w) :
    Minds cfg v p w₀ offset data done m (.atom label x) := by
  refine follows_atom hfits fun w hw => ?_
  obtain ⟨o, c, hfound, halone⟩ := hw
  have hdone := h o c w hfound halone
  unfold Wp at hdone ⊢
  cases hx : x w with
  | error e w' => trivial
  | ok a w' =>
    rw [hx] at hdone
    refine ⟨mode a, fun o' c' hfound' halone' => ?_, hdone.2⟩
    have hmoves := h o' c' w hfound' halone'
    unfold Wp at hmoves
    rw [hx] at hmoves
    exact hmoves.1

omit [DecidableEq V] in
theorem SameFids.at_iff (h : SameFids w₀ w) : At v p r w ↔ At v p r w₀ := by
  unfold At
  rw [h.vfs, h.path]

section Writers

/-- What a taken writer leaves in the hands of the request. -/
def Mode.ofPending : Option (V × Writer) → Mode
  | none => .idle
  | some (_, wr) => .taken wr.bytes

/-- The mode and the value after a writer was taken off. -/
def Pending (v : V) (p : Path) (m : Mode) (pending : Option (V × Writer)) : Prop :=
  m = .ofPending pending ∧ ∀ u wr, pending = some (u, wr) → u = v ∧ wr.path = p

omit [DecidableEq V] in
theorem ofPending_unwritten (pending : Option (V × Writer)) (m : Mode)
    (h : (Mode.ofPending pending).written = true) : m.written = true := by
  rcases pending with _ | ⟨u, wr⟩
  · cases h
  · cases h

theorem Bare.release (h : Bare v p w) (r : Ref) : Bare v p (w.release r) := by
  constructor
  · cases ho : (w.release r).owners (v, p) with
    | none => rfl
    | some o =>
      have hbefore := (release_owners ho).1
      rw [h.unowned] at hbefore
      cases hbefore
  · intro r' hat
    by_cases heq : r' = r
    · rw [heq, release_heap_self]
    · rw [release_heap_of_ne w heq]
      exact h.idle r' (hat.of_heap (release_path w r r').symm (release_vfs w r r').symm)

omit [DecidableEq V] in
/-- Nothing to take where another request has bytes in hand. -/
theorem Held.bare {c : List UInt8} (h : Held cfg v p c w o) (ho : o.holds = true)
    (happends : o.appends = false) : Bare v p w := by
  cases o with
  | taken bytes => exact h.2
  | copied bytes => exact h.2.1
  | appending r wr => cases happends
  | saving r => cases happends
  | idle => cases ho
  | acked => cases ho

omit [DecidableEq V] in
theorem Held.holding (h : Held cfg v p c w o) (ho : o.holds = false) : Holding cfg v p c w := by
  cases o with
  | taken bytes => cases ho
  | copied bytes => cases ho
  | appending r wr => cases ho
  | saving r => cases ho
  | idle => exact h
  | acked => exact h

omit [DecidableEq V] in
theorem Holding.held (h : Holding cfg v p c w) (ho : o.holds = false) : Held cfg v p c w o := by
  cases o with
  | taken bytes => cases ho
  | copied bytes => cases ho
  | appending r wr => cases ho
  | saving r => cases ho
  | idle => exact h
  | acked => exact h

omit [DecidableEq V] in
theorem found_idle (hfids : SameFids w₀ w) (hheld : Held cfg v p c w o) :
    Found cfg v p w₀ .idle o c w :=
  ⟨hfids, fun hfalse => (Bool.false_ne_true hfalse).elim, hheld⟩

theorem Held.release (h : Held cfg v p c w o) (ho : o.holds = true) (happends : o.appends = false)
    (hat : At v p r w) : Held cfg v p c (w.release r) o := by
  have hbare := h.bare ho happends
  cases o with
  | taken bytes => exact ⟨h.1, hbare.release r⟩
  | copied bytes =>
    exact ⟨h.1, hbare.release r, (h.2.2.release_idle hat (hbare.idle r hat)).1⟩
  | appending r wr => cases happends
  | saving r => cases happends
  | idle => cases ho
  | acked => cases ho

omit [DecidableEq V] in
theorem Holding.bare (h : Holding cfg v p c w) (hfree : w.owners (v, p) = none) : Bare v p w := by
  refine ⟨hfree, fun r hat => ?_⟩
  by_contra hne
  have ho := h.owned r hat.1 hat.2 hne
  rw [hfree] at ho
  cases ho

omit [DecidableEq V] in
theorem Bare.holding (h : Bare v p w) (hread : (cfg.backend v).readBytes (w.disk v) p = c) :
    Holding cfg v p c w := by
  refine ⟨fun o ho => ?_, fun _ => hread, fun r hv hp hne => ?_⟩
  · rw [h.unowned] at ho
    cases ho
  · exact absurd (h.idle r ⟨hv, hp⟩) hne

/-- Taking a writer off a fid of the file. -/
theorem Found.release (h : Found cfg v p w₀ .idle o c w) (happends : o.appends = false)
    (hat : At v p r w) :
    Wp (Config.takeWriter r) (fun pending w' =>
      Found cfg v p w₀ (.ofPending pending) o c w' ∧ Pending v p (.ofPending pending) pending)
      (fun _ _ => True) w := by
  have hheld : Held cfg v p c w o := h.held
  have hfids := h.fids.release r
  unfold Wp
  rw [takeWriter_eq]
  by_cases ho : o.holds = true
  · rw [(hheld.bare ho happends).idle r hat]
    exact ⟨found_idle hfids (hheld.release ho happends hat), rfl, fun u wr hnone => by cases hnone⟩
  · have ho' : o.holds = false := Bool.not_eq_true _ ▸ ho
    have hholding := hheld.holding ho'
    cases hwr : (w.heap r).writer with
    | none =>
      exact ⟨found_idle hfids ((hholding.release_idle hat hwr).1.held ho'), rfl,
        fun u wr hnone => by cases hnone⟩
    | some wr =>
      obtain ⟨howner, hbytes, hpath⟩ := hholding.writer_bytes hat hwr
      by_cases hd : wr.dirty = true
      · simp only [Option.bind_some, if_pos hd]
        obtain ⟨hnone, hwriters⟩ := hholding.release_owners howner
        refine ⟨⟨hfids, fun _ => ho', hbytes, hnone, fun r' hat' => hwriters r' hat'.1 hat'.2⟩,
          rfl, ?_⟩
        rintro u wr' heq
        cases heq
        exact ⟨hat.1, hpath⟩
      · simp only [Option.bind_some, if_neg hd]
        obtain ⟨-, -, -, -, wr', hwr', -, -, hclean⟩ := hholding.owner r howner
        cases hwr.symm.trans hwr'
        have hread := hclean (Bool.not_eq_true _ ▸ hd)
        exact ⟨found_idle hfids ((hholding.of_release howner _ rfl rfl hread).1.held ho'), rfl,
          fun u wr hnone => by cases hnone⟩

theorem Found.conflict (h : Found cfg v p w₀ .idle o c w) (happends : o.appends = false)
    (hat : At v p r w) :
    Wp (Config.takeConflict r) (fun pending w' =>
      Found cfg v p w₀ (.ofPending pending) o c w' ∧ Pending v p (.ofPending pending) pending)
      (fun _ _ => True) w := by
  have hheld : Held cfg v p c w o := h.held
  have hnone : Found cfg v p w₀ (.ofPending (none : Option (V × Writer))) o c w ∧
      Pending v p (.ofPending none) none := ⟨h, rfl, fun u wr hnone => by cases hnone⟩
  unfold Config.takeConflict
  rw [wp_bind, wp_fidAt, wp_bind, wp_get, hat.1, hat.2]
  cases howner : w.owners (v, p) with
  | none => exact hnone
  | some owner =>
    simp only
    rw [wp_ite]
    refine ⟨fun _ => h.release happends ?_, fun _ => hnone⟩
    by_cases ho : o.holds = true
    · rw [(hheld.bare ho happends).unowned] at howner
      cases howner
    · obtain ⟨-, hvfs, hpath, -⟩ := (hheld.holding (Bool.not_eq_true _ ▸ ho)).owner owner howner
      exact ⟨hvfs, hpath⟩

end Writers

section Tasks

omit [DecidableEq V] in
/-- A step that only looks around. -/
theorem minds_quiet {α : Type} {label : Await} {x : Handler V σ α} {q : α → Prop}
    (hlabel : Fits .idle label)
    (hx : ∀ w, SameFids w₀ w → Wp x (fun a w' => w' = w ∧ q a) (fun _ _ => True) w) :
    Minds cfg v p w₀ offset data (fun m a => m = .idle ∧ q a) .idle (.atom label x) := by
  refine minds_atom (fun _ => .idle) hlabel fun o c w hfound _ => ?_
  refine (hx w hfound.fids).mono (fun a w' ha => ?_) fun _ _ he => he
  rw [ha.1]
  exact ⟨.inl ⟨id, hfound⟩, rfl, ha.2⟩

omit [DecidableEq V] in
theorem minds_take {x : Handler V σ (Option (V × Writer))}
    (hx : ∀ o c w, Found cfg v p w₀ .idle o c w → o.appends = false → Wp x (fun pending w' =>
      Found cfg v p w₀ (.ofPending pending) o c w' ∧ Pending v p (.ofPending pending) pending)
      (fun _ _ => True) w) :
    Minds cfg v p w₀ offset data (Pending v p) .idle (.atom .table x) := by
  refine minds_atom Mode.ofPending ⟨rfl, rfl⟩ fun o c w hfound halone => ?_
  refine (hx o c w hfound (halone.2 rfl)).mono (fun pending w' h => ?_) fun _ _ he => he
  exact ⟨.inl ⟨ofPending_unwritten pending _, h.1⟩, h.2⟩

variable (hback : ReadsBack (cfg.backend v) p)

include hback

theorem minds_closeTask {pending : Option (V × Writer)} (h : Pending v p m pending) :
    Minds cfg v p w₀ offset data (fun m _ => m = .idle) m (cfg.closeTask pending) := by
  obtain ⟨rfl, hpending⟩ := h
  rcases pending with _ | ⟨u, wr⟩
  · exact follows_pure rfl
  · obtain ⟨rfl, hpath⟩ := hpending u wr rfl
    refine minds_atom (fun _ => .idle) ⟨rfl, rfl⟩ fun o c w hfound _ => ?_
    have ho := hfound.one rfl
    obtain ⟨hbytes, hbare⟩ : wr.bytes = c ∧ Bare u p w := hfound.held
    refine wp_call cfg u _ (fun d hd => ?_) fun _ _ => trivial
    rw [hpath, hbytes] at hd
    have hbare' : Bare u p (w.setDisk u d) := ⟨hbare.unowned, hbare.idle⟩
    have hholding : Holding cfg u p c (w.setDisk u d) := hbare'.holding (by
      rw [setDisk_disk_self]
      exact hback _ _ _ hd)
    exact ⟨.inl ⟨(fun h => by cases h),
      found_idle (hfound.fids.setDisk u d) (hholding.held ho)⟩, rfl⟩

variable (hat : At v p r w₀)

include hat

theorem minds_openTask :
    Minds cfg v p w₀ offset data (fun m _ => m = .idle) .idle (cfg.openTask r) := by
  -- the fid and the writer it gives up, if the backend streams
  let mode : Fid V × Option (Option (V × Writer)) → Mode := fun a => (a.2.map .ofPending).getD .idle
  have henter : Minds cfg v p w₀ offset data (fun m a => (a.1.vfs = v ∧ a.1.path = p) ∧
      match a.2 with
      | none => m = .idle
      | some pending => cfg.openWrite v = true ∧ Pending v p m pending) .idle
      (.atom .table (cfg.enter r)) := by
    refine minds_atom mode ⟨rfl, rfl⟩ fun o c w hfound halone => ?_
    have hat' := hfound.fids.at_iff.mpr hat
    unfold Config.enter
    rw [wp_bind, wp_fidAt, hat'.1, wp_ite]
    refine ⟨fun hstreams => ?_, fun _ => ⟨.inl ⟨id, hfound⟩, hat', rfl⟩⟩
    rw [wp_bind]
    refine (hfound.conflict (halone.2 rfl) hat').mono (fun pending w' h => ?_) fun _ _ he => he
    exact ⟨.inl ⟨ofPending_unwritten pending _, h.1⟩, hat', hstreams, h.2⟩
  unfold Config.openTask
  refine follows_bind henter fun m a ha => ?_
  obtain ⟨f, _ | conflict⟩ := a
  · exact follows_pure ha.2
  obtain ⟨⟨hvfs, hpath⟩, hstreams, hpending⟩ := ha
  simp only at hvfs hpath ⊢
  refine follows_bind (minds_closeTask hback hpending) fun m _ hm => ?_
  rw [hm]
  refine follows_bind (minds_take fun o c w hfound happends =>
    hfound.release happends (hfound.fids.at_iff.mpr hat)) fun m pending hpending => ?_
  refine follows_bind (minds_closeTask hback hpending) fun m _ hm => ?_
  rw [hm, hvfs, hpath]
  have hsnapshot : Minds cfg v p w₀ offset data (fun m wr => m = .copied wr.bytes ∧
    wr.path = p) .idle
      (.atom .snapshot (cfg.openWriteAt v p true)) := by
    refine minds_atom (fun wr => .copied wr.bytes) ⟨rfl, rfl⟩ fun o c w hfound halone => ?_
    obtain ⟨ho, hfree⟩ := halone.1 rfl
    have hholding : Holding cfg v p c w := Held.holding hfound.held ho
    unfold Config.openWriteAt
    rw [if_pos rfl, wp_ite]
    refine ⟨fun _ => ?_, fun _ => trivial⟩
    rw [wp_bind]
    refine wp_readBlob cfg v p (fun bytes hbytes => ?_) fun _ _ => trivial
    have hread : bytes = c := by
      have hbackend := hholding.unowned hfree
      unfold Backend.readBytes at hbackend
      rwa [hbytes] at hbackend
    rw [wp_pure]
    refine ⟨.inl ⟨(fun h => by cases h), ⟨hfound.fids, fun _ => ho, ?_⟩⟩, rfl, rfl⟩
    exact ⟨hread, hholding.bare hfree, hholding⟩
  refine follows_bind hsnapshot fun m wr hm => ?_
  obtain ⟨rfl, hwr⟩ := hm
  refine minds_atom (fun _ => .idle) ⟨rfl, rfl⟩ fun o c w hfound _ => ?_
  have hat' := hfound.fids.at_iff.mpr hat
  obtain ⟨hbytes, hbare, hholding⟩ : wr.bytes = c ∧ Bare v p w ∧ Holding cfg v p c w := hfound.held
  unfold Config.adopt
  rw [wp_bind, wp_modifyFid, wp_modify]
  have hfids := hfound.fids.setFid (r := r) (f := { w.heap r with
    writer := some wr, writerPath := some (w.heap r).path }) rfl rfl
  refine ⟨.inl ⟨(fun h => by cases h),
    found_idle ⟨hfids.conns, hfids.next, hfids.vfs, hfids.path⟩ ?_⟩, rfl⟩
  exact (hholding.adopt hat' hstreams hbare.unowned hwr hbytes).held (hfound.one rfl)

omit hback hat in
theorem SameFids.save (h : SameFids w₀ w) (wr : Writer) :
    Wp (cfg.save r v wr) (fun _ w' => SameFids w₀ w') (fun _ _ => True) w := by
  unfold Config.save
  rw [wp_bind]
  refine wp_call cfg v _ (fun d _ => ?_) fun _ _ => trivial
  rw [wp_modifyFid]
  exact (h.setDisk v d).setFid rfl rfl

/-- The mode after the size test. -/
def Mode.ofTested (r : Ref) : Writer ⊕ Option (V × Writer) → Mode
  | .inl wr => .appending r wr
  | .inr pending => .ofPending pending

/-- The data goes to the end of the file, by the writer that was tested. -/
def Tested (v : V) (p : Path) (r : Ref) (offset : ℕ) (m : Mode) :
    Writer ⊕ Option (V × Writer) → Prop
  | .inl wr => m = .appending r wr ∧ offset = wr.bytes.length
  | .inr pending => Pending v p m pending

omit hback in
theorem Found.testSize (data : List UInt8) (h : Found cfg v p w₀ .idle o c w)
    (happends : o.appends = false) : Wp (Config.testSize offset r) (fun tested w' =>
      Moves cfg v p w₀ offset data o c .idle (.ofTested r tested) w' ∧
        Tested v p r offset (.ofTested r tested) tested) (fun _ _ => True) w := by
  have hat' := h.fids.at_iff.mpr hat
  have htake : Wp (do return .inr (← Config.takeWriter r)) (fun tested w' =>
      Moves cfg v p w₀ offset data o c .idle (.ofTested r tested) w' ∧
        Tested v p r offset (.ofTested r tested) tested) (fun _ _ => True) w := by
    rw [wp_bind]
    refine (h.release happends hat').mono (fun pending w' hw' => ?_) fun _ _ he => he
    exact ⟨.inl ⟨ofPending_unwritten pending _, hw'.1⟩, hw'.2⟩
  unfold Config.testSize
  rw [wp_bind, wp_fidAt]
  cases hwr : (w.heap r).writer with
  | none => exact htake
  | some wr =>
    simp only
    rw [wp_ite]
    refine ⟨fun hoffset => ?_, fun _ => htake⟩
    have ho : o.holds = false := by
      by_contra hholds
      have hidle := (Held.bare h.held (Bool.not_eq_false _ ▸ hholds) happends).idle r hat'
      rw [hwr] at hidle
      cases hidle
    have hholding : Holding cfg v p c w := Held.holding h.held ho
    obtain ⟨-, hbytes, hpath⟩ := hholding.writer_bytes hat' hwr
    have hwriting : Writing cfg v p c r w :=
      ⟨hholding, hat', by rw [hwr]; exact Option.some_ne_none wr⟩
    exact ⟨.inl ⟨(fun h => by cases h), h.fids, fun _ => ho, hbytes, hpath, hwriting⟩, rfl,
      hoffset⟩

omit hat in
/-- The write to a writer: nobody has touched it since the size test. -/
theorem minds_appendTask {wr : Writer} (hoffset : offset = wr.bytes.length) :
    Minds cfg v p w₀ offset data (fun m _ => m = .acked) (.appending r wr)
      (cfg.appendTask data r v wr) := by
  unfold Config.appendTask
  have hgrow : Minds cfg v p w₀ offset data (fun m _ => m = .saving r) (.appending r wr)
      (.atom .append (Config.grow data r wr)) := by
    refine minds_atom (fun _ => .saving r) ⟨rfl, rfl⟩ fun o c w hfound _ => ?_
    obtain ⟨hbytes, hpath, hwriting⟩ : wr.bytes = c ∧ wr.path = p ∧ Writing cfg v p c r w :=
      hfound.held
    obtain ⟨now, hnow⟩ := Option.ne_none_iff_exists'.mp hwriting.writer
    obtain ⟨-, hnowBytes, hnowPath⟩ := hwriting.holding.writer_bytes hwriting.bound hnow
    rw [Wp, grow_eq data hnow (hnowPath.trans hpath.symm) (hnowBytes.trans hbytes.symm)]
    have hgrown := hwriting.holding.pending hwriting.bound hnow (wr.bytes ++ data)
    rw [hnowPath.trans hpath.symm] at hgrown
    refine ⟨.inr ⟨hfound.fids.setFid rfl rfl, fun _ => hfound.one rfl, ?_⟩, rfl⟩
    rw [hoffset, ← hbytes, overlay_at_end]
    refine ⟨hgrown, ?_, ?_⟩
    · exact hwriting.bound.of_heap (by rw [setFid_heap_self]) (by rw [setFid_heap_self])
    · rw [setFid_heap_self]
      exact Option.some_ne_none _
  have hsettle : Minds cfg v p w₀ offset data (fun m _ => m = .acked) (.saving r)
      (.atom .save (cfg.settle r v)) := by
    refine minds_atom (fun _ => .acked) ⟨rfl, rfl⟩ fun o c w hfound _ => ?_
    have hwriting : Writing cfg v p c r w := hfound.held
    obtain ⟨now, hnow⟩ := Option.ne_none_iff_exists'.mp hwriting.writer
    have hdone : ∀ w', SameFids w₀ w' → Holding cfg v p c w' →
        Moves cfg v p w₀ offset data o c (.saving r) .acked w' := by
      intro w' hfids hholding
      exact .inl ⟨fun _ => rfl, hfids, fun hfalse => (Bool.false_ne_true hfalse).elim,
        hholding.held (hfound.one rfl)⟩
    rw [Wp, settle_eq cfg v hnow, ← Wp, wp_ite]
    refine ⟨fun _ => ?_, fun _ => ⟨hdone w hfound.fids hwriting.holding, rfl⟩⟩
    rw [Config.flush, wp_ite]
    refine ⟨fun _ => ?_, fun _ => ⟨hdone w hfound.fids hwriting.holding, rfl⟩⟩
    have hsave := hwriting.holding.save hback hwriting.bound hnow
    refine (hsave.and (SameFids.save hfound.fids now)).mono (fun _ w' hw' => ?_) fun _ _ he => he.1
    exact ⟨hdone w' hw'.2 hw'.1.1, rfl⟩
  refine follows_bind hgrow fun m _ hm => ?_
  rw [hm]
  exact hsettle

omit hat in
theorem minds_finishTask {f : Fid V} (hf : f.vfs = v ∧ f.path = p) {tested}
    (h : Tested v p r offset m tested) :
    Minds cfg v p w₀ offset data (fun m _ => m = .acked) m
      (cfg.finishTask offset data r f tested) := by
  cases tested with
  | inl wr =>
    obtain ⟨rfl, hoffset⟩ := h
    unfold Config.finishTask
    rw [hf.1]
    exact follows_bind (minds_appendTask hback hoffset) fun m _ hm => follows_pure hm
  | inr pending =>
    unfold Config.finishTask
    refine follows_bind (minds_closeTask hback h) fun m _ hm => ?_
    rw [hm, hf.1, hf.2]
    have hread : Minds cfg v p w₀ offset data (fun m cur => m = .copied cur) .idle
        (.atom .read (cfg.readBytes v p)) := by
      refine minds_atom Mode.copied ⟨rfl, rfl⟩ fun o c w hfound halone => ?_
      obtain ⟨ho, hfree⟩ := halone.1 rfl
      have hholding : Holding cfg v p c w := Held.holding hfound.held ho
      rw [wp_readBytes]
      refine ⟨.inl ⟨(fun h => by cases h), ⟨hfound.fids, fun _ => ho, ?_⟩⟩, rfl⟩
      exact ⟨hholding.unowned hfree, hholding.bare hfree, hholding⟩
    have hwrite : ∀ cur, Minds cfg v p w₀ offset data (fun m _ => m = .acked) (.copied cur)
        (.atom .write (cfg.writeBytes v p (Config.overlay cur offset data))) := by
      intro cur
      refine minds_atom (fun _ => .acked) ⟨rfl, rfl⟩ fun o c w hfound _ => ?_
      obtain ⟨rfl, hbare, -⟩ : cur = c ∧ Bare v p w ∧ Holding cfg v p c w := hfound.held
      refine wp_call cfg v _ (fun d hd => ?_) fun _ _ => trivial
      have hbare' : Bare v p (w.setDisk v d) := ⟨hbare.unowned, hbare.idle⟩
      have hholding : Holding cfg v p (Config.overlay cur offset data) (w.setDisk v d) :=
        hbare'.holding (by
          rw [setDisk_disk_self]
          exact hback _ _ _ hd)
      refine ⟨.inr ?_, rfl⟩
      exact ⟨hfound.fids.setDisk v d, fun hfalse => (Bool.false_ne_true hfalse).elim,
        hholding.held (hfound.one rfl)⟩
    refine follows_bind hread fun m cur hm => ?_
    rw [hm]
    exact follows_bind (hwrite cur) fun m _ hm => follows_pure hm

theorem minds_reopenTask (f : Fid V) :
    Minds cfg v p w₀ offset data (fun m _ => m = .idle) .idle (cfg.reopenTask offset r f) := by
  have hstat : Minds cfg v p w₀ offset data (fun m _ => m = .idle ∧ True) .idle
      (.atom .stat (cfg.stat f.vfs f.path)) :=
    minds_quiet ⟨rfl, rfl⟩ fun w _ =>
      wp_stat cfg _ _ (fun _ _ => ⟨rfl, trivial⟩) fun _ _ => trivial
  have hsize : ∀ found, Minds cfg v p w₀ offset data (fun m _ => m = .idle ∧ True) .idle
      (.atom .stat (Config.twrite.sizeOrZero cfg f.vfs found)) := by
    intro found
    refine minds_quiet ⟨rfl, rfl⟩ fun w _ => ?_
    cases found with
    | none => exact ⟨rfl, trivial⟩
    | some rec =>
      obtain ⟨n, hn, -⟩ := sizeOf_run cfg f.vfs rec w
      change Wp (cfg.sizeOf f.vfs rec) _ _ w
      rw [Wp, hn]
      exact ⟨rfl, trivial⟩
  unfold Config.reopenTask
  refine follows_bind hstat fun m found hm => ?_
  rw [hm.1]
  refine follows_bind (hsize found) fun m size hm => ?_
  rw [hm.1]
  by_cases heq : offset = size
  · rw [if_pos heq]
    exact minds_openTask hback hat
  · rw [if_neg heq]
    exact follows_pure rfl

/-- A Twrite through a fid of the file. -/
theorem minds_twriteTask {cid fid : ℕ} (hr : ref w₀ cid fid = some r) :
    Minds cfg v p w₀ offset data (fun m _ => m = .acked) .idle
      (cfg.twriteTask offset data cid fid) := by
  have hstart : Minds cfg v p w₀ offset data (fun m a => a.1 = r ∧ Pending v p m a.2) .idle
      (.atom .start (do
        let r ← cfg.getFid cid fid
        return (r, ← Config.takeConflict r))) := by
    refine minds_atom (fun a => .ofPending a.2) ⟨rfl, rfl⟩ fun o c w hfound halone => ?_
    rw [wp_bind]
    refine wp_getFid cfg cid fid (fun r' hr' => ?_) fun _ => trivial
    rw [hfound.fids.ref_eq, hr] at hr'
    cases hr'
    rw [wp_bind]
    refine (hfound.conflict (halone.2 rfl) (hfound.fids.at_iff.mpr hat)).mono
      (fun pending w' hw' => ?_) fun _ _ he => he
    exact ⟨.inl ⟨ofPending_unwritten pending _, hw'.1⟩, rfl, hw'.2⟩
  have hresume : Minds cfg v p w₀ offset data (fun m a => (a.1.vfs = v ∧ a.1.path = p) ∧
      match a.2 with
      | none => m = .idle
      | some tested => Tested v p r offset m tested) .idle
      (.atom .table (cfg.resume offset r)) := by
    refine minds_atom (fun a => (a.2.map (.ofTested r)).getD .idle) ⟨rfl, rfl⟩
      fun o c w hfound halone => ?_
    have hat' := hfound.fids.at_iff.mpr hat
    unfold Config.resume
    rw [wp_bind, wp_fidAt, wp_ite]
    refine ⟨fun _ => ⟨.inl ⟨id, hfound⟩, hat', rfl⟩, fun _ => ?_⟩
    rw [wp_bind]
    refine (hfound.testSize hat data (halone.2 rfl)).mono (fun tested w' hw' => ?_) fun _ _ he => he
    exact ⟨hw'.1, hat', hw'.2⟩
  unfold Config.twriteTask
  refine follows_bind hstart fun m a ha => ?_
  obtain ⟨r', pending⟩ := a
  obtain ⟨rfl, hpending⟩ := ha
  refine follows_bind (minds_closeTask hback hpending) fun m _ hm => ?_
  rw [hm]
  refine follows_bind hresume fun m a ha => ?_
  obtain ⟨f, _ | tested⟩ := a
  · obtain ⟨hf, hidle⟩ := ha
    simp only at hidle
    rw [hidle]
    refine follows_bind (minds_reopenTask hback hat f) fun m _ hm => ?_
    rw [hm]
    have htest : Minds cfg v p w₀ offset data (Tested v p r' offset) .idle
        (.atom .table (Config.testSize offset r')) :=
      minds_atom (Mode.ofTested r') ⟨rfl, rfl⟩ fun o c w hfound halone =>
        hfound.testSize hat data (halone.2 rfl)
    exact follows_bind htest fun m tested h => minds_finishTask hback hf h
  · exact minds_finishTask hback ha.1 ha.2

end Tasks

end Sharing

section Pools

variable {ι : Type} [DecidableEq ι] {cfg : Config V σ} {v : V} {p : Path}

structure WriteRequest where
  cid : ℕ
  fid : ℕ
  offset : ℕ
  data : List UInt8

/-- The requests as the device starts them. -/
def Config.inflight (cfg : Config V σ) (requests : ι → WriteRequest) (w : World V σ) :
    World V σ × (ι → Async V σ Body) :=
  (w, fun i => cfg.twriteTask (requests i).offset (requests i).data (requests i).cid
    (requests i).fid)

/-- The file is only read, for a read-modify-write or a new writer, while no other request
has bytes of it in hand and no writer is open on it, and a writer is only looked at while no
other request writes to one. -/
def Apart (v : V) (p : Path) (system : World V σ × (ι → Async V σ Body)) (i : ι) : Prop :=
  ((system.2 i).label.any Await.observes = true → system.1.owners (v, p) = none ∧
    ∀ j, j ≠ i → (system.2 j).label.any Await.holds = false) ∧
  ((system.2 i).label.any Await.tests = true →
    ∀ j, j ≠ i → (system.2 j).label.any Await.appends = false)

instance [Fintype ι] (system : World V σ × (ι → Async V σ Body)) (i : ι) :
    Decidable (Apart v p system i) :=
  inferInstanceAs (Decidable ((_ → _ ∧ ∀ j, j ≠ i → _) ∧ (_ → ∀ j, j ≠ i → _)))

/-- A running pool over a file that holds `c`. -/
structure Pool (cfg : Config V σ) (v : V) (p : Path) (requests : ι → WriteRequest) (w₀ : World V σ)
    (modes : ι → Mode) (c : List UInt8) (system : World V σ × (ι → Async V σ Body)) : Prop where
  minds : ∀ i, Minds cfg v p w₀ (requests i).offset (requests i).data (fun m _ => m = .acked)
    (modes i) (system.2 i)
  fids : SameFids w₀ system.1
  one : ∀ i j, (modes i).holds = true → (modes j).holds = true → i = j
  held : ∀ i, (modes i).holds = true → Held cfg v p c system.1 (modes i)
  free : (∀ i, (modes i).holds = false) → Holding cfg v p c system.1
  written : ∀ i, (modes i).written = true → Contains c (requests i).offset (requests i).data

variable {requests : ι → WriteRequest} {w₀ : World V σ} {modes : ι → Mode} {c : List UInt8}
  {system : World V σ × (ι → Async V σ Body)}

omit [DecidableEq V] in
/-- The request beside `i` that has bytes in hand, if there is one. -/
theorem Pool.exists_other (h : Pool cfg v p requests w₀ modes c system) (i : ι) :
    ∃ o, (∀ j, j ≠ i → (modes j).holds = true → o = modes j) ∧
      (o.holds = true → ∃ j, j ≠ i ∧ (modes j).holds = true) ∧
      Found cfg v p w₀ (modes i) o c system.1 := by
  by_cases hother : ∃ j, j ≠ i ∧ (modes j).holds = true
  · obtain ⟨j, hj, hholds⟩ := hother
    have hidle : (modes i).holds = false := by
      by_contra hi
      exact hj (h.one j i hholds (Bool.not_eq_false _ ▸ hi))
    refine ⟨modes j, fun k _ hk => by rw [h.one j k hholds hk], fun _ => ⟨j, hj, hholds⟩, h.fids,
      fun hi => absurd hi (by rw [hidle]; exact Bool.false_ne_true), ?_⟩
    rw [hidle]
    exact h.held j hholds
  · have hidle : ∀ j, j ≠ i → (modes j).holds = false := by
      intro j hj
      by_contra hholds
      exact hother ⟨j, hj, Bool.not_eq_false _ ▸ hholds⟩
    refine ⟨.idle, fun j hj hholds => absurd hholds (by rw [hidle j hj]; exact Bool.false_ne_true),
      fun hfalse => (Bool.false_ne_true hfalse).elim, h.fids, fun _ => rfl, ?_⟩
    by_cases hi : (modes i).holds = true
    · rw [if_pos hi]
      exact h.held i hi
    · rw [if_neg hi]
      refine h.free fun j => ?_
      by_cases hj : j = i
      · rw [hj]
        exact Bool.not_eq_true _ ▸ hi
      · exact hidle j hj

omit [DecidableEq V] [DecidableEq ι] in
/-- What a request is about to do fits its mode. -/
theorem Pool.label_fits (h : Pool cfg v p requests w₀ modes c system)
    (halive : ∀ i e, system.2 i ≠ .fail e) {j : ι} (hholds : (modes j).holds = true) :
    ∃ label, (system.2 j).label = some label ∧ Fits (modes j) label := by
  have hminds := h.minds j
  cases htask : system.2 j with
  | fail e => exact absurd htask (halive j e)
  | ret a =>
    rw [htask] at hminds
    have hacked : modes j = .acked := hminds
    rw [hacked] at hholds
    cases hholds
  | step label effect next =>
    rw [htask] at hminds
    exact ⟨label, rfl, hminds.1⟩

/-- The ranges of any two requests are disjoint. -/
def DisjointRanges (requests : ι → WriteRequest) : Prop :=
  ∀ i j, i ≠ j → (requests i).offset + (requests i).data.length ≤ (requests j).offset ∨
    (requests j).offset + (requests j).data.length ≤ (requests i).offset

omit [DecidableEq V] in
/-- The pool after request `i` did what it owes. -/
theorem Pool.update (h : Pool cfg v p requests w₀ modes c system)
    (hranges : DisjointRanges requests)
    {i : ι} {m o : Mode} (hbeside : ∀ j, j ≠ i → (modes j).holds = true → o = modes j)
    (hother : o.holds = true → ∃ j, j ≠ i ∧ (modes j).holds = true)
    {system' : World V σ × (ι → Async V σ Body)}
    (hmoves : Moves cfg v p w₀ (requests i).offset (requests i).data o c (modes i) m system'.1)
    (hminds : ∀ j, Minds cfg v p w₀ (requests j).offset (requests j).data (fun m _ => m = .acked)
      (Function.update modes i m j) (system'.2 j)) :
    ∃ c', Pool cfg v p requests w₀ (Function.update modes i m) c' system' := by
  -- the new contents, and what they keep of the writes
  obtain ⟨c', hfound, hwritten⟩ : ∃ c', Found cfg v p w₀ m o c' system'.1 ∧
      ∀ j, (Function.update modes i m j).written = true →
        Contains c' (requests j).offset (requests j).data := by
    rcases hmoves with ⟨hm, hfound⟩ | hfound
    · refine ⟨c, hfound, fun j hj => h.written j ?_⟩
      by_cases heq : j = i
      · rw [heq, Function.update_self] at hj
        rw [heq]
        exact hm hj
      · rwa [Function.update_of_ne heq] at hj
    · refine ⟨_, hfound, fun j hj => ?_⟩
      by_cases heq : j = i
      · rw [heq]
        exact contains_overlay ..
      · rw [Function.update_of_ne heq] at hj
        exact (h.written j hj).overlay (hranges j i heq)
  have hexcl : ∀ j, j ≠ i → (modes j).holds = true → m.holds = false := by
    intro j hj hholds
    by_contra hm
    have hidle := hfound.one (Bool.not_eq_false _ ▸ hm)
    rw [hbeside j hj hholds, hholds] at hidle
    cases hidle
  refine ⟨c', hminds, hfound.fids, fun j k hj hk => ?_, fun j hj => ?_, fun hidle => ?_, hwritten⟩
  · by_cases hji : j = i
    · by_cases hki : k = i
      · rw [hji, hki]
      · rw [hji, Function.update_self] at hj
        rw [Function.update_of_ne hki] at hk
        rw [hexcl k hki hk] at hj
        cases hj
    · rw [Function.update_of_ne hji] at hj
      by_cases hki : k = i
      · rw [hki, Function.update_self, hexcl j hji hj] at hk
        cases hk
      · rw [Function.update_of_ne hki] at hk
        exact h.one j k hj hk
  · have hheld := hfound.held
    by_cases hji : j = i
    · rw [hji, Function.update_self] at hj ⊢
      rwa [if_pos hj] at hheld
    · rw [Function.update_of_ne hji] at hj ⊢
      rw [hexcl j hji hj, hbeside j hji hj] at hheld
      exact hheld
  · have hheld := hfound.held
    have hm := hidle i
    rw [Function.update_self] at hm
    rw [hm] at hheld
    refine Held.holding hheld ?_
    by_contra ho
    obtain ⟨j, hj, hholds⟩ := hother (Bool.not_eq_false _ ▸ ho)
    have hjidle := hidle j
    rw [Function.update_of_ne hj, hholds] at hjidle
    cases hjidle

/-- Some request failed, or the pool goes on. -/
def Pooled (cfg : Config V σ) (v : V) (p : Path) (requests : ι → WriteRequest) (w₀ : World V σ)
    (system : World V σ × (ι → Async V σ Body)) : Prop :=
  (∃ i e, system.2 i = .fail e) ∨ ∃ modes c, Pool cfg v p requests w₀ modes c system

omit [DecidableEq V] in
theorem Pooled.turn (hranges : DisjointRanges requests)
    (h : Pooled cfg v p requests w₀ system) {i : ι}
    (hapart : Apart v p system i) : Pooled cfg v p requests w₀ (turn system i) := by
  by_cases hfailed : ∃ i e, system.2 i = .fail e
  · obtain ⟨j, e, hj⟩ := hfailed
    exact .inl ⟨j, e, turn_fail hj⟩
  have halive : ∀ i e, system.2 i ≠ .fail e := fun i e hi => hfailed ⟨i, e, hi⟩
  obtain ⟨modes, c, hpool⟩ := h.resolve_left hfailed
  obtain ⟨o, hbeside, hother, hfound⟩ := hpool.exists_other i
  have halone : ∀ label, (system.2 i).label = some label → Alone v p label o system.1 := by
    intro label hlabel
    refine ⟨fun hobserves => ?_, fun htests => ?_⟩
    · obtain ⟨hfree, hothers⟩ := hapart.1 (by rw [hlabel]; exact hobserves)
      refine ⟨?_, hfree⟩
      by_contra ho
      obtain ⟨j, hj, hholds⟩ := hother (Bool.not_eq_false _ ▸ ho)
      obtain ⟨label', hlabel', hfits⟩ := hpool.label_fits halive hholds
      have hnone := hothers j hj
      rw [hlabel', Option.any_some, hfits.1, hholds] at hnone
      cases hnone
    · have hothers := hapart.2 (by rw [hlabel]; exact htests)
      by_contra ho
      have happends : o.appends = true := Bool.not_eq_false _ ▸ ho
      obtain ⟨j, hj, hholds⟩ := hother (holds_of_appends happends)
      obtain ⟨label', hlabel', hfits⟩ := hpool.label_fits halive hholds
      have hnone := hothers j hj
      rw [hlabel', Option.any_some, hfits.2, ← hbeside j hj hholds, happends] at hnone
      cases hnone
  rcases follows_turn hpool.minds (i := i) fun label hlabel =>
    ⟨o, c, hfound, halone label hlabel⟩ with
    hfail | hsame | ⟨label, m, hlabel, howe, hminds⟩
  · exact .inl hfail
  · rw [hsame]
    exact h
  · obtain ⟨c', hpool'⟩ := hpool.update hranges hbeside hother
      (howe o c hfound (halone label hlabel)) hminds
    exact .inr ⟨_, c', hpool'⟩

/-- In every interleaving in which nobody reads the file while another request has bytes of
it in hand or a writer is open on it, every acknowledged write is in the file. -/
theorem inflight_writes_kept (cfg : Config V σ) (v : V) (p : Path)
    (hback : ReadsBack (cfg.backend v) p) (w : World V σ) (c : List UInt8)
    (hholding : Holding cfg v p c w) (requests : ι → WriteRequest)
    (hfids : ∀ i, ∃ r, ref w (requests i).cid (requests i).fid = some r ∧ At v p r w)
    (hranges : DisjointRanges requests) (schedule : List ι)
    (hapart : Along (Apart v p) turn (cfg.inflight requests w) schedule)
    (hacked : ∀ i, ((run turn (cfg.inflight requests w) schedule).2 i).value ≠ none) (i : ι) :
    Contains (cfg.contents (run turn (cfg.inflight requests w) schedule).1 v p)
      (requests i).offset (requests i).data := by
  have hstart : Pooled cfg v p requests w (cfg.inflight requests w) := by
    refine .inr ⟨fun _ => .idle, c, fun i => ?_, SameFids.refl w, fun i j hi => ?_,
      fun i hi => ?_, fun _ => hholding, fun i hi => ?_⟩
    · obtain ⟨r, hr, hat⟩ := hfids i
      exact minds_twriteTask hback hat hr
    · cases hi
    · cases hi
    · cases hi
  have hend := run_along _ (fun _ _ h => h.turn hranges) schedule hstart hapart
  rcases hend with ⟨j, e, hj⟩ | ⟨modes, c', hpool⟩
  · exact absurd (by rw [hj]; rfl) (hacked j)
  have hmodes : ∀ j, modes j = .acked := by
    intro j
    have hminds := hpool.minds j
    have hvalue := hacked j
    cases htask : (run turn (cfg.inflight requests w) schedule).2 j with
    | ret a =>
      rw [htask] at hminds
      exact hminds
    | fail e =>
      rw [htask] at hvalue
      exact absurd rfl hvalue
    | step label effect next =>
      rw [htask] at hvalue
      exact absurd rfl hvalue
  rw [(hpool.free fun j => by rw [hmodes j]; rfl).contents_eq]
  exact hpool.written i (by rw [hmodes i]; rfl)

end Pools

section TwoWrites

theorem directory_readsBack (name : Component) : ReadsBack directory [name] := by
  intro s bytes t hwrite
  cases hwrite
  simp [Backend.readBytes, directory, JsMap.get_set_self, Entry.ofRecord, Entry.bytes]

/-- Fids 1 and 2 are bound to the empty file "a". -/
def sharedFile : World Unit Directory :=
  { emptyWorld with
    conns := JsMap.empty.set 0 ⟨65536, ((JsMap.empty.set 0 0).set 1 1).set 2 2⟩
    heap := fun r => ⟨if r = 0 then [] else [nameA], (), false, none, none, none⟩
    next := 3
    disk := fun _ => JsMap.empty.set nameA (.file []) }

/-- One byte at offset 0 through fid 1, and one at offset 1 through fid 2. -/
def twoWrites : Bool → WriteRequest
  | false => ⟨0, 1, 0, [0x78]⟩
  | true => ⟨0, 2, 1, [0x79]⟩

theorem sharedFile_holding (cfg : Config Unit Directory) (hdirectory : cfg.backend () = directory) :
    Holding cfg () [nameA] [] sharedFile := by
  refine ⟨fun o ho => ?_, fun _ => ?_, fun r _ _ hne => absurd rfl hne⟩
  · cases ho
  · rw [hdirectory]
    decide +kernel

/-- The second write through its own writer, opened after the first one's was closed. -/
theorem inflight_writes_kept_appends :
    let system := oneDirectory.inflight twoWrites sharedFile
    let schedule := List.replicate 11 false ++ List.replicate 12 true
    Along (Apart () [nameA]) turn system schedule ∧
      ∀ i, Contains (oneDirectory.contents (run turn system schedule).1 () [nameA])
        (twoWrites i).offset (twoWrites i).data := by
  have hapart : Along (Apart () [nameA]) turn (oneDirectory.inflight twoWrites sharedFile)
      (List.replicate 11 false ++ List.replicate 12 true) := by
    decide +kernel
  refine ⟨hapart, inflight_writes_kept oneDirectory () [nameA] (directory_readsBack _)
    sharedFile [] (sharedFile_holding _ rfl) twoWrites ?_ ?_ _ hapart ?_⟩
  · rintro (_ | _)
    · exact ⟨1, by decide +kernel, rfl, rfl⟩
    · exact ⟨2, by decide +kernel, rfl, rfl⟩
  · unfold DisjointRanges
    decide +kernel
  · decide +kernel

/-- Both requests read the empty file before either writes it back: the first byte is
acknowledged and gone. -/
theorem inflight_write_lost :
    let system := oneDirectory.plain.inflight twoWrites sharedFile
    let schedule := [false, false, false, true, true, true, false, true]
    (∀ i, ((run turn system schedule).2 i).value ≠ none) ∧ DisjointRanges twoWrites ∧
      ¬ Contains (oneDirectory.plain.contents (run turn system schedule).1 () [nameA])
        (twoWrites false).offset (twoWrites false).data := by
  refine ⟨by decide +kernel, ?_, ?_⟩
  · unfold DisjointRanges
    decide +kernel
  · unfold Contains
    decide +kernel

end TwoWrites

end NixWasm.NinepServer
