import NixWasm.Effects
import NixWasm.NinepServer

/-!
Running a handler. A handler that only reads the backends leaves everything as it was,
except for interned qids and what an open fid keeps for reading.
-/
namespace NixWasm.NinepServer

open Unicode Vfs NinepCodec Effects

variable {V σ : Type} [DecidableEq V]

/-- The world a handler leaves, whether or not it throws. -/
def after {α : Type} : EStateM.Result Fault (World V σ) α → World V σ
  | .ok _ w => w
  | .error _ w => w

omit [DecidableEq V] in
theorem bind_ok {α β : Type} {x : Handler V σ α} {f : α → Handler V σ β} {w w' : World V σ}
    {a : α} (h : x w = .ok a w') : (x >>= f) w = f a w' := by
  change EStateM.bind x f w = f a w'
  simp only [EStateM.bind, h]

omit [DecidableEq V] in
theorem bind_error {α β : Type} {x : Handler V σ α} {f : α → Handler V σ β} {w w' : World V σ}
    {e : Fault} (h : x w = .error e w') : (x >>= f) w = .error e w' := by
  change EStateM.bind x f w = .error e w'
  simp only [EStateM.bind, h]

omit [DecidableEq V] in
theorem after_map {α β : Type} (x : Handler V σ α) (f : α → β) (w : World V σ) :
    after ((x >>= fun a => pure (f a)) w) = after (x w) := by
  cases h : x w with
  | ok a w' =>
    rw [bind_ok h]
    rfl
  | error e w' =>
    rw [bind_error h]
    rfl

omit [DecidableEq V] in
theorem catch_ok {α : Type} {x : Handler V σ α} {f : Fault → Handler V σ α} {w w' : World V σ}
    {a : α} (h : x w = .ok a w') : tryCatch x f w = .ok a w' := by
  change EStateM.tryCatch x f w = .ok a w'
  simp only [EStateM.tryCatch, h]

omit [DecidableEq V] in
theorem catch_error {α : Type} {x : Handler V σ α} {f : Fault → Handler V σ α}
    {w w' : World V σ} {e : Fault} (h : x w = .error e w') : tryCatch x f w = f e w' := by
  change EStateM.tryCatch x f w = f e w'
  simp only [EStateM.tryCatch, EStateM.Backtrackable.restore, EStateM.dummyRestore, h]

omit [DecidableEq V] in
theorem stat_ok (cfg : Config V σ) {w : World V σ} {v : V} {p : Path} {found : Option VfsRecord}
    (h : (cfg.backend v).stat (w.disk v) p = .ok found) : cfg.stat v p w = .ok found w := by
  simp only [Config.stat, run_bind, run_get, h]
  rfl

omit [DecidableEq V] in
theorem stat_error (cfg : Config V σ) {w : World V σ} {v : V} {p : Path} {e : Fault}
    (h : (cfg.backend v).stat (w.disk v) p = .error e) : cfg.stat v p w = .error e w := by
  simp only [Config.stat, run_bind, run_get, h]
  rfl

omit [DecidableEq V] in
theorem lift_ok {α : Type} (a : α) (w : World V σ) :
    (Config.lift (.ok a) : Handler V σ α) w = .ok a w := rfl

omit [DecidableEq V] in
theorem lift_error {α : Type} (e : Fault) (w : World V σ) :
    (Config.lift (.error e) : Handler V σ α) w = .error e w := rfl

omit [DecidableEq V] in
theorem fidAt_eq (r : Ref) (w : World V σ) :
    (Config.fidAt r : Handler V σ (Fid V)) w = .ok (w.heap r) w := rfl

omit [DecidableEq V] in
theorem modifyFid_eq (r : Ref) (f : Fid V → Fid V) (w : World V σ) :
    (Config.modifyFid r f : Handler V σ Unit) w =
      .ok () { w with heap := Function.update w.heap r (f (w.heap r)) } := rfl

section Reading

/-- The worlds differ at most in interned qids and in what fids keep for reading. -/
structure SameCore (w w' : World V σ) : Prop where
  conns : w'.conns = w.conns
  next : w'.next = w.next
  owners : w'.owners = w.owners
  disk : w'.disk = w.disk
  path : ∀ r, (w'.heap r).path = (w.heap r).path
  vfs : ∀ r, (w'.heap r).vfs = (w.heap r).vfs
  writer : ∀ r, (w'.heap r).writer = (w.heap r).writer
  writerPath : ∀ r, (w'.heap r).writerPath = (w.heap r).writerPath

/-- The handler only reads the backends. -/
def CoreFixed {α : Type} (x : Handler V σ α) : Prop := ∀ w, SameCore w (after (x w))

omit [DecidableEq V]

theorem SameCore.refl (w : World V σ) : SameCore w w :=
  ⟨rfl, rfl, rfl, rfl, fun _ => rfl, fun _ => rfl, fun _ => rfl, fun _ => rfl⟩

theorem SameCore.trans {w₁ w₂ w₃ : World V σ} (h : SameCore w₁ w₂) (h' : SameCore w₂ w₃) :
    SameCore w₁ w₃ where
  conns := h'.conns.trans h.conns
  next := h'.next.trans h.next
  owners := h'.owners.trans h.owners
  disk := h'.disk.trans h.disk
  path r := (h'.path r).trans (h.path r)
  vfs r := (h'.vfs r).trans (h.vfs r)
  writer r := (h'.writer r).trans (h.writer r)
  writerPath r := (h'.writerPath r).trans (h.writerPath r)

theorem coreFixed_pure {α : Type} (a : α) : CoreFixed (pure a : Handler V σ α) :=
  fun w => SameCore.refl w

theorem coreFixed_throw {α : Type} (e : Fault) : CoreFixed (throw e : Handler V σ α) :=
  fun w => SameCore.refl w

theorem coreFixed_bind {α β : Type} {x : Handler V σ α} {f : α → Handler V σ β}
    (hx : CoreFixed x) (hf : ∀ a, CoreFixed (f a)) : CoreFixed (x >>= f) := by
  intro w
  have hfirst := hx w
  cases h : x w with
  | ok a w' =>
    rw [bind_ok h]
    rw [h] at hfirst
    exact hfirst.trans (hf a w')
  | error e w' =>
    rw [bind_error h]
    rw [h] at hfirst
    exact hfirst

theorem coreFixed_get : CoreFixed (get : Handler V σ (World V σ)) := fun w => SameCore.refl w

theorem coreFixed_mapM {α β : Type} {f : α → Handler V σ β} (hf : ∀ a, CoreFixed (f a))
    (as : List α) : CoreFixed (as.mapM f) := by
  induction as with
  | nil => exact coreFixed_pure []
  | cons a as ih =>
    rw [List.mapM_cons]
    exact coreFixed_bind (hf a) fun b => coreFixed_bind ih fun bs => coreFixed_pure _

/-- A change of a fid object that keeps its path, its backend and its writer. -/
theorem coreFixed_modifyFid (r : Ref) (f : Fid V → Fid V)
    (hf : ∀ c, (f c).path = c.path ∧ (f c).vfs = c.vfs ∧ (f c).writer = c.writer ∧
      (f c).writerPath = c.writerPath) : CoreFixed (Config.modifyFid r f : Handler V σ Unit) := by
  intro w
  have hcell : ∀ r', Function.update w.heap r (f (w.heap r)) r' = w.heap r' ∨
      Function.update w.heap r (f (w.heap r)) r' = f (w.heap r') := by
    intro r'
    by_cases hr : r' = r
    · subst hr
      exact Or.inr (Function.update_self ..)
    · exact Or.inl (Function.update_of_ne hr ..)
  refine ⟨rfl, rfl, rfl, rfl, ?_, ?_, ?_, ?_⟩ <;> intro r' <;>
    rcases hcell r' with h | h <;>
    simp only [after, Config.modifyFid, run_modify, h, hf]

theorem coreFixed_qidPathFor (inode : Utf16) :
    CoreFixed (Config.qidPathFor inode : Handler V σ ℕ) := by
  refine coreFixed_bind coreFixed_get fun w => ?_
  split
  · exact coreFixed_pure _
  · refine coreFixed_bind coreFixed_get fun w => coreFixed_bind ?_ fun _ => coreFixed_pure _
    intro w
    exact ⟨rfl, rfl, rfl, rfl, fun _ => rfl, fun _ => rfl, fun _ => rfl, fun _ => rfl⟩

theorem coreFixed_qidOf (rec : VfsRecord) : CoreFixed (Config.qidOf rec : Handler V σ Qid) :=
  coreFixed_bind (coreFixed_qidPathFor _) fun _ => coreFixed_pure _

theorem coreFixed_created (found : Option VfsRecord) :
    CoreFixed (Config.created found : Handler V σ VfsRecord) := by
  cases found with
  | none => exact coreFixed_throw _
  | some rec => exact coreFixed_pure rec

variable (cfg : Config V σ)

theorem coreFixed_stat (v : V) (p : Path) : CoreFixed (cfg.stat v p) := by
  refine coreFixed_bind coreFixed_get fun w => ?_
  split
  · exact coreFixed_pure _
  · exact coreFixed_throw _

theorem coreFixed_list (v : V) (p : Path) : CoreFixed (cfg.list v p) := by
  refine coreFixed_bind coreFixed_get fun w => ?_
  split
  · exact coreFixed_pure _
  · exact coreFixed_throw _

theorem coreFixed_sizeOf (v : V) (rec : VfsRecord) : CoreFixed (cfg.sizeOf v rec) := by
  unfold Config.sizeOf
  split
  · exact coreFixed_pure _
  · exact coreFixed_pure _
  · split
    · exact coreFixed_pure _
    · exact coreFixed_bind coreFixed_get fun _ => coreFixed_pure _

theorem coreFixed_readBytes (v : V) (p : Path) : CoreFixed (cfg.readBytes v p) :=
  coreFixed_bind coreFixed_get fun _ => coreFixed_pure _

theorem coreFixed_fidAt (r : Ref) : CoreFixed (Config.fidAt r : Handler V σ (Fid V)) :=
  coreFixed_bind coreFixed_get fun _ => coreFixed_pure _

theorem coreFixed_loadDirents (v : V) (dir : Path) : CoreFixed (cfg.loadDirents v dir) := by
  refine coreFixed_bind (coreFixed_stat cfg v dir) fun found => ?_
  split
  · exact coreFixed_throw _
  · refine coreFixed_bind (coreFixed_stat cfg v _) fun _ =>
      coreFixed_bind (coreFixed_list cfg v dir) fun _ => coreFixed_mapM ?_ _
    intro e
    exact coreFixed_bind (coreFixed_qidOf _) fun _ => coreFixed_pure _

end Reading

end NixWasm.NinepServer
