import NixWasm.NinepStreaming

/-!
Whole runs of the server, with and without `openWrite`, from a world without fids. When
every request is admitted and every fid is gone at the end, the two backends show the
same contents. The last part runs the server over a one-directory backend.
-/
namespace NixWasm.NinepServer

open Unicode Vfs NinepCodec Runs

variable {V σ : Type} [DecidableEq V]

/-- No connection, no fid object with a writer, no claim on a file. -/
structure Fresh (w : World V σ) : Prop where
  conns : w.conns = JsMap.empty
  idle : ∀ r, (w.heap r).writer = none ∧ (w.heap r).writerPath = none
  owners : ∀ k, w.owners k = none

/-- The streaming world after a request, unless the request is not admitted. -/
def Config.watch (cfg : Config V σ) (w : World V σ) (request : ℕ × List UInt8) :
    Option (World V σ) :=
  match decode request.2 with
  | none => some (cfg.serve w request)
  | some m => if admits cfg w request.1 m.body then some (cfg.serve w request) else none

variable {cfg : Config V σ}

omit [DecidableEq V] in
theorem sim_fresh {w : World V σ} (h : Fresh w) : Sim cfg w w where
  conns := rfl
  next := rfl
  path _ := rfl
  vfs _ := rfl
  plain := h.idle
  unowned := h.owners
  fresh r _ := (h.idle r).1
  allocated cid c fid r hc := by
    rw [h.conns] at hc
    cases hc
  idle r _ := (h.idle r).2
  owned r wr hw := by
    rw [(h.idle r).1] at hw
    cases hw
  owner v p r ho := by
    rw [h.owners] at ho
    cases ho
  bound r wr hw := by
    rw [(h.idle r).1] at hw
    cases hw
  streams r wr hw := by
    rw [(h.idle r).1] at hw
    cases hw
  holds r wr hw := by
    rw [(h.idle r).1] at hw
    cases hw
  same _ _ _ := rfl

theorem after_handle (k : Config V σ) (cid : ℕ) (frame : List UInt8) (w : World V σ) :
    k.serve w (cid, frame) = match decode frame with
      | none => w
      | some m => after (k.dispatch cid m.body w) := by
  unfold Config.serve Config.handle
  simp only
  cases decode frame with
  | none => rfl
  | some m =>
    simp only [EStateM.run]
    cases k.dispatch cid m.body w <;> rfl

/-- One admitted request on both sides. -/
theorem Sim.serve (hv : ∀ v, (cfg.backend v).Lawful) (s t : World V σ) (request : ℕ × List UInt8)
    (s' : World V σ) (h : Sim cfg s t) (hwatch : cfg.watch s request = some s') :
    Sim cfg s' (cfg.plain.serve t request) := by
  obtain ⟨cid, frame⟩ := request
  have hserve := after_handle cfg cid frame s
  have hserve' := after_handle cfg.plain cid frame t
  unfold Config.watch at hwatch
  simp only at hwatch
  cases hdecode : decode frame with
  | none =>
    simp only [hdecode] at hwatch hserve hserve'
    cases hwatch
    rw [hserve, hserve']
    exact h
  | some m =>
    simp only [hdecode] at hwatch hserve hserve'
    by_cases hadmits : admits cfg s cid m.body = true
    · rw [if_pos hadmits] at hwatch
      cases hwatch
      rw [hserve, hserve']
      exact h.dispatch hv cid m.body hadmits
    · rw [if_neg hadmits] at hwatch
      cases hwatch

/-- An admitted run ends in the world the server reaches. -/
theorem monitor_watch (requests : List (ℕ × List UInt8)) : ∀ {w w' : World V σ},
    monitor cfg.watch w requests = some w' → w' = run cfg.serve w requests := by
  induction requests with
  | nil =>
    intro w w' h
    exact (Option.some.inj h).symm
  | cons request requests ih =>
    intro w w' h
    obtain ⟨w₁, hwatch, hrest⟩ := Option.bind_eq_some_iff.mp h
    have hstep : w₁ = cfg.serve w request := by
      unfold Config.watch at hwatch
      split at hwatch
      · exact (Option.some.inj hwatch).symm
      · split at hwatch
        · exact (Option.some.inj hwatch).symm
        · cases hwatch
    rw [run_cons, ← hstep]
    exact ih hrest

/-- Streamed writes and read-modify-write leave the same contents once no fid is bound. -/
theorem streamed_look_eq (cfg : Config V σ) (hv : ∀ v, (cfg.backend v).Lawful) (w : World V σ)
    (hw : Fresh w)
    (requests : List (ℕ × List UInt8))
    (hadmits : (monitor cfg.watch w requests).isSome = true)
    (hdone : ∀ cid fid, ref (run cfg.serve w requests) cid fid = none) (v : V) (p : Path) :
    (cfg.backend v).look ((run cfg.serve w requests).disk v) p =
      (cfg.backend v).look ((run cfg.plain.serve w requests).disk v) p := by
  obtain ⟨w', hmonitor⟩ := Option.isSome_iff_exists.mp hadmits
  have hend : w' = run cfg.serve w requests := monitor_watch requests hmonitor
  have hsim : Sim cfg w' (run cfg.plain.serve w requests) :=
    run_monitored cfg.plain.serve cfg.watch (Sim cfg)
      (fun s t e s' h hwatch => h.serve hv s t e s' hwatch) requests (sim_fresh hw) hmonitor
  rw [hend] at hsim
  apply hsim.same
  rintro r ⟨wr, hwriter, -⟩
  obtain ⟨cid, c, fid, hc, hfid⟩ := hsim.bound r wr hwriter
  have hnone := hdone cid fid
  simp only [ref, hc, Option.bind_some, hfid] at hnone
  cases hnone

/-! A backend with files and links in one directory. -/

inductive Entry
  | file (bytes : List UInt8)
  | link (target : Utf16)
deriving DecidableEq

abbrev Directory := JsMap Component Entry

def Entry.node : Entry → Node
  | .file bytes => .file bytes
  | .link target => .alias target []

def Entry.bytes : Entry → List UInt8
  | .file bytes => bytes
  | .link _ => []

def Entry.record (name : Component) : Entry → VfsRecord
  | .file bytes => ⟨none, .file, name.1, [name], none, some bytes.length, none⟩
  | .link target => ⟨none, .alias, name.1, [name], none, none, some target⟩

def Entry.ofRecord : VfsWriteRecord → Entry
  | .file blob => .file blob
  | .alias target => .link target

def directory : Backend Directory where
  stat s p := .ok (match p with
    | [] => some ⟨none, .folder, [], [], none, none, none⟩
    | [name] => (s.get name).map (Entry.record name)
    | _ => none)
  list s p := match p with
    | [] => .ok (s.entries.map fun e => e.2.record e.1)
    | _ => .error (.code .enotdir)
  readBlob s p := match p with
    | [] => .error (.code .eisdir)
    | [name] => match s.get name with
      | some e => .ok e.bytes
      | none => .error (.code .enoent)
    | _ => .error (.code .enoent)
  write s p record := match p with
    | [] => .error (.code .eisdir)
    | [name] => .ok (s.set name (Entry.ofRecord record))
    | _ => .error (.code .enotdir)
  mkdir s p := match p with
    | [] => .ok s
    | _ => .error (.code .eperm)
  remove s p := match p with
    | [] => .error (.code .enotempty)
    | [name] => match s.get name with
      | some _ => .ok (s.delete name)
      | none => .error (.code .enoent)
    | _ => .error (.code .enoent)
  move s src dst := match src, dst with
    | [a], [b] => match s.get a with
      | some e => .ok ((s.delete a).set b e)
      | none => .error (.code .enoent)
    | _, _ => .error (.code .enoent)
  isWritablePath _ := true

theorem directory_look (s : Directory) (p : Path) : directory.look s p = .ok (match p with
    | [] => some .folder
    | [name] => (s.get name).map Entry.node
    | _ => none) := by
  unfold Backend.look
  rcases p with _ | ⟨name, _ | ⟨next, rest⟩⟩
  · rfl
  · simp only [directory, Except.map]
    cases hget : s.get name with
    | none => rfl
    | some e => cases e <;> simp [Entry.record, Entry.node, Backend.node, Backend.readBytes, hget,
        Entry.bytes]
  · rfl

theorem Entry.node_injective : Function.Injective Entry.node := by
  intro a b h
  cases a <;> cases b <;> simp_all [Entry.node]

theorem directory_leaf (s : Directory) (p : Path) :
    directory.isLeaf s p ↔ ∃ name e, p = [name] ∧ s.get name = some e := by
  rw [Backend.isLeaf_iff]
  constructor
  · rintro ⟨n, hlook, hn⟩
    rw [directory_look] at hlook
    rcases p with _ | ⟨name, _ | ⟨next, rest⟩⟩
    · cases hlook
      cases hn
    · obtain ⟨e, he, -⟩ := Option.map_eq_some_iff.mp (Except.ok.inj hlook)
      exact ⟨name, e, rfl, he⟩
    · cases hlook
  · rintro ⟨name, e, rfl, he⟩
    refine ⟨e.node, ?_, by cases e <;> rfl⟩
    simp only [directory_look, he, Option.map_some]

/-- After a change of one name everything else shows as before. -/
theorem directory_look_set (s : Directory) (name : Component) (e : Entry) (q : Path) :
    directory.look (s.set name e) q = if q = [name] then .ok (some e.node)
      else directory.look s q := by
  rw [directory_look, directory_look]
  rcases q with _ | ⟨n, _ | ⟨next, rest⟩⟩
  · simp
  · by_cases hn : n = name
    · subst hn
      simp [JsMap.get_set_self]
    · simp [JsMap.get_set_of_ne _ _ hn, hn]
  · simp

theorem directory_look_delete (s : Directory) (name : Component) (q : Path) :
    directory.look (s.delete name) q = if q = [name] then .ok none else directory.look s q := by
  rw [directory_look, directory_look]
  rcases q with _ | ⟨n, _ | ⟨next, rest⟩⟩
  · simp
  · by_cases hn : n = name
    · subst hn
      simp [JsMap.get_delete_self]
    · simp [JsMap.get_delete_of_ne _ hn, hn]
  · simp

/-- A call either fails whatever the files are, or names files and acts on these alone. -/
theorem directory_apply (c : Call) :
    (∃ e, ∀ t, directory.apply t c = .error e) ∨ c = .mkdir [] ∨
      (∃ name record, c = .write [name] record) ∨ (∃ name, c = .remove [name]) ∨
      ∃ a b, c = .move [a] [b] := by
  cases c with
  | write p record =>
    rcases p with _ | ⟨name, _ | ⟨next, rest⟩⟩
    · exact Or.inl ⟨_, fun _ => rfl⟩
    · exact Or.inr (Or.inr (Or.inl ⟨name, record, rfl⟩))
    · exact Or.inl ⟨_, fun _ => rfl⟩
  | mkdir p =>
    cases p with
    | nil => exact Or.inr (Or.inl rfl)
    | cons name rest => exact Or.inl ⟨_, fun _ => rfl⟩
  | remove p =>
    rcases p with _ | ⟨name, _ | ⟨next, rest⟩⟩
    · exact Or.inl ⟨_, fun _ => rfl⟩
    · exact Or.inr (Or.inr (Or.inr (Or.inl ⟨name, rfl⟩)))
    · exact Or.inl ⟨_, fun _ => rfl⟩
  | move src dst =>
    rcases src with _ | ⟨a, _ | ⟨a', as⟩⟩
    · exact Or.inl ⟨_, fun _ => rfl⟩
    · rcases dst with _ | ⟨b, _ | ⟨b', bs⟩⟩
      · exact Or.inl ⟨_, fun _ => rfl⟩
      · exact Or.inr (Or.inr (Or.inr (Or.inr ⟨a, b, rfl⟩)))
      · exact Or.inl ⟨_, fun _ => rfl⟩
    · exact Or.inl ⟨_, fun _ => rfl⟩

/-- A file that is removed or moved is there on both sides, as the same entry. -/
theorem directory_get_eq {s t : Directory} {name : Component}
    (h : directory.look s [name] = directory.look t [name]) : s.get name = t.get name := by
  rw [directory_look, directory_look] at h
  exact Option.map_injective Entry.node_injective (Except.ok.inj h)

theorem directory_keep (s : Directory) (c : Call) (t : Directory) (q : Path)
    (hc : directory.apply s c = .ok t) (hq : ∀ p ∈ c.replaced, ¬ p <+: q) :
    directory.look t q = directory.look s q := by
  have hne : ∀ name, [name] ∈ c.replaced → q ≠ [name] := by
    rintro name hname rfl
    exact hq _ hname (List.prefix_refl _)
  rcases directory_apply c with ⟨e, herror⟩ | rfl | ⟨name, record, rfl⟩ | ⟨name, rfl⟩ | ⟨a, b, rfl⟩
  · rw [herror] at hc
    cases hc
  · cases hc
    rfl
  · cases hc
    rw [directory_look_set, if_neg (hne name (by simp [Call.replaced]))]
  · cases hget : s.get name with
    | none => simp [Backend.apply, directory, hget] at hc
    | some e =>
      simp only [Backend.apply, directory, hget, Except.ok.injEq] at hc
      subst hc
      rw [directory_look_delete, if_neg (hne name (by simp [Call.replaced]))]
  · cases hget : s.get a with
    | none => simp [Backend.apply, directory, hget] at hc
    | some e =>
      simp only [Backend.apply, directory, hget, Except.ok.injEq] at hc
      subst hc
      rw [directory_look_set, if_neg (hne b (by simp [Call.replaced])), directory_look_delete,
        if_neg (hne a (by simp [Call.replaced]))]

theorem directory_frame (P : Path → Prop) (s t : Directory) (c : Call)
    (hclear : ∀ p ∈ c.replaced, ∀ q, P q → ¬ p <+: q) (h : directory.Agree P s t) :
    Backend.Alike (directory.Agree P) (directory.apply s c) (directory.apply t c) := by
  -- files of `P` are kept by `directory_keep`; only the named files are left to compare
  have hnamed : ∀ name, [name] ∈ c.replaced → directory.look s [name] = directory.look t [name] :=
    fun name hname => h.1 _ fun hP => hclear _ hname _ hP (List.prefix_refl _)
  have hagree : ∀ s' t', directory.apply s c = .ok s' → directory.apply t c = .ok t' →
      (∀ p, ¬ P p → directory.look s' p = directory.look t' p) → directory.Agree P s' t' := by
    intro s' t' hs ht hlook
    refine ⟨hlook, fun p hp => ?_⟩
    have hkeep : ∀ q ∈ c.replaced, ¬ q <+: p := fun q hq => hclear q hq p hp
    rw [Backend.isLeaf_congr (directory_keep s c s' p hs hkeep),
      Backend.isLeaf_congr (directory_keep t c t' p ht hkeep)]
    exact h.2 p hp
  rcases directory_apply c with ⟨e, herror⟩ | rfl | ⟨name, record, rfl⟩ | ⟨name, rfl⟩ | ⟨a, b, rfl⟩
  · rw [herror, herror]
    trivial
  · exact h
  · refine hagree _ _ rfl rfl fun p hp => ?_
    rw [directory_look_set, directory_look_set, h.1 p hp]
  · have hget := directory_get_eq (hnamed name (by simp [Call.replaced]))
    cases he : t.get name with
    | none =>
      simp only [Backend.apply, directory, hget, he]
      trivial
    | some e =>
      have hs : directory.apply s (.remove [name]) = .ok (s.delete name) := by
        simp [Backend.apply, directory, hget, he]
      have ht : directory.apply t (.remove [name]) = .ok (t.delete name) := by
        simp [Backend.apply, directory, he]
      rw [hs, ht]
      refine hagree _ _ hs ht fun p hp => ?_
      rw [directory_look_delete, directory_look_delete, h.1 p hp]
  · have hget := directory_get_eq (hnamed a (by simp [Call.replaced]))
    cases he : t.get a with
    | none =>
      simp only [Backend.apply, directory, hget, he]
      trivial
    | some e =>
      have hs : directory.apply s (.move [a] [b]) = .ok ((s.delete a).set b e) := by
        simp [Backend.apply, directory, hget, he]
      have ht : directory.apply t (.move [a] [b]) = .ok ((t.delete a).set b e) := by
        simp [Backend.apply, directory, he]
      rw [hs, ht]
      refine hagree _ _ hs ht fun p hp => ?_
      rw [directory_look_set, directory_look_set, directory_look_delete, directory_look_delete,
        h.1 p hp]

theorem directory_lawful : directory.Lawful where
  stat_found s p := ⟨_, rfl⟩
  readBlob_leaf s p := by
    rw [directory_leaf]
    rcases p with _ | ⟨name, _ | ⟨next, rest⟩⟩
    · simp [directory]
    · cases hget : s.get name with
      | none => simp [directory, hget]
      | some e => simp [directory, hget]
    · simp [directory]
  below_folder s p q n hprefix hne hlook := by
    rw [directory_look] at hlook
    rcases q with _ | ⟨name, _ | ⟨next, rest⟩⟩
    · exact absurd (List.prefix_nil.mp hprefix) hne
    · rcases p with _ | ⟨first, rest⟩
      · rfl
      · obtain ⟨rfl, hrest⟩ := List.cons_prefix_cons.mp hprefix
        rw [List.prefix_nil.mp hrest] at hne
        exact absurd rfl hne
    · cases hlook
  write_leaf s p bytes hleaf _ := by
    obtain ⟨name, e, rfl, he⟩ := (directory_leaf s p).mp hleaf
    refine ⟨s.set name (.file bytes), rfl, ?_, fun q hq => ?_⟩
    · rw [directory_look_set, if_pos rfl]
      rfl
    · rw [directory_look_set, if_neg hq]
  write_refused s p bytes hrefused := by cases hrefused
  write_shows s p bytes t hroot hwrite := by
    rcases p with _ | ⟨name, _ | ⟨next, rest⟩⟩
    · exact absurd rfl hroot
    · cases hwrite
      rw [directory_look_set, if_pos rfl]
      rfl
    · cases hwrite
  keep s c t q hc _ hq := directory_keep s c t q hc hq
  frame P s t c hclear h := directory_frame P s t c hclear h

omit [DecidableEq V] in
theorem no_fids {w : World V σ} (h : (w.conns.values.all fun c => c.fids.entries.isEmpty) = true)
    (cid fid : ℕ) : ref w cid fid = none := by
  unfold ref
  cases hc : w.conns.get cid with
  | none => rfl
  | some c =>
    have hempty := List.all_eq_true.mp h c (JsMap.mem_values_of_get hc)
    simp [JsMap.get, List.isEmpty_iff.mp hempty]

/-- A server with one directory, whose writers keep their bytes until they are closed. -/
def oneDirectory : Config Unit Directory :=
  ⟨65536, 0, 0, [(ofString "/", ⟨(), []⟩)], fun _ => directory, fun _ => true, fun _ _ => false⟩

def emptyWorld : World Unit Directory :=
  ⟨JsMap.empty, fun _ => ⟨[], (), false, none, none, none⟩, 0, fun _ => none, fun _ => none, 1,
    65536, fun _ => JsMap.empty⟩

/-- The component "a". -/
def nameA : Component := ⟨ofString "a", by decide⟩

def frame (body : Body) : ℕ × List UInt8 := (0, encode ⟨some 1, body⟩)

/-- A file is created and written through fid 1 and read back through fid 2, which also
appends to it; then all fids are clunked. -/
def appendRun : List (ℕ × List UInt8) :=
  [frame (.tattach 0 0xffffffff (ofString "u") (ofString "/") 0), frame (.twalk 0 1 []),
    frame (.tlcreate 1 (ofString "a") 0 0o644 0), frame (.twrite 1 0 [0x78, 0x79]),
    frame (.twalk 0 2 [ofString "a"]), frame (.tlopen 2 0), frame (.twrite 2 2 [0x7a]),
    frame (.twrite 1 3 [0x21]), frame (.tclunk 1), frame (.tclunk 2), frame (.tclunk 0)]

theorem streamed_look_eq_append :
    directory.look ((run oneDirectory.serve emptyWorld appendRun).disk ()) [nameA] =
        directory.look ((run oneDirectory.plain.serve emptyWorld appendRun).disk ()) [nameA] ∧
      directory.look ((run oneDirectory.serve emptyWorld appendRun).disk ()) [nameA] =
        .ok (some (.file [0x78, 0x79, 0x7a, 0x21])) := by
  refine ⟨streamed_look_eq oneDirectory (fun _ => directory_lawful) emptyWorld
    ⟨rfl, fun _ => ⟨rfl, rfl⟩, fun _ => rfl⟩ appendRun ?_ (no_fids ?_) () _, ?_⟩
  · decide +kernel
  · decide +kernel
  · decide +kernel

/-- Fid 1 is bound again while its writer holds an acknowledged write. -/
def rebindRun : List (ℕ × List UInt8) :=
  [frame (.tattach 0 0xffffffff (ofString "u") (ofString "/") 0), frame (.twalk 0 1 []),
    frame (.tlcreate 1 (ofString "a") 0 0o644 0), frame (.twrite 1 0 [0x78, 0x79]),
    frame (.twalk 0 1 []), frame (.tclunk 1), frame (.tclunk 0)]

theorem rebound_writer_lost :
    (∀ cid fid, ref (run oneDirectory.serve emptyWorld rebindRun) cid fid = none) ∧
      directory.look ((run oneDirectory.serve emptyWorld rebindRun).disk ()) [nameA] =
        .ok (some (.file [])) ∧
      directory.look ((run oneDirectory.plain.serve emptyWorld rebindRun).disk ()) [nameA] =
        .ok (some (.file [0x78, 0x79])) := by
  refine ⟨no_fids ?_, ?_, ?_⟩
  · decide +kernel
  · decide +kernel
  · decide +kernel

end NixWasm.NinepServer
