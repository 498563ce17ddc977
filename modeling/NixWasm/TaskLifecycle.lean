import NixWasm.KernelHost

/-!
The life of a task, seen by the kernel host. The scheduler's own steps keep its tasks
apart and its CPUs busy, and the table follows them: a task on a CPU is marked running,
and the mark of a suspended task, or what became of the worker of a dead one, tells how
the task was last switched away from.
-/
namespace NixWasm.KernelHost

open Effects Runs

section Scheduling

variable {s s' : Scheduler}

theorem mem_live {t : Task} : t ∈ s.live ↔ t ∈ s.current ∨ t ∈ s.suspended := List.mem_append

theorem mem_all {t : Task} : t ∈ s.all ↔ t ∈ s.live ∨ t ∈ s.gone := List.mem_append

theorem mem_switch_current {prev next t : Task} {stale : Bool} :
    t ∈ (s.switch prev next stale).current ↔
      t = { next with cpu := prev.cpu } ∨ t ∈ s.current ∧ t.id ≠ prev.id := by
  simp [Scheduler.switch]

theorem mem_switch_suspended {prev next t : Task} {stale : Bool} :
    t ∈ (s.switch prev next stale).suspended ↔
      prev.released = false ∧ t = { prev with stale := stale } ∨
        t ∈ s.suspended ∧ t.id ≠ next.id := by
  cases hr : prev.released <;> simp [Scheduler.switch, hr]

theorem mem_switch_gone {prev next t : Task} {stale : Bool} :
    t ∈ (s.switch prev next stale).gone ↔
      prev.released = true ∧ t = { prev with stale := stale } ∨ t ∈ s.gone := by
  cases hr : prev.released <;> simp [Scheduler.switch, hr]

/-- Tasks are told apart by their ids while they live, and by their workers for ever; a
CPU runs one task, and a suspended task's CPU is busy. -/
structure Proper (s : Scheduler) : Prop where
  ids : ∀ t ∈ s.live, ∀ t' ∈ s.live, t.id = t'.id → t = t'
  apart : ∀ t ∈ s.current, t ∉ s.suspended
  workers : ∀ t ∈ s.all, ∀ t' ∈ s.all, t.worker = t'.worker → t = t'
  buried : ∀ t ∈ s.live, t ∉ s.gone
  created : ∀ t ∈ s.all, t.worker < s.created
  cpus : ∀ t ∈ s.current, ∀ t' ∈ s.current, t.cpu = t'.cpu → t = t'
  homes : ∀ t ∈ s.suspended, ∃ t' ∈ s.current, t'.cpu = t.cpu
  unreleased : ∀ t ∈ s.suspended, t.released = false

/-- What a switch needs: the previous task is on a CPU, and the next one is suspended or
new. -/
structure CanSwitch (s : Scheduler) (prev next : Task) : Prop where
  running : prev ∈ s.current
  waiting : next ∈ s.suspended ∨
    (∀ t ∈ s.live, t.id ≠ next.id) ∧ ∀ t ∈ s.all, t.worker ≠ next.worker
  made : next.worker < s.created
  unreleased : next.released = false

theorem CanSwitch.ids_ne (hs : Proper s) {prev next : Task} (h : CanSwitch s prev next) :
    prev.id ≠ next.id := by
  intro heq
  have hprev : prev ∈ s.live := mem_live.mpr (Or.inl h.running)
  rcases h.waiting with hnext | ⟨hnew, -⟩
  · have hsame := hs.ids prev hprev next (mem_live.mpr (Or.inr hnext)) heq
    exact hs.apart prev h.running (hsame ▸ hnext)
  · exact hnew prev hprev heq

theorem Proper.switch (hs : Proper s) {prev next : Task} (h : CanSwitch s prev next)
    (stale : Bool) : Proper (s.switch prev next stale) := by
  have hne := h.ids_ne hs
  obtain ⟨hids, hapart, hworkers, hburied, hcreated, hcpus, hhomes, hunreleased⟩ := hs
  obtain ⟨hprev, hnext, hmade, hreleased⟩ := h
  simp only [mem_live, mem_all] at hids hworkers hburied hcreated hnext
  constructor
  · intro t ht t' ht' heq
    simp only [mem_live, mem_switch_current, mem_switch_suspended] at ht ht'
    grind
  · intro t ht ht'
    simp only [mem_switch_current, mem_switch_suspended] at ht ht'
    grind
  · intro t ht t' ht' heq
    simp only [mem_all, mem_live, mem_switch_current, mem_switch_suspended,
      mem_switch_gone] at ht ht'
    grind
  · intro t ht ht'
    simp only [mem_live, mem_switch_current, mem_switch_suspended, mem_switch_gone] at ht ht'
    grind
  · intro t ht
    simp only [mem_all, mem_live, mem_switch_current, mem_switch_suspended, mem_switch_gone] at ht
    change t.worker < s.created
    grind
  · intro t ht t' ht' heq
    simp only [mem_switch_current] at ht ht'
    grind
  · intro t ht
    simp only [mem_switch_suspended] at ht
    -- the CPU of a suspended task goes on with `next` or with the task it runs
    rcases ht with ⟨-, rfl⟩ | ⟨ht, -⟩
    · exact ⟨_, mem_switch_current.mpr (Or.inl rfl), rfl⟩
    · obtain ⟨t', ht', hcpu⟩ := hhomes t ht
      by_cases heq : t'.id = prev.id
      · have hsame := hids t' (Or.inl ht') prev (Or.inl hprev) heq
        exact ⟨_, mem_switch_current.mpr (Or.inl rfl), by rw [← hcpu, hsame]⟩
      · exact ⟨t', mem_switch_current.mpr (Or.inr ⟨ht', heq⟩), hcpu⟩
  · intro t ht
    simp only [mem_switch_suspended] at ht
    grind

/-- No task is lost in a switch. -/
theorem Proper.mem_all_switch (hs : Proper s) {prev next : Task} (h : CanSwitch s prev next)
    (stale : Bool) {t : Task} (ht : t ∈ s.all) :
    ∃ t' ∈ (s.switch prev next stale).all, t'.id = t.id ∧ t'.worker = t.worker := by
  simp only [mem_all, mem_live, mem_switch_current, mem_switch_suspended, mem_switch_gone]
  rcases mem_all.mp ht with hlive | hgone
  · by_cases hprev : t.id = prev.id
    · have hsame := hs.ids t hlive prev (mem_live.mpr (Or.inl h.running)) hprev
      refine ⟨{ prev with stale := stale }, ?_, hprev.symm, by rw [hsame]⟩
      cases prev.released <;> simp
    · by_cases hnext : t.id = next.id
      · rcases h.waiting with hwaiting | ⟨hnew, -⟩
        · have hsame := hs.ids t hlive next (mem_live.mpr (Or.inr hwaiting)) hnext
          exact ⟨{ next with cpu := prev.cpu }, by simp, hnext.symm, by rw [hsame]⟩
        · exact absurd hnext (hnew t hlive)
      · rcases mem_live.mp hlive with hcurrent | hsuspended
        · exact ⟨t, Or.inl (Or.inl (Or.inr ⟨hcurrent, hprev⟩)), rfl, rfl⟩
        · exact ⟨t, Or.inl (Or.inr (Or.inr ⟨hsuspended, hnext⟩)), rfl, rfl⟩
  · exact ⟨t, Or.inr (Or.inr hgone), rfl, rfl⟩

/-- The scheduler with one more CPU. -/
def Scheduler.boot (s : Scheduler) (cpu idle : ℕ) : Scheduler :=
  { s with
    current := ⟨idle, s.created, cpu, false, false⟩ :: s.current
    created := s.created + 1 }

theorem mem_boot_current {cpu idle : ℕ} {t : Task} : t ∈ (s.boot cpu idle).current ↔
    t = ⟨idle, s.created, cpu, false, false⟩ ∨ t ∈ s.current := by
  simp [Scheduler.boot]

theorem Proper.boot (hs : Proper s) {cpu idle : ℕ} (hcpu : ∀ t ∈ s.current, t.cpu ≠ cpu)
    (hidle : ∀ t ∈ s.live, t.id ≠ idle) : Proper (s.boot cpu idle) := by
  obtain ⟨hids, hapart, hworkers, hburied, hcreated, hcpus, hhomes, hunreleased⟩ := hs
  simp only [mem_live, mem_all] at hids hworkers hburied hcreated hidle
  have hsuspended : (s.boot cpu idle).suspended = s.suspended := rfl
  have hgone : (s.boot cpu idle).gone = s.gone := rfl
  constructor
  · intro t ht t' ht' heq
    simp only [mem_live, mem_boot_current, hsuspended] at ht ht'
    grind
  · intro t ht ht'
    simp only [mem_boot_current, hsuspended] at ht ht'
    grind
  · intro t ht t' ht' heq
    simp only [mem_all, mem_live, mem_boot_current, hsuspended, hgone] at ht ht'
    grind
  · intro t ht ht'
    simp only [mem_live, mem_boot_current, hsuspended, hgone] at ht ht'
    grind
  · intro t ht
    simp only [mem_all, mem_live, mem_boot_current, hsuspended, hgone] at ht
    change t.worker < s.created + 1
    grind
  · intro t ht t' ht' heq
    simp only [mem_boot_current] at ht ht'
    grind
  · intro t ht
    obtain ⟨t', ht', hsame⟩ := hhomes t ht
    exact ⟨t', mem_boot_current.mpr (Or.inr ht'), hsame⟩
  · exact hunreleased

/-- The scheduler after it released a task that is on a CPU. -/
def Scheduler.mark (s : Scheduler) (dead : ℕ) : Scheduler :=
  { s with current := s.current.map fun t =>
      if t.id = dead then { t with released := true } else t }

/-- The scheduler after it released a task that was suspended. -/
def Scheduler.bury (s : Scheduler) (dead : Task) : Scheduler :=
  { s with
    suspended := s.suspended.filter fun t => t.id ≠ dead.id
    gone := { dead with released := true } :: s.gone }

theorem mem_mark_current {dead : ℕ} {t : Task} : t ∈ (s.mark dead).current ↔
    ∃ t₀ ∈ s.current, t = if t₀.id = dead then { t₀ with released := true } else t₀ := by
  simp only [Scheduler.mark, List.mem_map, eq_comm]

theorem mem_bury_suspended {dead t : Task} :
    t ∈ (s.bury dead).suspended ↔ t ∈ s.suspended ∧ t.id ≠ dead.id := by
  simp [Scheduler.bury]

theorem mem_bury_gone {dead t : Task} :
    t ∈ (s.bury dead).gone ↔ t = { dead with released := true } ∨ t ∈ s.gone := by
  simp [Scheduler.bury]

theorem Proper.mark (hs : Proper s) (dead : ℕ) : Proper (s.mark dead) := by
  obtain ⟨hids, hapart, hworkers, hburied, hcreated, hcpus, hhomes, hunreleased⟩ := hs
  simp only [mem_live, mem_all] at hids hworkers hburied hcreated
  have hsuspended : (s.mark dead).suspended = s.suspended := rfl
  have hgone : (s.mark dead).gone = s.gone := rfl
  constructor
  · intro t ht t' ht' heq
    simp only [mem_live, mem_mark_current, hsuspended] at ht ht'
    grind
  · intro t ht ht'
    simp only [mem_mark_current, hsuspended] at ht ht'
    grind
  · intro t ht t' ht' heq
    simp only [mem_all, mem_live, mem_mark_current, hsuspended, hgone] at ht ht'
    grind
  · intro t ht ht'
    simp only [mem_live, mem_mark_current, hsuspended, hgone] at ht ht'
    grind
  · intro t ht
    simp only [mem_all, mem_live, mem_mark_current, hsuspended, hgone] at ht
    change t.worker < s.created
    grind
  · intro t ht t' ht' heq
    simp only [mem_mark_current] at ht ht'
    grind
  · intro t ht
    obtain ⟨t', ht', hcpu⟩ := hhomes t ht
    refine ⟨_, mem_mark_current.mpr ⟨t', ht', rfl⟩, ?_⟩
    split
    · exact hcpu
    · exact hcpu
  · exact hunreleased

theorem Proper.bury (hs : Proper s) {dead : Task} (hdead : dead ∈ s.suspended) :
    Proper (s.bury dead) := by
  obtain ⟨hids, hapart, hworkers, hburied, hcreated, hcpus, hhomes, hunreleased⟩ := hs
  simp only [mem_live, mem_all] at hids hworkers hburied hcreated
  have hcurrent : (s.bury dead).current = s.current := rfl
  constructor
  · intro t ht t' ht' heq
    simp only [mem_live, mem_bury_suspended, hcurrent] at ht ht'
    grind
  · intro t ht ht'
    simp only [mem_bury_suspended, hcurrent] at ht ht'
    grind
  · intro t ht t' ht' heq
    simp only [mem_all, mem_live, mem_bury_suspended, mem_bury_gone, hcurrent] at ht ht'
    grind
  · intro t ht ht'
    simp only [mem_live, mem_bury_suspended, mem_bury_gone, hcurrent] at ht ht'
    grind
  · intro t ht
    simp only [mem_all, mem_live, mem_bury_suspended, mem_bury_gone, hcurrent] at ht
    change t.worker < s.created
    grind
  · exact hcpus
  · intro t ht
    exact hhomes t (mem_bury_suspended.mp ht).1
  · intro t ht
    exact hunreleased t (mem_bury_suspended.mp ht).1

theorem find_task {tasks : List Task} {id : ℕ} {t : Task}
    (h : tasks.find? (fun t => t.id = id) = some t) : t ∈ tasks ∧ t.id = id := by
  have hid := List.find?_some h
  exact ⟨List.mem_of_find?_eq_some h, of_decide_eq_true hid⟩

/-- What the scheduler can do, with the message it sends. -/
theorem watch_cases {message : Message} (h : watch s message = some s') :
    (∃ cpu idle, message = .startCpu cpu idle ∧ cpu ∉ s.current.map Task.cpu ∧
      idle ∉ s.live.map Task.id ∧ s' = s.boot cpu idle) ∨
    (∃ prev ∈ s.current, ∃ new, message = .createAndRunTask prev.id new ∧
      new ∉ s.live.map Task.id ∧ s' = { s with created := s.created + 1 }.switch prev
        ⟨new, s.created, prev.cpu, false, false⟩ true) ∨
    (∃ prev ∈ s.current, ∃ next ∈ s.suspended, message = .serializeTasks prev.id next.id ∧
      s' = s.switch prev next false) ∨
    (∃ dead ∈ s.current, message = .releaseTask dead.id ∧ dead.released = false ∧
      s' = s.mark dead.id) ∨
    (∃ dead ∈ s.suspended, message = .releaseTask dead.id ∧ s' = s.bury dead) := by
  cases message with
  | startCpu cpu idleTask =>
    simp only [watch] at h
    split at h
    · cases h
    · rename_i hnew
      exact Or.inl ⟨cpu, idleTask, rfl, fun hc => hnew (Or.inl hc), fun hi => hnew (Or.inr hi),
        (Option.some.inj h).symm⟩
  | createAndRunTask prevTask newTask =>
    simp only [watch] at h
    split at h
    · cases h
    · rename_i prev hprev
      obtain ⟨hmem, rfl⟩ := find_task hprev
      split at h
      · cases h
      · rename_i hnew
        exact Or.inr <| Or.inl ⟨prev, hmem, newTask, rfl, hnew, (Option.some.inj h).symm⟩
  | serializeTasks prevTask nextTask =>
    simp only [watch] at h
    split at h
    · rename_i prev next hprev hnext
      obtain ⟨hmem, rfl⟩ := find_task hprev
      obtain ⟨hmem', rfl⟩ := find_task hnext
      exact Or.inr <| Or.inr (Or.inl ⟨prev, hmem, next, hmem', rfl, (Option.some.inj h).symm⟩)
    · cases h
  | releaseTask deadTask =>
    simp only [watch] at h
    split at h
    · rename_i dead hdead
      obtain ⟨hmem, rfl⟩ := find_task hdead
      split at h
      · cases h
      · rename_i hreleased
        exact Or.inr <| Or.inr (Or.inr (Or.inl ⟨dead, hmem, rfl, by simpa using hreleased,
          (Option.some.inj h).symm⟩))
    · split at h
      · rename_i dead hdead
        obtain ⟨hmem, rfl⟩ := find_task hdead
        exact Or.inr <| Or.inr (Or.inr (Or.inr ⟨dead, hmem, rfl, (Option.some.inj h).symm⟩))
      · cases h

end Scheduling

section Tracking

variable {s s' : Scheduler} {h : Host}

/-- How the table stands to the scheduler. The mark of a suspended task tells how it was
switched away from; so does, for a task that is gone, whether its worker was ended. -/
structure Tracks (s : Scheduler) (h : Host) : Prop extends Proper s where
  current : ∀ t ∈ s.current, ∃ r, h.tasks.get t.id = some r ∧ r.worker = t.worker ∧
    r.running = true ∧ r.kill = t.released
  suspended : ∀ t ∈ s.suspended, ∃ r, h.tasks.get t.id = some r ∧ r.worker = t.worker ∧
    r.running = t.stale ∧ r.kill = false
  dead : ∀ t ∈ s.gone, t.stale = false →
    t.worker ∈ h.terminated ∧ ∀ id r, h.tasks.get id = some r → r.worker ≠ t.worker
  leaked : ∀ t ∈ s.gone, t.stale = true → t.worker ∉ h.terminated
  alive : ∀ t ∈ s.live, t.worker ∉ h.terminated
  entries : ∀ id r, h.tasks.get id = some r → ∃ t ∈ s.all, t.id = id ∧ t.worker = r.worker
  made : s.created = h.workers
  ended : ∀ worker ∈ h.terminated, worker < h.workers

theorem Tracks.create (ht : Tracks s h) {prev : Task} (hprev : prev ∈ s.current) {new : ℕ}
    (hnew : new ∉ s.live.map Task.id) :
    Tracks ({ s with created := s.created + 1 }.switch prev
      ⟨new, s.created, prev.cpu, false, false⟩ true)
      (receive h (.createAndRunTask prev.id new)) := by
  rw [receive_create]
  have hnew' : ∀ t ∈ s.live, t.id ≠ new := fun t hmem heq => hnew (heq ▸ List.mem_map_of_mem hmem)
  have hgrown : Proper { s with created := s.created + 1 } :=
    ⟨ht.ids, ht.apart, ht.workers, ht.buried, fun t hmem => Nat.lt_succ_of_lt (ht.created t hmem),
      ht.cpus, ht.homes, ht.unreleased⟩
  have hcan : CanSwitch { s with created := s.created + 1 } prev
      ⟨new, s.created, prev.cpu, false, false⟩ :=
    ⟨hprev, Or.inr ⟨hnew', fun t hmem => Nat.ne_of_lt (ht.created t hmem)⟩, Nat.lt_succ_self _, rfl⟩
  have hget := add_get h new
  have hterminated : (h.add new).terminated = h.terminated := rfl
  obtain ⟨-, hcurrent, hsuspended, hdead, hleaked, halive, hentries, hmade, hended⟩ := id ht
  simp only [mem_live] at hnew' halive
  refine ⟨hgrown.switch hcan true, ?_, ?_, ?_, ?_, ?_, ?_, ?_, ?_⟩
  · intro t hmem
    rw [hget]
    simp only [mem_switch_current] at hmem
    grind
  · intro t hmem
    rw [hget]
    simp only [mem_switch_suspended] at hmem
    grind
  · intro t hmem hstale
    have hbefore := ht.created
    simp only [mem_switch_gone] at hmem
    simp only [mem_all, mem_live] at hbefore
    grind
  · intro t hmem hstale
    simp only [mem_switch_gone] at hmem
    grind
  · intro t hmem
    simp only [mem_live, mem_switch_current, mem_switch_suspended] at hmem
    grind
  · intro id r hr
    rw [hget] at hr
    by_cases heq : id = new
    · rw [if_pos heq] at hr
      cases hr
      exact ⟨_, mem_all.mpr (Or.inl (mem_live.mpr (Or.inl (mem_switch_current.mpr (Or.inl rfl))))),
        heq.symm, hmade⟩
    · rw [if_neg heq] at hr
      obtain ⟨t, hmem, hid, hworker⟩ := hentries id r hr
      obtain ⟨t', hmem', hid', hworker'⟩ := hgrown.mem_all_switch hcan true hmem
      exact ⟨t', hmem', hid'.trans hid, hworker'.trans hworker⟩
  · change s.created + 1 = h.workers + 1
    rw [hmade]
  · intro worker hmem
    exact Nat.lt_succ_of_lt (hended worker hmem)

/-- The table after a switch between two tasks of the scheduler. -/
theorem Tracks.serialize_get (ht : Tracks s h) {prev next : Task} (hprev : prev ∈ s.current)
    (hnext : next ∈ s.suspended) :
    ∃ rp rn, h.tasks.get prev.id = some rp ∧ rp.worker = prev.worker ∧ rp.kill = prev.released ∧
      h.tasks.get next.id = some rn ∧ rn.worker = next.worker ∧ rn.kill = false ∧
      (∀ id, (receive h (.serializeTasks prev.id next.id)).tasks.get id =
        if id = next.id then some { rn with lastTask := prev.id, running := true }
        else if id = prev.id then
          if prev.released then none else some { rp with running := false }
        else h.tasks.get id) ∧
      (receive h (.serializeTasks prev.id next.id)).terminated =
        (if prev.released then [prev.worker] else []) ++ h.terminated ∧
      (receive h (.serializeTasks prev.id next.id)).workers = h.workers := by
  obtain ⟨rp, hrp, hpworker, hprunning, hpkill⟩ := ht.current prev hprev
  obtain ⟨rn, hrn, hnworker, hnrunning, hnkill⟩ := ht.suspended next hnext
  have hne : prev.id ≠ next.id :=
    CanSwitch.ids_ne ht.toProper ⟨hprev, Or.inl hnext, ht.created next
      (mem_all.mpr (Or.inl (mem_live.mpr (Or.inr hnext)))), ht.unreleased next hnext⟩
  refine ⟨rp, rn, hrp, hpworker, hpkill, hrn, hnworker, hnkill, ?_⟩
  rw [receive_serialize hne hrp hrn]
  cases hreleased : prev.released with
  | true =>
    rw [if_pos (hpkill.trans hreleased)]
    refine ⟨fun id => ?_, by rw [hpworker]; rfl, rfl⟩
    by_cases heq : id = prev.id
    · rw [heq, JsMap.get_delete_self, if_neg hne, if_pos rfl, if_pos rfl]
    · rw [JsMap.get_delete_of_ne _ heq, switched_get]
      simp only [if_neg heq]
  | false =>
    have hkill : ¬ rp.kill = true := by simp [hpkill, hreleased]
    rw [if_neg hkill]
    exact ⟨fun id => switched_get id, rfl, rfl⟩

theorem Tracks.serialize (ht : Tracks s h) {prev next : Task} (hprev : prev ∈ s.current)
    (hnext : next ∈ s.suspended) :
    Tracks (s.switch prev next false) (receive h (.serializeTasks prev.id next.id)) := by
  obtain ⟨rp, rn, hrp, hpworker, hpkill, hrn, hnworker, hnkill, hget, hterminated, hworkers⟩ :=
    ht.serialize_get hprev hnext
  have hcan : CanSwitch s prev next := ⟨hprev, Or.inl hnext, ht.created next
    (mem_all.mpr (Or.inl (mem_live.mpr (Or.inr hnext)))), ht.unreleased next hnext⟩
  have hne := hcan.ids_ne ht.toProper
  obtain ⟨⟨hids, hapart, hunique, hburied, hcreated, hcpus, hhomes, hunreleased⟩, hcurrent,
    hsuspended, hdead, hleaked, halive, hentries, hmade, hended⟩ := id ht
  simp only [mem_live, mem_all] at hids hunique hburied hcreated halive hentries
  refine ⟨ht.toProper.switch hcan false, ?_, ?_, ?_, ?_, ?_, ?_, ?_, ?_⟩
  · intro t hmem
    rw [hget]
    simp only [mem_switch_current] at hmem
    grind
  · intro t hmem
    rw [hget]
    simp only [mem_switch_suspended] at hmem
    grind
  · intro t hmem hstale
    simp only [mem_switch_gone] at hmem
    refine ⟨?_, fun id r hr => ?_⟩
    · rw [hterminated]
      grind
    · rw [hget] at hr
      grind
  · intro t hmem hstale
    simp only [mem_switch_gone] at hmem
    rw [hterminated]
    grind
  · intro t hmem
    simp only [mem_live, mem_switch_current, mem_switch_suspended] at hmem
    rw [hterminated]
    grind
  · intro id r hr
    have hold : ∃ r', h.tasks.get id = some r' ∧ r'.worker = r.worker := by
      rw [hget] at hr
      grind
    obtain ⟨r', hr', hworker'⟩ := hold
    obtain ⟨t, hmem, hid, hworker⟩ := ht.entries id r' hr'
    obtain ⟨t', hmem', hid', hworker''⟩ := ht.toProper.mem_all_switch hcan false hmem
    exact ⟨t', hmem', hid'.trans hid, hworker''.trans (hworker.trans hworker')⟩
  · rw [hworkers]
    exact hmade
  · intro worker hmem
    rw [hterminated] at hmem
    rw [hworkers]
    grind

theorem Tracks.boot (ht : Tracks s h) {cpu idle : ℕ} (hcpu : cpu ∉ s.current.map Task.cpu)
    (hidle : idle ∉ s.live.map Task.id) :
    Tracks (s.boot cpu idle) (receive h (.startCpu cpu idle)) := by
  rw [receive_start]
  have hcpu' : ∀ t ∈ s.current, t.cpu ≠ cpu := fun t hmem heq =>
    hcpu (heq ▸ List.mem_map_of_mem hmem)
  have hidle' : ∀ t ∈ s.live, t.id ≠ idle := fun t hmem heq =>
    hidle (heq ▸ List.mem_map_of_mem hmem)
  have hget := add_get h idle
  have hterminated : (h.add idle).terminated = h.terminated := rfl
  have hbefore := ht.created
  obtain ⟨-, hcurrent, hsuspended, hdead, hleaked, halive, hentries, hmade, hended⟩ := id ht
  refine ⟨ht.toProper.boot hcpu' hidle', ?_, ?_, ?_, hleaked, ?_, ?_, ?_, ?_⟩
  · intro t hmem
    rw [hget]
    rcases mem_boot_current.mp hmem with rfl | hold
    · exact ⟨_, if_pos rfl, hmade.symm, rfl, rfl⟩
    · rw [if_neg (hidle' t (mem_live.mpr (Or.inl hold)))]
      exact hcurrent t hold
  · intro t hmem
    rw [hget, if_neg (hidle' t (mem_live.mpr (Or.inr hmem)))]
    exact hsuspended t hmem
  · intro t hmem hstale
    refine ⟨(hdead t hmem hstale).1, fun id r hr => ?_⟩
    rw [hget] at hr
    have hlt := hbefore t (mem_all.mpr (Or.inr hmem))
    have hother := (hdead t hmem hstale).2 id r
    grind
  · intro t hmem
    simp only [mem_live, mem_boot_current] at hmem halive
    rw [hterminated]
    change _ ∨ t ∈ s.suspended at hmem
    grind
  · intro id r hr
    rw [hget] at hr
    by_cases heq : id = idle
    · rw [if_pos heq] at hr
      cases hr
      exact ⟨_, mem_all.mpr (Or.inl (mem_live.mpr (Or.inl (mem_boot_current.mpr (Or.inl rfl))))),
        heq.symm, hmade⟩
    · rw [if_neg heq] at hr
      obtain ⟨t, hmem, hsame⟩ := hentries id r hr
      refine ⟨t, ?_, hsame⟩
      simp only [mem_all, mem_live, mem_boot_current] at hmem ⊢
      exact hmem.imp (Or.imp_left Or.inr) fun hgone => hgone
  · change s.created + 1 = h.workers + 1
    rw [hmade]
  · intro worker hmem
    exact Nat.lt_succ_of_lt (hended worker hmem)

/-- Releasing a task that is on a CPU leaves it to the next switch. -/
theorem Tracks.mark (ht : Tracks s h) {dead : Task} (hdead : dead ∈ s.current) :
    Tracks (s.mark dead.id) (receive h (.releaseTask dead.id)) := by
  obtain ⟨r₀, hr₀, hworker₀, hrunning₀, hkill₀⟩ := ht.current dead hdead
  have hreceive : receive h (.releaseTask dead.id) =
      { h with tasks := h.tasks.set dead.id { r₀ with kill := true } } := by
    rw [receive_release, killTask_running hr₀ hrunning₀]
    rfl
  rw [hreceive]
  have hget : ∀ id, (h.tasks.set dead.id { r₀ with kill := true }).get id =
      if id = dead.id then some { r₀ with kill := true } else h.tasks.get id := by
    intro id
    by_cases heq : id = dead.id
    · rw [if_pos heq, heq, JsMap.get_set_self]
    · rw [if_neg heq, JsMap.get_set_of_ne _ _ heq]
  have hold : ∀ id r, (h.tasks.set dead.id { r₀ with kill := true }).get id = some r →
      ∃ r', h.tasks.get id = some r' ∧ r'.worker = r.worker := by
    intro id r hr
    rw [hget] at hr
    split at hr
    · cases hr
      rename_i heq
      exact ⟨r₀, heq ▸ hr₀, rfl⟩
    · exact ⟨r, hr, rfl⟩
  obtain ⟨hproper, hcurrent, hsuspended, hgone, hleaked, halive, hentries, hmade, hended⟩ := id ht
  refine ⟨hproper.mark dead.id, ?_, ?_, ?_, hleaked, ?_, ?_, hmade, hended⟩
  · intro t hmem
    obtain ⟨t₀, hmem₀, rfl⟩ := mem_mark_current.mp hmem
    simp only [hget]
    by_cases heq : t₀.id = dead.id
    · have hsame := hproper.ids t₀ (mem_live.mpr (Or.inl hmem₀)) dead
        (mem_live.mpr (Or.inl hdead)) heq
      simp only [if_pos heq]
      exact ⟨_, rfl, by rw [hsame]; exact hworker₀, hrunning₀, rfl⟩
    · simp only [if_neg heq]
      exact hcurrent t₀ hmem₀
  · intro t hmem
    have hne : t.id ≠ dead.id := by
      intro heq
      have hsame := hproper.ids t (mem_live.mpr (Or.inr hmem)) dead
        (mem_live.mpr (Or.inl hdead)) heq
      exact hproper.apart dead hdead (hsame ▸ hmem)
    rw [hget, if_neg hne]
    exact hsuspended t hmem
  · intro t hmem hstale
    refine ⟨(hgone t hmem hstale).1, fun id r hr => ?_⟩
    obtain ⟨r', hr', hsame⟩ := hold id r hr
    rw [← hsame]
    exact (hgone t hmem hstale).2 id r' hr'
  · intro t hmem
    rcases mem_live.mp hmem with hmem | hmem
    · obtain ⟨t₀, hmem₀, rfl⟩ := mem_mark_current.mp hmem
      have hnot := halive t₀ (mem_live.mpr (Or.inl hmem₀))
      split <;> exact hnot
    · exact halive t (mem_live.mpr (Or.inr hmem))
  · intro id r hr
    obtain ⟨r', hr', hsame⟩ := hold id r hr
    obtain ⟨t, hmem, hid, hworker⟩ := hentries id r' hr'
    rcases mem_all.mp hmem with hlive | hmem
    · rcases mem_live.mp hlive with hcur | hsus
      · refine ⟨_,
          mem_all.mpr (Or.inl (mem_live.mpr (Or.inl (mem_mark_current.mpr ⟨t, hcur, rfl⟩)))),
          ?_, ?_⟩
        · split <;> exact hid
        · split <;> exact hworker.trans hsame
      · exact ⟨t, mem_all.mpr (Or.inl (mem_live.mpr (Or.inr hsus))), hid, hworker.trans hsame⟩
    · exact ⟨t, mem_all.mpr (Or.inr hmem), hid, hworker.trans hsame⟩

/-- Releasing a suspended task ends its worker, unless the task is still marked. -/
theorem Tracks.bury (ht : Tracks s h) {dead : Task} (hdead : dead ∈ s.suspended) :
    Tracks (s.bury dead) (receive h (.releaseTask dead.id)) := by
  obtain ⟨r₀, hr₀, hworker₀, hrunning₀, hkill₀⟩ := ht.suspended dead hdead
  have hspec : (∀ id, id ≠ dead.id →
        (receive h (.releaseTask dead.id)).tasks.get id = h.tasks.get id) ∧
      (∀ r, (receive h (.releaseTask dead.id)).tasks.get dead.id = some r →
        dead.stale = true ∧ r.worker = dead.worker) ∧
      (receive h (.releaseTask dead.id)).terminated =
        (if dead.stale then [] else [dead.worker]) ++ h.terminated ∧
      (receive h (.releaseTask dead.id)).workers = h.workers := by
    rw [receive_release]
    cases hstale : dead.stale with
    | true =>
      rw [killTask_running hr₀ (hrunning₀.trans hstale)]
      refine ⟨fun id hne => JsMap.get_set_of_ne _ _ hne, fun r hr => ⟨rfl, ?_⟩, rfl, rfl⟩
      cases (JsMap.get_set_self ..).symm.trans hr
      exact hworker₀
    | false =>
      rw [killTask_idle hr₀ (hrunning₀.trans hstale)]
      refine ⟨fun id hne => JsMap.get_delete_of_ne _ hne, fun r hr => ?_, ?_, rfl⟩
      · cases (JsMap.get_delete_self ..).symm.trans hr
      · rw [← hworker₀]
        rfl
  obtain ⟨hother, hself, hterminated, hworkers⟩ := hspec
  obtain ⟨hproper, hcurrent, hsuspended, hgone, hleaked, halive, hentries, hmade, hended⟩ := id ht
  have hdead' : dead ∈ s.live := mem_live.mpr (Or.inr hdead)
  have hunique : ∀ t ∈ s.all, t.worker = dead.worker → t = dead := fun t hmem =>
    hproper.workers t hmem dead (mem_all.mpr (Or.inl hdead'))
  refine ⟨hproper.bury hdead, ?_, ?_, ?_, ?_, ?_, ?_, ?_, ?_⟩
  · intro t hmem
    have hne : t.id ≠ dead.id := fun heq =>
      hproper.apart t hmem (hproper.ids t (mem_live.mpr (Or.inl hmem)) dead hdead' heq ▸ hdead)
    rw [hother t.id hne]
    exact hcurrent t hmem
  · intro t hmem
    obtain ⟨hmem, hne⟩ := mem_bury_suspended.mp hmem
    rw [hother t.id hne]
    exact hsuspended t hmem
  · intro t hmem hstale
    rw [hterminated]
    rcases mem_bury_gone.mp hmem with rfl | hmem
    · have hfalse : dead.stale = false := hstale
      refine ⟨by simp [hfalse], fun id r hr heq => ?_⟩
      by_cases hid : id = dead.id
      · rw [hid] at hr
        rw [(hself r hr).1] at hfalse
        cases hfalse
      · rw [hother id hid] at hr
        obtain ⟨t, hmem', hid', hworker⟩ := hentries id r hr
        rw [hunique t hmem' (hworker.trans heq)] at hid'
        exact hid hid'.symm
    · refine ⟨List.mem_append_right _ (hgone t hmem hstale).1, fun id r hr heq => ?_⟩
      by_cases hid : id = dead.id
      · rw [hid] at hr
        have hsame := hunique t (mem_all.mpr (Or.inr hmem)) (heq.symm.trans (hself r hr).2)
        exact hproper.buried dead hdead' (hsame ▸ hmem)
      · rw [hother id hid] at hr
        exact (hgone t hmem hstale).2 id r hr heq
  · intro t hmem hstale
    rw [hterminated]
    rcases mem_bury_gone.mp hmem with rfl | hmem
    · have htrue : dead.stale = true := hstale
      simpa [htrue] using halive dead hdead'
    · have hne : t.worker ≠ dead.worker := fun heq =>
        hproper.buried dead hdead' (hunique t (mem_all.mpr (Or.inr hmem)) heq ▸ hmem)
      have hnot := hleaked t hmem hstale
      cases dead.stale <;> simp [hnot, hne]
  · intro t hmem
    have hold : t ∈ s.live ∧ t ≠ dead := by
      rcases mem_live.mp hmem with hmem | hmem
      · exact ⟨mem_live.mpr (Or.inl hmem), fun heq => hproper.apart t hmem (heq ▸ hdead)⟩
      · obtain ⟨hmem, hne⟩ := mem_bury_suspended.mp hmem
        exact ⟨mem_live.mpr (Or.inr hmem), fun heq => hne (heq ▸ rfl)⟩
    have hne : t.worker ≠ dead.worker := fun heq =>
      hold.2 (hunique t (mem_all.mpr (Or.inl hold.1)) heq)
    have hnot := halive t hold.1
    rw [hterminated]
    cases dead.stale <;> simp [hnot, hne]
  · intro id r hr
    by_cases hid : id = dead.id
    · rw [hid] at hr
      exact ⟨_, mem_all.mpr (Or.inr (mem_bury_gone.mpr (Or.inl rfl))), hid.symm,
        (hself r hr).2.symm⟩
    · rw [hother id hid] at hr
      obtain ⟨t, hmem, hid', hworker⟩ := hentries id r hr
      refine ⟨t, ?_, hid', hworker⟩
      rcases mem_all.mp hmem with hlive | hmem
      · rcases mem_live.mp hlive with hcur | hsus
        · exact mem_all.mpr (Or.inl (mem_live.mpr (Or.inl hcur)))
        · exact mem_all.mpr (Or.inl (mem_live.mpr (Or.inr (mem_bury_suspended.mpr
            ⟨hsus, fun heq => hid (hid'.symm.trans heq)⟩))))
      · exact mem_all.mpr (Or.inr (mem_bury_gone.mpr (Or.inr hmem)))
  · rw [hworkers]
    exact hmade
  · intro worker hmem
    rw [hterminated] at hmem
    rw [hworkers]
    have hlt := hproper.created dead (mem_all.mpr (Or.inl hdead'))
    rcases List.mem_append.mp hmem with hnew | hold
    · split at hnew
      · cases hnew
      · rw [List.mem_singleton.mp hnew, ← hmade]
        exact hlt
    · exact hended worker hold

/-- One message keeps the table and the scheduler together. -/
theorem Tracks.receive (ht : Tracks s h) {message : Message} (hwatch : watch s message = some s') :
    Tracks s' (receive h message) := by
  rcases watch_cases hwatch with ⟨cpu, idle, rfl, hcpu, hidle, rfl⟩ |
    ⟨prev, hprev, new, rfl, hnew, rfl⟩ | ⟨prev, hprev, next, hnext, rfl, rfl⟩ |
    ⟨dead, hdead, rfl, -, rfl⟩ | ⟨dead, hdead, rfl, rfl⟩
  · exact ht.boot hcpu hidle
  · exact ht.create hprev hnew
  · exact ht.serialize hprev hnext
  · exact ht.mark hdead
  · exact ht.bury hdead

/-- A task that is gone has lost its worker and its entry exactly when the last switch
away from it was to a task that existed. -/
theorem Tracks.dead_iff (ht : Tracks s h) {t : Task} (hmem : t ∈ s.gone) :
    (t.worker ∈ h.terminated ∧ ∀ id r, h.tasks.get id = some r → r.worker ≠ t.worker) ↔
      t.stale = false := by
  constructor
  · intro hdead
    by_contra hstale
    exact ht.leaked t hmem (by simpa using hstale) hdead.1
  · exact ht.dead t hmem

theorem Tracks.marked_iff (ht : Tracks s h) {t : Task} (hmem : t ∈ s.suspended) :
    Marked h t ↔ t.stale = true := by
  obtain ⟨r, hr, hworker, hrunning, -⟩ := ht.suspended t hmem
  constructor
  · rintro ⟨r', hr', -, hrunning'⟩
    cases hr.symm.trans hr'
    exact hrunning.symm.trans hrunning'
  · intro hstale
    exact ⟨r, hr, hworker, hrunning.trans hstale⟩

/-- The two properties together, in a state of the scheduler. -/
theorem Tracks.properties_iff (ht : Tracks s h) :
    (OneRunning s h ∧ DeadGone s h) ↔ ∀ t, t ∈ s.suspended ∨ t ∈ s.gone → t.stale = false := by
  constructor
  · rintro ⟨hone, hdead⟩ t (hmem | hmem)
    · by_contra hstale
      -- the CPU of the suspended task runs another one, and both are marked
      obtain ⟨t', hmem', hcpu⟩ := ht.homes t hmem
      obtain ⟨r, hr, hworker, hrunning, -⟩ := ht.current t' hmem'
      have hsame := hone t (mem_all.mpr (Or.inl (mem_live.mpr (Or.inr hmem)))) t'
        (mem_all.mpr (Or.inl (mem_live.mpr (Or.inl hmem'))))
        ((ht.marked_iff hmem).mpr (by simpa using hstale)) ⟨r, hr, hworker, hrunning⟩ hcpu.symm
      exact ht.apart t' hmem' (hsame ▸ hmem)
    · exact (ht.dead_iff hmem).mp (hdead t hmem)
  · intro hfresh
    have hmarked : ∀ t ∈ s.all, Marked h t → t ∈ s.current := by
      intro t hmem hmark
      rcases mem_all.mp hmem with hlive | hgone
      · rcases mem_live.mp hlive with hcur | hsus
        · exact hcur
        · have hstale := (ht.marked_iff hsus).mp hmark
          rw [hfresh t (Or.inl hsus)] at hstale
          cases hstale
      · obtain ⟨r, hr, hworker, -⟩ := hmark
        exact absurd hworker ((ht.dead t hgone (hfresh t (Or.inr hgone))).2 t.id r hr)
    refine ⟨fun t hmem t' hmem' hmark hmark' hcpu => ?_, fun t hmem => ?_⟩
    · exact ht.cpus t (hmarked t hmem hmark) t' (hmarked t' hmem' hmark') hcpu
    · exact ht.dead t hmem (hfresh t (Or.inr hmem))

/-- The host and the scheduler before the first CPU starts. -/
def Host.empty : Host := ⟨JsMap.empty, 0, []⟩

def Scheduler.empty : Scheduler := ⟨[], [], [], 0⟩

theorem tracks_empty : Tracks Scheduler.empty Host.empty := by
  refine ⟨⟨?_, ?_, ?_, ?_, ?_, ?_, ?_, ?_⟩, ?_, ?_, ?_, ?_, ?_, ?_, rfl, ?_⟩ <;>
    simp [Scheduler.empty, Host.empty, Scheduler.live, Scheduler.all]

/-- At every point of every run of the scheduler, at most one task per CPU is marked and
no dead task is left, exactly when no task that is off its CPU was switched away from to a
new task; and a dead task is cleaned up exactly when it was not. -/
theorem lifecycle_iff (messages : List Message) (s : Scheduler)
    (hmessages : monitor watch Scheduler.empty messages = some s) :
    ((OneRunning s (run KernelHost.receive Host.empty messages) ∧
        DeadGone s (run KernelHost.receive Host.empty messages)) ↔
      ∀ t, t ∈ s.suspended ∨ t ∈ s.gone → t.stale = false) ∧
    ∀ t ∈ s.gone, (t.worker ∈ (run KernelHost.receive Host.empty messages).terminated ∧
        ∀ id r, (run KernelHost.receive Host.empty messages).tasks.get id = some r →
          r.worker ≠ t.worker) ↔ t.stale = false := by
  have htracks : Tracks s (run KernelHost.receive Host.empty messages) :=
    run_monitored KernelHost.receive watch Tracks (fun _ _ _ _ ht hwatch =>
      ht.receive hwatch) messages
      tracks_empty hmessages
  exact ⟨htracks.properties_iff, fun t hmem => htracks.dead_iff hmem⟩

/-- Task 2 is made and hands the CPU back; it is scheduled again, releases itself and hands
the CPU over for the last time. -/
def serialized : List Message :=
  [.startCpu 0 1, .createAndRunTask 1 2, .serializeTasks 2 1, .serializeTasks 1 2, .releaseTask 2,
    .serializeTasks 2 1]

theorem lifecycle_serialized :
    OneRunning ⟨[⟨1, 0, 0, false, false⟩], [], [⟨2, 1, 0, true, false⟩], 2⟩
        (run KernelHost.receive Host.empty serialized) ∧
      DeadGone ⟨[⟨1, 0, 0, false, false⟩], [], [⟨2, 1, 0, true, false⟩], 2⟩
        (run KernelHost.receive Host.empty serialized) := by
  refine (lifecycle_iff serialized _ (by decide)).1.mpr ?_
  rintro t (hmem | hmem)
  · cases hmem
  · cases List.mem_singleton.mp hmem
    rfl

/-- A kernel thread that exits with a new task as the next one. -/
def forkedAway : List Message :=
  [.startCpu 0 1, .createAndRunTask 1 2, .releaseTask 2, .createAndRunTask 2 3]

/-- All three tasks stay marked on the one CPU, and the worker of the dead one lives on. -/
theorem forked_away_leaks :
    monitor watch Scheduler.empty forkedAway = some ⟨[⟨3, 2, 0, false, false⟩],
      [⟨1, 0, 0, false, true⟩], [⟨2, 1, 0, true, true⟩], 3⟩ ∧
    ¬ OneRunning ⟨[⟨3, 2, 0, false, false⟩], [⟨1, 0, 0, false, true⟩], [⟨2, 1, 0, true, true⟩], 3⟩
      (run KernelHost.receive Host.empty forkedAway) ∧
    ¬ DeadGone ⟨[⟨3, 2, 0, false, false⟩], [⟨1, 0, 0, false, true⟩], [⟨2, 1, 0, true, true⟩], 3⟩
      (run KernelHost.receive Host.empty forkedAway) := by
  refine ⟨by decide, fun hone => ?_, fun hdead => ?_⟩
  · have hsame := hone ⟨3, 2, 0, false, false⟩ (by decide) ⟨1, 0, 0, false, true⟩ (by decide)
      ⟨⟨2, 0, true, false⟩, by decide, rfl, rfl⟩ ⟨⟨0, 0, true, false⟩, by decide, rfl, rfl⟩ rfl
    cases hsame
  · have hended := (hdead ⟨2, 1, 0, true, true⟩ (by decide)).1
    revert hended
    decide

end Tracking

end NixWasm.KernelHost
