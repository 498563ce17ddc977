import NixWasm.NoticeTable

/-!
What every event does to a valid table. Handlers that close notices are chains of single
closings, each with its signal; a due timer closes its own notice; a call of `Notify` takes
the old notice out, if it replaces one, and puts one in. All runs follow from one step.
-/
namespace NixWasm.NoticeServer

def closedIds (signals : List Signal) : List (BitVec 32) :=
  signals.filterMap fun signal =>
    match signal with
    | .notificationClosed id _ => some id
    | .actionInvoked _ _ => none

/-- The signals of a step: one `NotificationClosed` for each id that leaves the table. -/
def EmitsLeaving (server later : Server) : Prop :=
  ∃ out, later.signals = server.signals ++ out ∧ ∀ id, (closedIds out).count id =
    if id ∈ server.notices.map Notice.id ∧ id ∉ later.notices.map Notice.id then 1 else 0

theorem emitsLeaving_same {server later : Server} (hsignals : later.signals = server.signals)
    (hids : ∀ id ∈ server.notices.map Notice.id, id ∈ later.notices.map Notice.id) :
    EmitsLeaving server later := by
  refine ⟨[], by rw [hsignals, List.append_nil], fun id => ?_⟩
  rw [if_neg fun h => h.2 (hids id h.1)]
  rfl

section Closings

/-- Only notices with the property are closed, and nothing else happens to the table. -/
structure Closing (P : Notice → Prop) (server later : Server) : Prop where
  valid : Valid later.notices later.sources
  kept : ∀ notice ∈ later.notices, notice ∈ server.notices
  left : ∀ notice ∈ server.notices, notice ∉ later.notices → P notice
  emitted : EmitsLeaving server later

theorem closing_refl {P : Notice → Prop} {server later : Server}
    (hvalid : Valid server.notices server.sources) (hnotices : later.notices = server.notices)
    (hsources : later.sources = server.sources) (hsignals : later.signals = server.signals) :
    Closing P server later where
  valid := by rwa [hnotices, hsources]
  kept := fun notice hmem => hnotices ▸ hmem
  left := fun notice hmem hnot => absurd (hnotices ▸ hmem) hnot
  emitted := emitsLeaving_same hsignals fun id hid => by rwa [hnotices]

theorem Closing.trans {P : Notice → Prop} {a b c : Server} (hab : Closing P a b)
    (hbc : Closing P b c) : Closing P a c := by
  refine ⟨hbc.valid, fun n hn => hab.kept n (hbc.kept n hn), fun n hn hnot => ?_, ?_⟩
  · by_cases hmid : n ∈ b.notices
    · exact hbc.left n hmid hnot
    · exact hab.left n hn hmid
  · obtain ⟨out, hout, hcount⟩ := hab.emitted
    obtain ⟨more, hmore, hcount'⟩ := hbc.emitted
    refine ⟨out ++ more, by rw [hmore, hout, List.append_assoc], fun id => ?_⟩
    have hdown : id ∈ c.notices.map Notice.id → id ∈ b.notices.map Notice.id := by
      intro hid
      obtain ⟨n, hn, rfl⟩ := List.mem_map.mp hid
      exact List.mem_map_of_mem (hbc.kept n hn)
    have hdown' : id ∈ b.notices.map Notice.id → id ∈ a.notices.map Notice.id := by
      intro hid
      obtain ⟨n, hn, rfl⟩ := List.mem_map.mp hid
      exact List.mem_map_of_mem (hab.kept n hn)
    rw [closedIds, List.filterMap_append, List.count_append, ← closedIds, ← closedIds,
      hcount, hcount']
    by_cases hc : id ∈ c.notices.map Notice.id
    · simp [hc, hdown hc]
    · by_cases hb : id ∈ b.notices.map Notice.id
      · simp [hc, hb, hdown' hb]
      · simp [hc, hb]

theorem Closing.imp {P Q : Notice → Prop} {server later : Server} (h : Closing P server later)
    (himp : ∀ notice ∈ server.notices, P notice → Q notice) : Closing Q server later :=
  ⟨h.valid, h.kept, fun n hn hnot => himp n hn (h.left n hn hnot), h.emitted⟩

/-- One closing. -/
theorem closing_one {server : Server} {before after : List Notice} {notice : Notice}
    (hvalid : Valid server.notices server.sources)
    (hsplit : server.notices = before ++ notice :: after) (reason : ℕ) :
    Closing (· = notice) server (closeNotice server before.length reason) := by
  have hget : server.notices[before.length]? = some notice := by simp [hsplit]
  have herase : server.notices.eraseIdx before.length = before ++ after := by
    rw [hsplit, List.eraseIdx_append_of_length_le (Nat.le_refl _), Nat.sub_self,
      List.eraseIdx_cons_zero]
  rw [hsplit] at hvalid
  obtain ⟨hremoved, hother⟩ := hvalid.removed
  simp only [closeNotice, hget, herase]
  refine ⟨hremoved, fun n hn => ?_, fun n hn hnot => ?_, ⟨_, rfl, fun id => ?_⟩⟩
  · rw [hsplit]
    rcases List.mem_append.mp hn with hn | hn
    · exact List.mem_append_left _ hn
    · exact List.mem_append_right _ (List.mem_cons_of_mem notice hn)
  · rw [hsplit] at hn
    rcases List.mem_append.mp hn with hn | hn
    · exact absurd (List.mem_append_left _ hn) hnot
    · rcases List.mem_cons.mp hn with rfl | hn
      · rfl
      · exact absurd (List.mem_append_right _ hn) hnot
  · have hgone : notice.id ∉ (before ++ after).map Notice.id := by
      intro hid
      obtain ⟨n, hn, heq⟩ := List.mem_map.mp hid
      exact hother n hn heq
    rw [hsplit]
    by_cases hid : id = notice.id
    · subst hid
      rw [if_pos ⟨by simp, hgone⟩]
      simp [closedIds]
    · have hsame : ¬ (id ∈ (before ++ notice :: after).map Notice.id ∧
          id ∉ (before ++ after).map Notice.id) := by
        rintro ⟨hin, hout⟩
        simp only [List.map_append, List.map_cons, List.mem_append, List.mem_cons] at hin hout
        tauto
      rw [if_neg hsame]
      simp [closedIds, Ne.symm hid]

/-- The closings of an owner's notices. -/
theorem closing_owned (name : String) (i : ℕ) {server : Server}
    (hvalid : Valid server.notices server.sources) :
    Closing (fun notice => notice.owner = name) server (closeOwned name i server) := by
  induction i generalizing server with
  | zero => exact closing_refl hvalid rfl rfl rfl
  | succ i ih =>
    rw [closeOwned]
    cases hget : server.notices[i]? with
    | none => exact ih hvalid
    | some notice =>
      dsimp only
      by_cases howner : notice.owner = name
      · rw [if_pos howner]
        have hlt := (List.getElem?_eq_some_iff.mp hget).1
        have hsplit : server.notices =
            server.notices.take i ++ notice :: server.notices.drop (i + 1) := by
          have hnotice := (List.getElem?_eq_some_iff.mp hget).2
          rw [← hnotice, List.getElem_cons_drop, List.take_append_drop]
        have hone := closing_one hvalid hsplit 3
        rw [List.length_take_of_le (Nat.le_of_lt hlt)] at hone
        have hfirst := hone.imp fun n _ heq => show n.owner = name from heq ▸ howner
        exact hfirst.trans (ih hone.valid)
      · rw [if_neg howner]
        exact ih hvalid

/-- A due timer closes the notice that it belongs to. -/
theorem closing_expired {server : Server} (source : ℕ)
    (hvalid : Valid server.notices server.sources) :
    Closing (fun notice => source ≠ 0 ∧ notice.timer = source) server
      (noticeExpired server source) := by
  unfold noticeExpired
  cases hfind : server.sources.find? (fun pending => pending.1 = source) with
  | none => exact closing_refl hvalid rfl rfl rfl
  | some pending =>
    obtain ⟨source', id⟩ := pending
    have hsource := List.find?_some hfind
    obtain rfl : source' = source := of_decide_eq_true hsource
    obtain ⟨hne, owner, howner, hid, htimer⟩ := hvalid.owned _ (List.mem_of_find?_eq_some hfind)
    dsimp only at hne hid htimer ⊢
    cases hfound : findNotice server.notices id with
    | none => exact absurd hid (findFrom_none.mp hfound owner howner)
    | some found =>
      obtain ⟨index, notice⟩ := found
      obtain ⟨hid', before, after, hsplit, rfl⟩ := findNotice_some hfound
      have hsame : notice = owner :=
        hvalid.eq_of_id (by rw [hsplit]; simp) howner (hid'.trans hid.symm)
      have htimer' : notice.timer = source' := hsame ▸ htimer
      have hlater : { closeNotice { server with
            notices := server.notices.set before.length { notice with timer := 0 } }
            before.length 1 with
          sources := (closeNotice { server with
            notices := server.notices.set before.length { notice with timer := 0 } }
            before.length 1).sources.filter (fun pending => pending.1 ≠ source') } =
          closeNotice server before.length 1 := by
        have hget : server.notices[before.length]? = some notice := by simp [hsplit]
        have hset : (server.notices.set before.length { notice with timer := 0 })[before.length]? =
            some { notice with timer := 0 } := by simp [hsplit]
        simp only [closeNotice, hget, hset, removeTimer, htimer', hne, ne_eq, not_true_eq_false,
          not_false_eq_true, if_true, if_false, List.eraseIdx_set_eq]
      dsimp only
      rw [hlater]
      exact (closing_one hvalid hsplit 1).imp fun n _ heq => ⟨hne, heq ▸ htimer'⟩

end Closings

/-- The event may close the notice: its owner's call, its own timer, the loss of its owner,
or the host. -/
def Closes (notice : Notice) : Event → Prop
  | .closeNotification sender id => sender = notice.owner ∧ id = notice.id
  | .expired source => source ≠ 0 ∧ notice.timer = source
  | .nameOwnerChanged name newOwner => notice.owner = name ∧ newOwner = ""
  | .host (.noticeClose id _) => notice.id = BitVec.ofNat 32 id
  | _ => False

/-- What one event may do to the notices. -/
structure Faithful (server : Server) (event : Event) (later : Server) (reply : Reply) : Prop where
  /-- A notice is new or changed only by its owner's `Notify`. -/
  changed : ∀ notice ∈ later.notices, notice ∈ server.notices ∨
    ∃ call now, event = .notify notice.owner call now ∧
      ∀ old ∈ server.notices, old.id = notice.id → old.owner = notice.owner
  closed : ∀ notice ∈ server.notices, notice.id ∉ later.notices.map Notice.id →
    Closes notice event
  rejected : ∀ name message, reply = .error name message →
    later.notices = server.notices ∧ later.sources = server.sources
  emitted : EmitsLeaving server later

/-- The event ends, keeps the table valid and is faithful. -/
def Settles (g : Glib) (server : Server) (event : Event) : Prop :=
  ∃ later reply, step g server event = some (later, reply) ∧
    Valid later.notices later.sources ∧ Faithful server event later reply

theorem faithful_same {server later : Server} (event : Event) (reply : Reply)
    (hnotices : later.notices = server.notices) (hsources : later.sources = server.sources)
    (hsignals : later.signals = server.signals) : Faithful server event later reply where
  changed := fun notice hmem => Or.inl (hnotices ▸ hmem)
  closed := fun notice hmem hnot => absurd (hnotices ▸ List.mem_map_of_mem hmem) hnot
  rejected := fun _ _ _ => ⟨hnotices, hsources⟩
  emitted := emitsLeaving_same hsignals fun id hid => by rwa [hnotices]

theorem faithful_closing {server later : Server} {event : Event} {P : Notice → Prop}
    (h : Closing P server later)
    (hcloses : ∀ notice ∈ server.notices, P notice → Closes notice event) :
    Faithful server event later .empty where
  changed := fun notice hmem => Or.inl (h.kept notice hmem)
  closed := fun notice hmem hnot =>
    hcloses notice hmem (h.left notice hmem fun hin => hnot (List.mem_map_of_mem hin))
  rejected := fun _ _ heq => nomatch heq
  emitted := h.emitted

section Notify

variable {g : Glib} {server : Server} {sender : String} {call : NotifyCall}

theorem replacement_some {index : ℕ} {notice : Notice}
    (h : replacement server sender call = some (index, notice)) :
    notice.owner = sender ∧ ∃ before after, server.notices = before ++ notice :: after ∧
      index = before.length := by
  unfold replacement at h
  split at h
  · obtain ⟨hfound, howner⟩ := Option.filter_eq_some_iff.mp h
    exact ⟨of_decide_eq_true howner, (findNotice_some hfound).2⟩
  · cases h

@[simp] theorem withTimer_id (notice : Notice) :
    (withTimer g server notice).1.id = notice.id := by
  unfold withTimer
  split <;> rfl

@[simp] theorem withTimer_owner (notice : Notice) :
    (withTimer g server notice).1.owner = notice.owner := by
  unfold withTimer
  split <;> rfl

/-- Filling a notice that is there keeps all the others. -/
theorem replaceNotice_faithful {index : ℕ} {notice : Notice} (now : ℤ)
    (hvalid : Valid server.notices server.sources)
    (hfound : replacement server sender call = some (index, notice)) :
    Valid (replaceNotice g server index notice call).1.notices
        (replaceNotice g server index notice call).1.sources ∧
      Faithful server (.notify sender call now) (replaceNotice g server index notice call).1
        (replaceNotice g server index notice call).2 := by
  obtain ⟨howner, before, after, hsplit, rfl⟩ := replacement_some hfound
  have hnotice : notice ∈ server.notices := by rw [hsplit]; simp
  have hzero := hvalid.nonzero notice hnotice
  have hunique := fun old (hold : old ∈ server.notices) => hvalid.eq_of_id hold hnotice
  have hbound := hvalid.bounded
  rw [hsplit, List.length_append, List.length_cons] at hbound
  rw [hsplit] at hvalid
  obtain ⟨hremoved, hother⟩ := hvalid.removed
  have hset : ∀ filledIn, server.notices.set before.length filledIn =
      before ++ filledIn :: after := by
    intro filledIn
    rw [hsplit]
    simp
  unfold replaceNotice
  dsimp only
  rw [hset]
  let freed := { server with sources := removeTimer notice.timer server.sources }
  have hadded : Valid ((withTimer g freed (filled notice call)).1 :: (before ++ after))
      (withTimer g freed (filled notice call)).2 :=
    hremoved.added g freed rfl hzero hother (by rw [List.length_append]; omega) rfl
  refine ⟨hadded.perm List.perm_middle.symm, ?_, ?_, ?_, ?_⟩
  · intro n hn
    rcases List.mem_append.mp hn with hn | hn
    · exact Or.inl (by rw [hsplit]; exact List.mem_append_left _ hn)
    · rcases List.mem_cons.mp hn with rfl | hn
      · refine Or.inr ⟨call, now, ?_, fun old hold hid => ?_⟩
        · rw [withTimer_owner]
          exact congrArg (Event.notify · call now) howner.symm
        · rw [withTimer_id] at hid
          rw [hunique old hold hid, withTimer_owner]
          rfl
      · exact Or.inl (by rw [hsplit]; exact List.mem_append_right _ (List.mem_cons_of_mem _ hn))
  · intro n hn hnot
    exfalso
    apply hnot
    rw [hsplit] at hn
    simp only [List.map_append, List.map_cons, List.mem_append, List.mem_cons] at hn ⊢
    rcases hn with hn | rfl | hn
    · exact Or.inl (List.mem_map_of_mem hn)
    · exact Or.inr (Or.inl (by rw [withTimer_id]; rfl))
    · exact Or.inr (Or.inr (List.mem_map_of_mem hn))
  · intro name message heq
    cases heq
  · refine emitsLeaving_same rfl fun id hid => ?_
    rw [hsplit] at hid
    simp only [List.map_append, List.map_cons, List.mem_append, List.mem_cons,
      withTimer_id] at hid ⊢
    exact hid

/-- A new notice gets an id that is free, wherever the counter stands. -/
theorem addNotice_faithful (now : ℤ) (hvalid : Valid server.notices server.sources)
    (hroom : server.notices.length < 128) :
    ∃ later reply, addNotice g server sender call = some (later, reply) ∧
      Valid later.notices later.sources ∧
      Faithful server (.notify sender call now) later reply := by
  obtain ⟨⟨id, next⟩, hallocated⟩ := allocateId_isSome server.nextNoticeId hvalid.bounded
  obtain ⟨hzero, hnew⟩ := allocateId_some hallocated
  unfold addNotice
  rw [hallocated]
  dsimp only at hzero hnew ⊢
  have hadded : Valid
      ((withTimer g server (filled ⟨id, sender, [], [], [], 0, 0, 0⟩ call)).1 :: server.notices)
      (withTimer g server (filled ⟨id, sender, [], [], [], 0, 0, 0⟩ call)).2 :=
    hvalid.added g server rfl hzero hnew hroom rfl
  refine ⟨_, _, rfl, hadded.perm (List.perm_append_singleton _ _).symm, ?_, ?_, ?_, ?_⟩
  · intro n hn
    rcases List.mem_append.mp hn with hn | hn
    · exact Or.inl hn
    · obtain rfl := List.mem_singleton.mp hn
      refine Or.inr ⟨call, now, by rw [withTimer_owner]; rfl, fun old hold hid => ?_⟩
      rw [withTimer_id] at hid
      exact absurd hid (hnew old hold)
  · intro n hn hnot
    exact absurd (List.mem_map_of_mem (List.mem_append_left _ hn)) hnot
  · intro name message heq
    cases heq
  · refine emitsLeaving_same rfl fun i hi => ?_
    rw [List.map_append]
    exact List.mem_append_left _ hi

theorem notify_settles (now : ℤ) (hvalid : Valid server.notices server.sources) :
    Settles g server (.notify sender call now) := by
  unfold Settles
  change ∃ later reply, notify g server sender call now = some (later, reply) ∧ _
  unfold notify
  by_cases hgood : valid g server (replacement server sender call) call = true
  · dsimp only
    rw [hgood, if_neg (by decide)]
    by_cases hrate : maxNoticesPerOwnerWindow ≤ (currentRate server sender now).count
    · rw [if_pos hrate]
      exact ⟨_, _, rfl, hvalid, faithful_same _ _ rfl rfl rfl⟩
    · rw [if_neg hrate]
      cases hfound : replacement server sender call with
      | some found =>
        obtain ⟨index, notice⟩ := found
        obtain ⟨hlater, hfaithful⟩ := @replaceNotice_faithful g { server with
          noticeRates := Function.update server.noticeRates sender
            (some ⟨(currentRate server sender now).startUs,
              (currentRate server sender now).count + 1⟩) } sender call index notice now
                hvalid hfound
        exact ⟨_, _, rfl, hlater, hfaithful.changed, hfaithful.closed, hfaithful.rejected,
          hfaithful.emitted⟩
      | none =>
        have hroom : server.notices.length < 128 := by
          rw [hfound] at hgood
          simp only [valid, Option.isSome_none, Bool.false_or, Bool.and_eq_true,
            decide_eq_true_eq] at hgood
          exact hgood.1.2
        obtain ⟨later, reply, hadd, hlater, hfaithful⟩ := @addNotice_faithful g { server with
          noticeRates := Function.update server.noticeRates sender
            (some ⟨(currentRate server sender now).startUs,
              (currentRate server sender now).count + 1⟩) } sender call now hvalid hroom
        exact ⟨later, reply, hadd, hlater, hfaithful.changed, hfaithful.closed,
          hfaithful.rejected, hfaithful.emitted⟩
  · dsimp only
    rw [Bool.not_eq_true] at hgood
    rw [hgood, if_pos Bool.not_false]
    exact ⟨_, _, rfl, hvalid, faithful_same _ _ rfl rfl rfl⟩

end Notify

section Step

variable {server : Server}

theorem closeNotification_settles (g : Glib) (sender : String) (id : BitVec 32)
    (hvalid : Valid server.notices server.sources) :
    Settles g server (.closeNotification sender id) := by
  unfold Settles
  change ∃ later reply, some (closeNotification server sender id) = some (later, reply) ∧ _
  unfold closeNotification
  cases hfound : findNotice server.notices id with
  | none => exact ⟨_, _, rfl, hvalid, faithful_same _ _ rfl rfl rfl⟩
  | some found =>
    obtain ⟨index, notice⟩ := found
    obtain ⟨hid, before, after, hsplit, rfl⟩ := findNotice_some hfound
    dsimp only
    by_cases howner : notice.owner = sender
    · rw [if_pos howner]
      have hclosing := closing_one hvalid hsplit 3
      refine ⟨_, _, rfl, hclosing.valid, faithful_closing hclosing fun n _ heq => ?_⟩
      subst heq
      exact ⟨howner.symm, hid.symm⟩
    · rw [if_neg howner]
      exact ⟨_, _, rfl, hvalid, faithful_same _ _ rfl rfl rfl⟩

theorem nameOwnerChanged_settles (g : Glib) (name newOwner : String)
    (hvalid : Valid server.notices server.sources) :
    Settles g server (.nameOwnerChanged name newOwner) := by
  unfold Settles
  change ∃ later reply, some (nameOwnerChanged server name newOwner, Reply.empty) =
    some (later, reply) ∧ _
  unfold nameOwnerChanged
  by_cases hgone : newOwner = ""
  · rw [if_neg (fun hne => hne hgone)]
    have hclosing := @closing_owned name server.notices.length
      { server with noticeRates := Function.update server.noticeRates name none } hvalid
    refine ⟨_, _, rfl, hclosing.valid, faithful_closing
      ⟨hclosing.valid, hclosing.kept, hclosing.left, hclosing.emitted⟩ fun n _ howner => ?_⟩
    exact ⟨howner, hgone⟩
  · rw [if_pos hgone]
    exact ⟨_, _, rfl, hvalid, faithful_same _ _ rfl rfl rfl⟩

theorem hostFrame_settles (g : Glib) (action : TrayHost.Action)
    (hvalid : Valid server.notices server.sources) : Settles g server (.host action) := by
  unfold Settles
  change ∃ later reply, some (hostFrame server action, Reply.empty) = some (later, reply) ∧ _
  cases action with
  | item id action x y => exact ⟨_, _, rfl, hvalid, faithful_same _ _ rfl rfl rfl⟩
  | menu id rowId revision => exact ⟨_, _, rfl, hvalid, faithful_same _ _ rfl rfl rfl⟩
  | noticeAction id key =>
    rw [hostFrame]
    cases hfound : findNotice server.notices (BitVec.ofNat 32 id) with
    | none => exact ⟨_, _, rfl, hvalid, faithful_same _ _ rfl rfl rfl⟩
    | some found =>
      dsimp only
      by_cases hkey : key ∈ found.2.actions.map Prod.fst
      · rw [if_pos hkey]
        refine ⟨_, _, rfl, hvalid, fun n hn => Or.inl hn,
          fun n hn hnot => absurd (List.mem_map_of_mem hn) hnot, (fun _ _ heq => nomatch heq),
          ⟨[Signal.actionInvoked found.2.id key], rfl, fun i => ?_⟩⟩
        rw [if_neg fun h => h.2 h.1]
        rfl
      · rw [if_neg hkey]
        exact ⟨_, _, rfl, hvalid, faithful_same _ _ rfl rfl rfl⟩
  | noticeClose id reason =>
    rw [hostFrame]
    cases hfound : findNotice server.notices (BitVec.ofNat 32 id) with
    | none => exact ⟨_, _, rfl, hvalid, faithful_same _ _ rfl rfl rfl⟩
    | some found =>
      obtain ⟨index, notice⟩ := found
      obtain ⟨hid, before, after, hsplit, rfl⟩ := findNotice_some hfound
      dsimp only
      have hclosing := closing_one hvalid hsplit reason.toNat
      refine ⟨_, _, rfl, hclosing.valid, faithful_closing hclosing fun n _ heq => ?_⟩
      subst heq
      exact hid

/-- One event from any valid table. -/
theorem step_settles (g : Glib) (event : Event) (hvalid : Valid server.notices server.sources) :
    Settles g server event := by
  cases event with
  | notify sender call now => exact notify_settles now hvalid
  | closeNotification sender id => exact closeNotification_settles g sender id hvalid
  | expired source =>
    have hclosing := closing_expired source hvalid
    exact ⟨_, _, rfl, hclosing.valid, faithful_closing hclosing fun n _ h => h⟩
  | nameOwnerChanged name newOwner => exact nameOwnerChanged_settles g name newOwner hvalid
  | host action => exact hostFrame_settles g action hvalid

theorem run_valid (g : Glib) (events : List Event) (hvalid : Valid server.notices server.sources) :
    ∃ last, run g server events = some last ∧ Valid last.notices last.sources := by
  induction events generalizing server with
  | nil => exact ⟨server, rfl, hvalid⟩
  | cons event events ih =>
    obtain ⟨later, reply, hstep, hlater, -⟩ := step_settles g event hvalid
    obtain ⟨last, hrun, hlast⟩ := ih hlater
    exact ⟨last, by rw [run, hstep]; exact hrun, hlast⟩

end Step

/-- No two pending timers are for one notice. -/
theorem Valid.timers {notices : List Notice} {sources : List (ℕ × BitVec 32)}
    (h : Valid notices sources) : (sources.map Prod.snd).Nodup := by
  refine List.Nodup.map_on (fun p hp q hq heq => ?_) h.sourceIds.of_map
  obtain ⟨-, m, hm, hmid, hmtimer⟩ := h.owned p hp
  obtain ⟨-, n, hn, hnid, hntimer⟩ := h.owned q hq
  have hsame : m = n := h.eq_of_id hm hn (by rw [hmid, heq, hnid])
  exact Prod.ext (by rw [← hmtimer, ← hntimer, hsame]) heq

/-- After any events the live notices have distinct ids, none of them 0, and are at most 128;
each has at most one pending timer, and there are no other timers; and the next event, of
whatever kind, is faithful. -/
theorem notice_server (g : Glib) (events : List Event) :
    ∃ server, run g .start events = some server ∧
      (server.notices.map Notice.id).Nodup ∧ (∀ notice ∈ server.notices, notice.id ≠ 0) ∧
      server.notices.length ≤ 128 ∧ (server.sources.map Prod.snd).Nodup ∧
      (∀ source ∈ server.sources, source.2 ∈ server.notices.map Notice.id) ∧
      ∀ event, ∃ later reply, step g server event = some (later, reply) ∧
        Faithful server event later reply := by
  obtain ⟨server, hrun, hvalid⟩ := @run_valid .start g events valid_empty
  refine ⟨server, hrun, hvalid.ids, hvalid.nonzero, hvalid.bounded, hvalid.timers,
    fun source hsource => ?_, fun event => ?_⟩
  · obtain ⟨-, notice, hnotice, hid, -⟩ := hvalid.owned source hsource
    exact hid ▸ List.mem_map_of_mem hnotice
  · obtain ⟨later, reply, hstep, -, hfaithful⟩ := step_settles g event hvalid
    exact ⟨later, reply, hstep, hfaithful⟩

/-- A notice that is replaced by its owner, and not by another sender, and then expires. -/
example : (run default .start [.notify "a" ⟨0, [1], [], [], none, -1⟩ 0,
      .notify "a" ⟨1, [2], [], [], none, 9⟩ 0, .notify "b" ⟨1, [3], [], [], none, 0⟩ 0,
      .expired 1]).map (fun server => (server.notices.map Notice.title, server.signals)) =
    some ([[3]], [.notificationClosed 1 1]) := by decide

end NixWasm.NoticeServer
