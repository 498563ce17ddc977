import NixWasm.NinepRules

/-!
What one file holds, whether its bytes are in the backend or in the open writer that
owns it. A Twrite that is acknowledged lays its data over these contents, on each of
its paths: an append to the writer, an append to a writer it opens again, or a
read-modify-write of the whole file.
-/
namespace NixWasm.NinepServer

open Unicode Vfs NinepCodec Effects

variable {V σ : Type}

section Overlay

/-- The bytes are in the file from `offset` on. -/
def Contains (bytes : List UInt8) (offset : ℕ) (data : List UInt8) : Prop :=
  (bytes.drop offset).take data.length = data

theorem resized_length (bytes : List UInt8) (size : ℕ) :
    (Config.resized bytes size).length = size := by
  simp only [Config.resized, List.length_append, List.length_take, List.length_replicate]
  omega

theorem contains_overlay (cur : List UInt8) (offset : ℕ) (data : List UInt8) :
    Contains (Config.overlay cur offset data) offset data := by
  unfold Contains Config.overlay
  rw [List.append_assoc, List.drop_left' (resized_length cur offset), List.take_left']
  rfl

theorem getElem?_resized {bytes : List UInt8} {size i : ℕ} (hi : i < size)
    (hlen : i < bytes.length) : (Config.resized bytes size)[i]? = bytes[i]? := by
  unfold Config.resized
  rw [List.getElem?_append_left (by simp; omega), List.getElem?_take_of_lt hi]

/-- Outside the range the file keeps its bytes. -/
theorem getElem?_overlay {cur data : List UInt8} {offset i : ℕ} (hlen : i < cur.length)
    (hi : i < offset ∨ offset + data.length ≤ i) :
    (Config.overlay cur offset data)[i]? = cur[i]? := by
  have hsize := resized_length cur offset
  unfold Config.overlay
  rcases hi with hbefore | hafter
  · rw [List.append_assoc, List.getElem?_append_left (by omega), getElem?_resized hbefore hlen]
  · rw [List.getElem?_append_right (by simp [hsize]; omega), List.getElem?_drop]
    congr 1
    simp [hsize]
    omega

theorem overlay_length (cur data : List UInt8) (offset : ℕ) :
    (Config.overlay cur offset data).length = max cur.length (offset + data.length) := by
  simp only [Config.overlay, List.length_append, resized_length, List.length_drop]
  omega

theorem contains_iff {bytes data : List UInt8} {offset : ℕ} :
    Contains bytes offset data ↔ ∀ i, i < data.length → bytes[offset + i]? = data[i]? := by
  unfold Contains
  constructor
  · intro h i hi
    rw [← h, List.getElem?_take_of_lt hi, List.getElem?_drop]
  · intro h
    apply List.ext_getElem?
    intro i
    by_cases hi : i < data.length
    · rw [List.getElem?_take_of_lt hi, List.getElem?_drop, h i hi]
    · rw [List.getElem?_eq_none (by simp; omega), List.getElem?_eq_none (by omega)]

/-- A disjoint range survives. -/
theorem Contains.overlay {cur data data' : List UInt8} {offset offset' : ℕ}
    (h : Contains cur offset data)
    (hdisjoint : offset + data.length ≤ offset' ∨ offset' + data'.length ≤ offset) :
    Contains (Config.overlay cur offset' data') offset data := by
  rw [contains_iff] at h ⊢
  intro i hi
  have hlen : offset + i < cur.length := by
    by_contra hout
    have hnone := h i hi
    rw [List.getElem?_eq_none (by omega), List.getElem?_eq_getElem hi] at hnone
    cases hnone
  rw [getElem?_overlay hlen (by omega), h i hi]

end Overlay

section Files

variable [DecidableEq V] {cfg : Config V σ} {v : V} {p : Path}

/-- What was written at the path is read back. -/
def ReadsBack (b : Backend σ) (p : Path) : Prop :=
  ∀ s bytes t, b.write s p (.file bytes) = .ok t → b.readBytes t p = bytes

/-- The bytes of a file: those of the writer that owns it, else the backend's. -/
def Config.contents (cfg : Config V σ) (w : World V σ) (v : V) (p : Path) : List UInt8 :=
  match (w.owners (v, p)).bind fun o => (w.heap o).writer with
  | some wr => wr.bytes
  | none => (cfg.backend v).readBytes (w.disk v) p

/-- The file holds `c`. Its owner, if any, has its writer there, nobody else has one, and
a writer with nothing pending holds what the backend has. -/
structure Holding (cfg : Config V σ) (v : V) (p : Path) (c : List UInt8) (w : World V σ) :
  Prop where
  owner : ∀ o, w.owners (v, p) = some o → cfg.openWrite v = true ∧ (w.heap o).vfs = v ∧
    (w.heap o).path = p ∧ (w.heap o).writerPath = some p ∧
    ∃ wr, (w.heap o).writer = some wr ∧ wr.path = p ∧ wr.bytes = c ∧
      (wr.dirty = false → (cfg.backend v).readBytes (w.disk v) p = c)
  unowned : w.owners (v, p) = none → (cfg.backend v).readBytes (w.disk v) p = c
  owned : ∀ r, (w.heap r).vfs = v → (w.heap r).path = p → (w.heap r).writer ≠ none →
    w.owners (v, p) = some r

variable {c : List UInt8} {w : World V σ} {r : Ref}

omit [DecidableEq V] in
theorem Holding.contents_eq (h : Holding cfg v p c w) : cfg.contents w v p = c := by
  unfold Config.contents
  cases ho : w.owners (v, p) with
  | none => exact h.unowned ho
  | some o =>
    obtain ⟨-, -, -, -, wr, hwr, -, hbytes, -⟩ := h.owner o ho
    simp only [Option.bind_some, hwr]
    exact hbytes

/-- The fid is bound to the file. -/
def At (v : V) (p : Path) (r : Ref) (w : World V σ) : Prop := (w.heap r).vfs = v ∧
  (w.heap r).path = p

omit [DecidableEq V] in
theorem Holding.writer_bytes (h : Holding cfg v p c w) (hat : At v p r w) {wr : Writer}
    (hwr : (w.heap r).writer = some wr) :
    w.owners (v, p) = some r ∧ wr.bytes = c ∧ wr.path = p := by
  have ho := h.owned r hat.1 hat.2 (by rw [hwr]; exact Option.some_ne_none wr)
  obtain ⟨-, -, -, -, wr', hwr', hpath, hbytes, -⟩ := h.owner r ho
  cases hwr.symm.trans hwr'
  exact ⟨ho, hbytes, hpath⟩

/-- After the owner's writer is taken off, nobody has one on the file. -/
theorem Holding.release_owners (h : Holding cfg v p c w) {o : Ref} (ho : w.owners (v, p) = some o) :
    (w.release o).owners (v, p) = none ∧
      ∀ r, ((w.release o).heap r).vfs = v → ((w.release o).heap r).path = p →
        ((w.release o).heap r).writer = none := by
  obtain ⟨-, hvfs, -, hpath, -⟩ := h.owner o ho
  constructor
  · unfold World.release
    simp only [hpath, hvfs, ho, if_true, Function.update_self]
  · intro r hv hp
    by_cases heq : r = o
    · rw [heq, release_heap_self]
    · rw [release_heap_of_ne w heq] at hv hp ⊢
      by_contra hne
      have hr := h.owned r hv hp hne
      rw [ho] at hr
      exact heq (Option.some.inj hr).symm

/-- The owner's writer is off, and the backend has its bytes. -/
theorem Holding.of_release (h : Holding cfg v p c w) {o : Ref} (ho : w.owners (v, p) = some o)
    (w' : World V σ) (howners : w'.owners = (w.release o).owners)
    (hheap : w'.heap = (w.release o).heap)
    (hread : (cfg.backend v).readBytes (w'.disk v) p = c) :
    Holding cfg v p c w' ∧ w'.owners (v, p) = none := by
  obtain ⟨hnone, hwriters⟩ := h.release_owners ho
  rw [howners]
  refine ⟨⟨fun o' ho' => ?_, fun _ => hread, fun r hv hp hne => ?_⟩, hnone⟩
  · rw [howners, hnone] at ho'
    cases ho'
  · rw [hheap] at hv hp hne
    exact absurd (hwriters r hv hp) hne

/-- Closing the owner's writer leaves the contents in the backend. -/
theorem Holding.closeOwner (h : Holding cfg v p c w) (hback : ReadsBack (cfg.backend v) p)
    {o : Ref} (ho : w.owners (v, p) = some o) :
    Wp (cfg.closeWriter o) (fun _ w' => Holding cfg v p c w' ∧ w'.owners (v, p) = none ∧
      w'.heap = (w.release o).heap) (fun _ _ => True) w := by
  obtain ⟨-, hvfs, -, -, wr, hwr, hpath, hbytes, hclean⟩ := h.owner o ho
  refine wp_closeWriter cfg o (fun hdirty => ?_) fun wr' hwr' _ => ?_
  · obtain ⟨hholding, hnone⟩ := h.of_release ho (w.release o) rfl rfl (hclean (hdirty wr hwr))
    exact ⟨hholding, hnone, rfl⟩
  · cases hwr.symm.trans hwr'
    rw [hvfs, hpath, hbytes]
    refine wp_call cfg v _ (fun d hd => ?_) fun _ _ => trivial
    have hread : (cfg.backend v).readBytes (((w.release o).setDisk v d).disk v) p = c := by
      rw [setDisk_disk_self]
      exact hback _ _ _ hd
    obtain ⟨hholding, hnone⟩ := h.of_release ho ((w.release o).setDisk v d) rfl rfl hread
    exact ⟨hholding, hnone, rfl⟩

/-- A fid without a writer gives nothing up. -/
theorem Holding.release_idle (h : Holding cfg v p c w) (hat : At v p r w)
    (hidle : (w.heap r).writer = none) :
    Holding cfg v p c (w.release r) ∧ (w.release r).owners (v, p) = w.owners (v, p) := by
  have howners : (w.release r).owners (v, p) = w.owners (v, p) := by
    unfold World.release
    cases hq : (w.heap r).writerPath with
    | none => rfl
    | some q =>
      by_cases ho : w.owners ((w.heap r).vfs, q) = some r
      · simp only [if_pos ho]
        refine Function.update_of_ne ?_ ..
        rintro heq
        rw [← heq] at ho
        obtain ⟨-, -, -, -, wr, hwr, -⟩ := h.owner r ho
        rw [hidle] at hwr
        cases hwr
      · simp only [if_neg ho]
  have hother : ∀ o, w.owners (v, p) = some o → o ≠ r := by
    rintro o ho rfl
    obtain ⟨-, -, -, -, wr, hwr, -⟩ := h.owner o ho
    rw [hidle] at hwr
    cases hwr
  refine ⟨⟨fun o ho => ?_, fun ho => ?_, fun r' hv hp hne => ?_⟩, howners⟩
  · rw [howners] at ho
    rw [release_heap_of_ne w (hother o ho)]
    exact h.owner o ho
  · rw [howners] at ho
    exact h.unowned ho
  · rw [howners]
    by_cases heq : r' = r
    · rw [heq, release_heap_self] at hne
      exact absurd rfl hne
    · rw [release_heap_of_ne w heq] at hv hp hne
      exact h.owned r' hv hp hne

omit [DecidableEq V] in
theorem At.of_heap {w' : World V σ} (h : At v p r w) (hpath : (w'.heap r).path = (w.heap r).path)
    (hvfs : (w'.heap r).vfs = (w.heap r).vfs) : At v p r w' :=
  ⟨hvfs.trans h.1, hpath.trans h.2⟩

/-- Fids that were bound to the file still are. -/
def Bide (v : V) (p : Path) (w w' : World V σ) : Prop := ∀ r, At v p r w → At v p r w'

omit [DecidableEq V] in
theorem Bide.trans {w w' w'' : World V σ} (h : Bide v p w w') (h' : Bide v p w' w'') :
    Bide v p w w'' :=
  fun r hr => h' r (h r hr)

theorem bide_release (o : Ref) {w' : World V σ} (hheap : w'.heap = (w.release o).heap) :
    Bide v p w w' :=
  fun _ h => h.of_heap (by rw [hheap, release_path]) (by rw [hheap, release_vfs])

omit [DecidableEq V] in
theorem bide_setFid {r : Ref} {f : Fid V} (hvfs : f.vfs = (w.heap r).vfs)
    (hpath : f.path = (w.heap r).path) {w' : World V σ} (hheap : w'.heap = (w.setFid r f).heap) :
    Bide v p w w' := by
  intro r' hr'
  by_cases heq : r' = r
  · subst heq
    exact hr'.of_heap (by rw [hheap, setFid_heap_self, hpath])
      (by rw [hheap, setFid_heap_self, hvfs])
  · refine hr'.of_heap ?_ ?_
    · rw [hheap, setFid_heap_of_ne w f heq]
    · rw [hheap, setFid_heap_of_ne w f heq]

variable (hback : ReadsBack (cfg.backend v) p)

include hback

/-- Closing a fid's writer on the file keeps the contents. -/
theorem Holding.closeWriter (h : Holding cfg v p c w) (hat : At v p r w) :
    Wp (cfg.closeWriter r) (fun _ w' => Holding cfg v p c w' ∧ Bide v p w w' ∧
      ∀ o, w'.owners (v, p) = some o → o ≠ r ∧ w.owners (v, p) = some o)
      (fun _ _ => True) w := by
  cases hwr : (w.heap r).writer with
  | none =>
    obtain ⟨hreleased, howners⟩ := h.release_idle hat hwr
    refine wp_closeWriter cfg r (fun _ => ⟨hreleased, bide_release r rfl, fun o ho => ?_⟩)
      fun wr hwr' => ?_
    · refine ⟨?_, howners ▸ ho⟩
      rintro rfl
      obtain ⟨-, -, -, -, wr, hwr', -⟩ := h.owner o (howners ▸ ho)
      rw [hwr] at hwr'
      cases hwr'
    · rw [hwr] at hwr'
      cases hwr'
  | some wr =>
    have ho := h.owned r hat.1 hat.2 (by rw [hwr]; exact Option.some_ne_none wr)
    refine (h.closeOwner hback ho).mono (fun _ w' hw' => ?_) fun _ _ he => he
    obtain ⟨hholding, hnone, hheap⟩ := hw'
    refine ⟨hholding, bide_release r hheap, fun o ho' => ?_⟩
    rw [hnone] at ho'
    cases ho'

theorem Holding.closeConflictingWriter (h : Holding cfg v p c w) (hat : At v p r w) :
    Wp (cfg.closeConflictingWriter r) (fun _ w' => Holding cfg v p c w' ∧ Bide v p w w' ∧
      ∀ o, w'.owners (v, p) = some o → o = r) (fun _ _ => True) w := by
  unfold Config.closeConflictingWriter
  rw [wp_bind, wp_fidAt, wp_bind, wp_get, hat.1, hat.2]
  cases ho : w.owners (v, p) with
  | none => exact ⟨h, fun _ hr => hr, fun o ho' => by rw [ho] at ho'; cases ho'⟩
  | some o =>
    simp only
    rw [wp_ite]
    refine ⟨fun hne => ?_, fun heq => ⟨h, fun _ hr => hr, fun o' ho' => ?_⟩⟩
    · refine (h.closeOwner hback ho).mono (fun _ w' hw' => ?_) fun _ _ he => he
      obtain ⟨hholding, hnone, hheap⟩ := hw'
      refine ⟨hholding, bide_release o hheap, fun o' ho' => ?_⟩
      rw [hnone] at ho'
      cases ho'
    · rw [ho] at ho'
      cases ho'
      exact not_not.mp heq

omit hback in
/-- A fid without a writer takes the file over, with the bytes that are there. -/
theorem Holding.adopt (h : Holding cfg v p c w) (hat : At v p r w)
    (hstreams : cfg.openWrite v = true)
    (hfree : w.owners (v, p) = none) {wr : Writer} (hpath : wr.path = p) (hbytes : wr.bytes = c) :
    Holding cfg v p c { w.setFid r { w.heap r with
        writer := some wr, writerPath := some (w.heap r).path } with
      owners := Function.update w.owners (v, p) (some r) } := by
  refine ⟨fun o ho => ?_, fun ho => ?_, fun r' hv hp hne => ?_⟩
  · simp only [Function.update_self, Option.some.injEq] at ho
    subst ho
    simp only [setFid_heap_self]
    exact ⟨hstreams, hat.1, hat.2, by rw [hat.2], wr, rfl, hpath, hbytes, fun _ => h.unowned hfree⟩
  · simp only [Function.update_self] at ho
    cases ho
  · simp only [Function.update_self, Option.some.injEq]
    by_contra heq
    have heq' : r' ≠ r := fun hr => heq hr.symm
    simp only [setFid_heap_of_ne w _ heq'] at hv hp hne
    have ho := h.owned r' hv hp hne
    rw [hfree] at ho
    cases ho

theorem Holding.openWriter_append (h : Holding cfg v p c w) (hat : At v p r w) :
    Wp (cfg.openWriter r true) (fun _ w' => Holding cfg v p c w' ∧ Bide v p w w' ∧
      ∀ o, w'.owners (v, p) = some o → o = r ∨ w.owners (v, p) = some o)
      (fun _ _ => True) w := by
  unfold Config.openWriter
  rw [wp_bind, wp_fidAt, hat.1, hat.2, wp_ite]
  refine ⟨fun hstreams => ?_, fun _ => ⟨h, fun _ hr => hr, fun o ho => .inr ho⟩⟩
  rw [wp_bind]
  refine (h.closeConflictingWriter hback hat).mono (fun _ w₁ hw₁ => ?_) fun _ _ he => he
  obtain ⟨h₁, hbide₁, honly⟩ := hw₁
  rw [wp_bind]
  refine (h₁.closeWriter hback (hbide₁ r hat)).mono (fun _ w₂ hw₂ => ?_) fun _ _ he => he
  obtain ⟨h₂, hbide₂, hgone⟩ := hw₂
  have hbide := hbide₁.trans hbide₂
  have hfree : w₂.owners (v, p) = none := by
    cases ho : w₂.owners (v, p) with
    | none => rfl
    | some o =>
      obtain ⟨hne, hbefore⟩ := hgone o ho
      exact absurd (honly o hbefore) hne
  rw [wp_bind]
  unfold Config.openWriteAt
  simp only [if_true]
  rw [wp_ite]
  refine ⟨fun _ => ?_, fun _ => trivial⟩
  rw [wp_bind]
  refine wp_readBlob cfg v p (fun bytes hbytes => ?_) fun _ _ => trivial
  have hread : bytes = c := by
    have hbackend := h₂.unowned hfree
    unfold Backend.readBytes at hbackend
    rwa [hbytes] at hbackend
  rw [wp_pure, wp_bind, wp_modifyFid, wp_bind, wp_modify, wp_pure]
  refine ⟨h₂.adopt (hbide r hat) hstreams hfree rfl hread, hbide.trans ?_, fun o ho => .inl ?_⟩
  · exact bide_setFid (f := { w₂.heap r with
      writer := some ⟨p, bytes, false⟩, writerPath := some (w₂.heap r).path }) rfl rfl rfl
  · simp only [Function.update_self, Option.some.injEq] at ho
    exact ho.symm

omit hback in
/-- The owner's writer gets other bytes, which may still be pending. -/
theorem Holding.setWriter (h : Holding cfg v p c w) (ho : w.owners (v, p) = some r)
    {bytes : List UInt8} {dirty : Bool} {d : σ}
    (hclean : dirty = false → (cfg.backend v).readBytes d p = bytes) :
    Holding cfg v p bytes ((w.setDisk v d).setFid r { w.heap r with
      writer := some ⟨p, bytes, dirty⟩ }) := by
  obtain ⟨hstreams, hvfs, hpath, hwp, -⟩ := h.owner r ho
  have hdisk : (w.setDisk v d).disk v = d := Function.update_self ..
  refine ⟨fun o ho' => ?_, fun hnone => ?_, fun r' hv hp hne => ?_⟩
  · have heq : o = r := Option.some.inj (ho'.symm.trans ho)
    subst heq
    rw [setFid_heap_self]
    exact ⟨hstreams, hvfs, hpath, hwp, _, rfl, rfl, rfl, fun hd => by
      change (cfg.backend v).readBytes ((w.setDisk v d).disk v) p = bytes
      rw [hdisk]
      exact hclean hd⟩
  · exact absurd (ho.symm.trans hnone) (Option.some_ne_none r)
  · by_cases heq : r' = r
    · rw [heq]
      exact ho
    · rw [setFid_heap_of_ne _ _ heq] at hv hp hne
      exact h.owned r' hv hp hne

omit hback in
/-- The writer on the fid gets other bytes, which are pending. -/
theorem Holding.pending (h : Holding cfg v p c w) (hat : At v p r w) {wr : Writer}
    (hwr : (w.heap r).writer = some wr) (bytes : List UInt8) :
    Holding cfg v p bytes (w.setFid r { w.heap r with writer := some ⟨wr.path, bytes, true⟩ }) := by
  obtain ⟨ho, -, hpath⟩ := h.writer_bytes hat hwr
  have hset := h.setWriter ho (d := w.disk v)
    (show true = false → (cfg.backend v).readBytes (w.disk v) p = bytes from nofun)
  rw [setDisk_self] at hset
  rw [hpath]
  exact hset

/-- The writer's bytes are put into the backend. -/
theorem Holding.save (h : Holding cfg v p c w) (hat : At v p r w) {wr : Writer}
    (hwr : (w.heap r).writer = some wr) :
    Wp (cfg.save r v wr) (fun _ w' => Holding cfg v p c w' ∧ Bide v p w w')
      (fun _ _ => True) w := by
  obtain ⟨ho, hbytes, hpath⟩ := h.writer_bytes hat hwr
  unfold Config.save
  rw [wp_bind, hbytes, hpath]
  refine wp_call cfg v _ (fun d hd => ?_) fun _ _ => trivial
  rw [wp_modifyFid]
  refine ⟨h.setWriter ho (fun _ => hback _ _ _ hd), ?_⟩
  exact bide_setFid (f := { w.heap r with writer := some ⟨p, c, false⟩ }) rfl rfl rfl

theorem Holding.replaceBytes (h : Holding cfg v p c w) (hat : At v p r w) {wr : Writer}
    (hwr : (w.heap r).writer = some wr) (bytes : List UInt8) :
    Wp (cfg.replaceBytes r v wr bytes) (fun _ w' => Holding cfg v p bytes w' ∧
      Bide v p w w') (fun _ _ => True) w := by
  have hgrown := h.pending hat hwr bytes
  have hbide : Bide v p w
      (w.setFid r { w.heap r with writer := some ⟨wr.path, bytes, true⟩ }) :=
    bide_setFid (f := { w.heap r with writer := some ⟨wr.path, bytes, true⟩ }) rfl rfl rfl
  unfold Config.replaceBytes
  rw [wp_bind, wp_modifyFid, wp_ite]
  refine ⟨fun _ => ?_, fun _ => ⟨hgrown, hbide⟩⟩
  refine (hgrown.save hback (hbide r hat) ?_).mono (fun _ w' hw' => ⟨hw'.1, hbide.trans hw'.2⟩)
    fun _ _ he => he
  rw [setFid_heap_self]

theorem Holding.readModifyWrite (h : Holding cfg v p c w) (hat : At v p r w)
    (honly : ∀ o, w.owners (v, p) = some o → o = r) {f : Fid V} (hf : f.vfs = v ∧ f.path = p)
    (offset : ℕ) (data : List UInt8) :
    Wp (Config.twrite.readModifyWrite cfg offset data r f)
      (fun _ w' => Holding cfg v p (Config.overlay c offset data) w' ∧ Bide v p w w')
      (fun _ _ => True) w := by
  unfold Config.twrite.readModifyWrite
  rw [wp_bind]
  refine (h.closeWriter hback hat).mono (fun _ w₁ hw₁ => ?_) fun _ _ he => he
  obtain ⟨h₁, hbide, hgone⟩ := hw₁
  have hfree : w₁.owners (v, p) = none := by
    cases ho : w₁.owners (v, p) with
    | none => rfl
    | some o =>
      obtain ⟨hne, hbefore⟩ := hgone o ho
      exact absurd (honly o hbefore) hne
  rw [wp_bind, wp_readBytes, hf.1, hf.2, h₁.unowned hfree, wp_bind]
  refine wp_call cfg v _ (fun d hd => ?_) fun _ _ => trivial
  have hdisk : (w₁.setDisk v d).disk v = d := Function.update_self ..
  refine ⟨⟨fun o ho => ?_, fun _ => ?_, h₁.owned⟩, hbide⟩
  · exact absurd (hfree.symm.trans ho) (Option.some_ne_none o).symm
  · rw [hdisk]
    exact hback _ _ _ hd

theorem Holding.reopen (h : Holding cfg v p c w) (hat : At v p r w)
    (honly : ∀ o, w.owners (v, p) = some o → o = r) (f : Fid V) (offset : ℕ) :
    Wp (Config.twrite.reopen cfg offset r f) (fun _ w' => Holding cfg v p c w' ∧ Bide v p w w' ∧
      ∀ o, w'.owners (v, p) = some o → o = r) (fun _ _ => True) w := by
  unfold Config.twrite.reopen
  rw [wp_ite]
  refine ⟨fun _ => ?_, fun _ => ⟨h, fun _ hr => hr, honly⟩⟩
  rw [wp_bind]
  refine wp_stat cfg _ _ (fun found _ => ?_) fun _ _ => trivial
  rw [wp_bind]
  have hsize : Wp (Config.twrite.sizeOrZero cfg f.vfs found) (fun _ w' => w' = w)
      (fun _ _ => True) w := by
    cases found with
    | none => exact rfl
    | some rec =>
      obtain ⟨n, hn, -⟩ := sizeOf_run cfg f.vfs rec w
      change Wp (cfg.sizeOf f.vfs rec) _ _ w
      rw [Wp, hn]
  refine hsize.mono (fun size w' hw' => ?_) fun _ _ he => he
  rw [hw', wp_ite]
  refine ⟨fun _ => ?_, fun _ => ⟨h, fun _ hr => hr, honly⟩⟩
  refine (wp_map _ _).mpr ((h.openWriter_append hback hat).mono (fun _ w'' hw => ?_)
    fun _ _ he => he)
  refine ⟨hw.1, hw.2.1, fun o ho => ?_⟩
  rcases hw.2.2 o ho with heq | hbefore
  · exact heq
  · exact honly o hbefore

/-- An acknowledged Twrite lays its data over the contents of the file. -/
theorem Holding.twrite (h : Holding cfg v p c w) {cid fid : ℕ} (hr : ref w cid fid = some r)
    (hat : At v p r w) (offset : ℕ) (data : List UInt8) :
    Wp (cfg.twrite cid fid offset data)
      (fun _ w' => Holding cfg v p (Config.overlay c offset data) w' ∧ Bide v p w w')
      (fun _ _ => True) w := by
  unfold Config.twrite
  rw [wp_bind]
  refine wp_getFid cfg cid fid (fun r' hr' => ?_) fun _ => trivial
  obtain rfl : r' = r := Option.some.inj (hr'.symm.trans hr)
  rw [wp_bind]
  refine (h.closeConflictingWriter hback hat).mono (fun _ w₁ hw₁ => ?_) fun _ _ he => he
  obtain ⟨h₁, hbide₁, honly₁⟩ := hw₁
  have hat₁ := hbide₁ r' hat
  rw [wp_bind, wp_fidAt, wp_bind]
  refine (h₁.reopen hback hat₁ honly₁ _ offset).mono (fun _ w₂ hw₂ => ?_) fun _ _ he => he
  obtain ⟨h₂, hbide₂, honly₂⟩ := hw₂
  have hat₂ := hbide₂ r' hat₁
  have hrmw : Wp (Config.twrite.readModifyWrite cfg offset data r' (w₁.heap r'))
      (fun _ w' => Holding cfg v p (Config.overlay c offset data) w' ∧ Bide v p w w')
      (fun _ _ => True) w₂ :=
    (h₂.readModifyWrite hback hat₂ honly₂ hat₁ offset data).mono
      (fun _ w₃ hw₃ => ⟨hw₃.1, (hbide₁.trans hbide₂).trans hw₃.2⟩) fun _ _ he => he
  rw [wp_bind, wp_fidAt]
  cases hwr : (w₂.heap r').writer with
  | none => exact hrmw
  | some wr =>
    simp only
    rw [wp_ite]
    refine ⟨fun hoffset => ?_, fun _ => hrmw⟩
    obtain ⟨-, hbytes, -⟩ := h₂.writer_bytes hat₂ hwr
    rw [wp_bind, hat₁.1]
    refine (h₂.replaceBytes hback hat₂ hwr _).mono (fun _ w₃ hw₃ => ?_) fun _ _ he => he
    refine ⟨?_, (hbide₁.trans hbide₂).trans hw₃.2⟩
    rw [hoffset, ← hbytes, overlay_at_end]
    exact hw₃.1

end Files

end NixWasm.NinepServer
