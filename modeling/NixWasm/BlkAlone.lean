import NixWasm.BlkSaves

/-!
The steps of BlkSaves against the code they are cut from. With no other step between
its own, a writer does what the T_OUT branch of the device does, and a pack what
packDirtySectors does.
-/
namespace NixWasm.BlkSaves

open ByteStore Effects Virtio BlkDisk BlkDevice Runs

namespace Shared
variable {ι : Type}

/-- `d'` is reached from `d` by steps of the packer alone. -/
def Packs (d d' : Shared ι) : Prop := ∃ n, packStep^[n] d = d'

theorem packs_refl (d : Shared ι) : Packs d d := ⟨0, rfl⟩

theorem packs_step {d d' : Shared ι} (h : Packs d.packStep d') : Packs d d' := by
  obtain ⟨n, hn⟩ := h
  exact ⟨n + 1, hn⟩

theorem packs_trans {d d' d'' : Shared ι} (h : Packs d d') (h' : Packs d' d'') : Packs d d'' := by
  obtain ⟨n, rfl⟩ := h
  obtain ⟨m, rfl⟩ := h'
  exact ⟨m + n, Function.iterate_add_apply packStep m n d⟩

/-- The scan of the bits from `s` on. -/
theorem packs_scan (d : Shared ι) (n s : ℕ) (dirty : List ℕ)
    (hend : s + n = d.image.length / blkSector) :
    Packs { d with packer := .test s dirty }
      { d with
        bitmap := (scanDirty true (List.range' s n) d.bitmap).2
        packer := .copy [] [] (dirty ++ (scanDirty true (List.range' s n) d.bitmap).1) } := by
  induction n generalizing d s dirty with
  | zero =>
    refine packs_step ?_
    have hs : ¬ s < d.image.length / blkSector := by omega
    simp only [packStep, hs, if_false, List.range'_zero, scanDirty, List.append_nil]
    exact packs_refl _
  | succ n ih =>
    have hs : s < d.image.length / blkSector := by omega
    rw [List.range'_succ]
    refine packs_step ?_
    by_cases hdirty : isDirty d.bitmap s
    · simp only [packStep, hs, if_true, hdirty, scanDirty]
      refine packs_step ?_
      have htail := ih { d with bitmap := clearDirty d.bitmap s } (s + 1) (dirty ++ [s])
        (show s + 1 + n = d.image.length / blkSector by omega)
      simpa [packStep] using htail
    · have htail := ih d (s + 1) dirty (by omega)
      simpa [packStep, hs, hdirty, scanDirty] using htail

/-- The copy of the rest of one sector. -/
theorem packs_sector (d : Shared ι) (n : ℕ) (entries : List (ℕ × List UInt8)) (bytes : List UInt8)
    (s : ℕ) (todo : List ℕ) (hsector : s * blkSector + blkSector ≤ d.image.length)
    (hlen : bytes.length + n = blkSector)
    (hbytes : bytes ++ (d.image.drop (s * blkSector + bytes.length)).take n =
      sectorBytes d.image s) :
    Packs { d with packer := .copy entries bytes (s :: todo) }
      { d with packer := .copy (entries ++ [(s, sectorBytes d.image s)]) [] todo } := by
  induction n generalizing bytes with
  | zero =>
    have hfull : ¬ bytes.length < blkSector := by omega
    refine packs_step ?_
    simp only [List.take_zero, List.append_nil] at hbytes
    simp only [packStep, hfull, if_false]
    rw [hbytes]
    exact packs_refl _
  | succ n ih =>
    have hmore : bytes.length < blkSector := by omega
    have hbyte : ((d.image.drop (s * blkSector + bytes.length)).take 1).length = 1 := by
      simp only [List.length_take, List.length_drop]
      omega
    refine packs_step ?_
    simp only [packStep, hmore, if_true]
    refine ih _ ?_ ?_
    · rw [List.length_append, hbyte]
      omega
    · rw [List.append_assoc, ← hbytes, List.length_append, hbyte, Nat.add_comm n 1,
        List.take_add, List.drop_drop, Nat.add_assoc]

theorem packs_copies (d : Shared ι) (todo : List ℕ) (entries : List (ℕ × List UInt8))
    (hin : ∀ s ∈ todo, s * blkSector + blkSector ≤ d.image.length) :
    Packs { d with packer := .copy entries [] todo }
      { d with
        packer := .copy (entries ++ todo.map fun s => (s, sectorBytes d.image s)) [] [] } := by
  induction todo generalizing entries with
  | nil =>
    simp only [List.map_nil, List.append_nil]
    exact packs_refl _
  | cons s todo ih =>
    have hsector := packs_sector d blkSector entries [] s todo (hin s List.mem_cons_self)
      (Nat.zero_add _) (by rw [List.nil_append, List.length_nil, Nat.add_zero, sectorBytes])
    have hrest := ih (entries ++ [(s, sectorBytes d.image s)])
      fun t ht => hin t (List.mem_cons_of_mem _ ht)
    rw [List.append_assoc] at hrest
    exact packs_trans hsector hrest

/-- With no other step between its own, a pack is packDirtySectors. -/
theorem packs_packDirtySectors (d : Shared ι) (hcovers : Covers d.image d.bitmap)
    (hidle : d.packer = .idle) :
    Packs d
      { d with
        bitmap := (packDirtySectors d.image d.bitmap true).2
        overlays := d.overlays ++ [(packDirtySectors d.image d.bitmap true).1] } := by
  have hscan := packs_scan d (d.image.length / blkSector) 0 [] (Nat.zero_add _)
  rw [← List.range_eq_range', List.nil_append] at hscan
  have hin : ∀ s ∈ (scanDirty true (List.range (d.image.length / blkSector)) d.bitmap).1,
      s * blkSector + blkSector ≤ d.image.length := by
    rw [scanDirty_fst true _ List.nodup_range _ fun s hs => hcovers.bit_in (List.mem_range.mp hs)]
    exact fun s hs => hcovers.sector_in (List.mem_range.mp (List.mem_filter.mp hs).1)
  have hcopies := packs_copies
    { d with bitmap := (scanDirty true (List.range (d.image.length / blkSector)) d.bitmap).2 } _ []
    hin
  refine packs_step ?_
  simp only [packStep, hidle]
  refine packs_trans hscan (packs_trans hcopies (packs_step ?_))
  simp only [packStep, List.nil_append]
  rw [← hidle]
  exact packs_refl _

end Shared

/-- What the T_OUT loop stores, byte by byte. -/
def storedBytes (imageLength : ℕ) (memory : List UInt8) : ℕ → List VringSegment → List UInt8
  | _, [] => []
  | pos, seg :: rest =>
    if Refused imageLength memory.length pos seg then []
    else (memory.drop seg.addr).take seg.len ++ storedBytes imageLength memory (pos + seg.len) rest

theorem storedBytes_length (imageLength : ℕ) (memory : List UInt8) (segs : List VringSegment)
    (pos : ℕ) : (storedBytes imageLength memory pos segs).length =
      (storedPositions imageLength memory.length pos segs).1.length := by
  induction segs generalizing pos with
  | nil => rfl
  | cons seg rest ih =>
    unfold storedBytes storedPositions
    by_cases hrefused : Refused imageLength memory.length pos seg
    · simp [hrefused]
    · have hinside : seg.addr + seg.len ≤ memory.length := by
        by_contra hout
        exact hrefused (Or.inr (by omega))
      simp only [hrefused, if_false, List.length_append, List.length_take, List.length_drop,
        List.length_range', ih]
      omega

/-- The T_OUT loop stores the bytes of the segments before the first refused one. -/
theorem writeImage_alone (segs : List VringSegment) (pos bytes : ℕ) (h : Host Blk) :
    let stored := storedPositions h.own.image.length h.memory.length pos segs
    let data := storedBytes h.own.image.length h.memory pos segs
    let image := storeAll h.own.image (stored.1.zip data)
    Wp (writeImage pos bytes segs)
      (fun r h' => h'.own = { h.own with image } ∧
        if stored.2 then r = (sOk, bytes + data.length) else r.1 = sIoerr)
      (fun _ h' => h'.own = { h.own with image } ∧ stored.2 = false) h := by
  induction segs generalizing pos bytes h with
  | nil => simp [writeImage, storedPositions, storedBytes, storeAll]
  | cons seg rest ih =>
    simp only [writeImage, wp_bind, wp_get, wp_ite, storedPositions, storedBytes]
    refine ⟨fun hpast => ?_, fun hfits => ?_⟩
    · have hrefused : Refused h.own.image.length h.memory.length pos seg := Or.inl hpast
      simp [hrefused, storeAll]
    · simp only [memView, wp_bind, wp_get]
      cases hload : load h.memory seg.addr seg.len with
      | none =>
        have hrefused : Refused h.own.image.length h.memory.length pos seg := by
          refine Or.inr ?_
          by_contra hinside
          simp [load, Nat.le_of_not_lt hinside] at hload
        simp [hrefused, storeAll]
      | some src =>
        have hlen : src.length = seg.len := load_length hload
        have hinside : seg.addr + seg.len ≤ h.memory.length := load_inside hload
        have hsrc : src = (h.memory.drop seg.addr).take seg.len := by
          rw [load, if_pos hinside] at hload
          exact (Option.some.inj hload).symm
        have haccepted : ¬ Refused h.own.image.length h.memory.length pos seg := by
          rintro (hpast | hout) <;> omega
        have hsplice : (splice h.own.image pos src).length = h.own.image.length :=
          splice_length (by omega)
        have htail := ih (pos + seg.len) (bytes + seg.len)
          { h with own := { h.own with image := splice h.own.image pos src } }
        simp only [hsplice] at htail
        simp only [wp_pure, wp_modify, wp_bind, haccepted, if_false, ← hsrc]
        have hstore : storeAll h.own.image
            ((List.range' pos seg.len ++
              (storedPositions h.own.image.length h.memory.length (pos + seg.len) rest).1).zip
              (src ++ storedBytes h.own.image.length h.memory (pos + seg.len) rest)) =
            storeAll (splice h.own.image pos src)
              ((storedPositions h.own.image.length h.memory.length (pos + seg.len) rest).1.zip
                (storedBytes h.own.image.length h.memory (pos + seg.len) rest)) := by
          rw [List.zip_append (by rw [List.length_range', hlen]), splice_eq_storeAll _ _ _
            (by omega), storeAll, storeAll, storeAll, List.foldl_append, hlen]
        rw [hstore]
        refine htail.mono (fun r h' hr => ⟨hr.1, ?_⟩) fun _ _ hr => hr
        have hr2 := hr.2
        split at hr2
        · next hall =>
          rw [if_pos hall, hr2, List.length_append, hlen, Nat.add_assoc]
        · next hstop => rwa [if_neg hstop]

namespace Shared
variable {ι : Type} [DecidableEq ι]

/-- The stores of one writer with no other step between them. -/
theorem run_stores (d : Shared ι) (w : ι) (positions marks : List ℕ) (bytes : List UInt8)
    (hlen : bytes.length = positions.length) (hw : d.writers w = ⟨positions, marks⟩) :
    run step d (bytes.map (.store w)) =
      { d with
        image := storeAll d.image (positions.zip bytes)
        writers := Function.update d.writers w ⟨[], marks⟩ } := by
  induction bytes generalizing d positions with
  | nil =>
    have hnil : positions = [] := List.length_eq_zero_iff.mp hlen.symm
    subst hnil
    rw [← hw, Function.update_eq_self]
    rfl
  | cons b bytes ih =>
    cases positions with
    | nil => cases hlen
    | cons p positions =>
      have hstep : d.step (.store w b) =
          { d with
            image := splice d.image p [b]
            writers := Function.update d.writers w ⟨positions, marks⟩ } := by
        simp only [step, hw]
      rw [List.map_cons, run_cons, hstep, ih _ positions (Nat.succ.inj hlen)
        (Function.update_self ..)]
      simp only [Function.update_idem]
      rfl

theorem run_marks (d : Shared ι) (w : ι) (sector n : ℕ)
    (hw : d.writers w = ⟨[], List.range' sector n⟩) :
    run step d (List.replicate n (.mark w)) =
      { d with
        bitmap := markDirty d.bitmap sector n
        writers := Function.update d.writers w .done } := by
  induction n generalizing d sector with
  | zero =>
    have hdone : d.writers w = .done := hw
    rw [← hdone, Function.update_eq_self]
    rfl
  | succ n ih =>
    rw [List.range'_succ] at hw
    have hstep : d.step (.mark w) =
        { d with
          bitmap := orByte d.bitmap (sector / 8) (bitOf sector)
          writers := Function.update d.writers w ⟨[], List.range' (sector + 1) n⟩ } := by
      simp only [step, hw]
    rw [List.replicate_succ, run_cons, hstep, ih _ (sector + 1) (Function.update_self ..)]
    simp only [Function.update_idem]
    rfl

/-- With no other step between its own, the steps of a writer are the T_OUT request
of the device. -/
theorem run_writeRequest (d : Shared ι) (w : ι) (hdone : d.writers w = .done) (h : Host Blk)
    (hown : h.own = ⟨d.image, false, some d.bitmap⟩) (sector : ℕ) (segs : List VringSegment) :
    ∃ (bytes : List UInt8) (n : ℕ),
      let d' := run step d (.begin w h.memory.length sector segs ::
        (bytes.map (.store w) ++ List.replicate n (.mark w)))
      d'.writers w = .done ∧
        (final (writeRequest sector segs h)).own = ⟨d'.image, false, some d'.bitmap⟩ := by
  have hloop := writeImage_alone segs (sector * blkSector) 0 h
  rw [hown] at hloop
  dsimp only at hloop
  set stored := storedPositions d.image.length h.memory.length (sector * blkSector) segs
    with hstored
  set data := storedBytes d.image.length h.memory (sector * blkSector) segs with hdata
  have hlen : data.length = stored.1.length := storedBytes_length ..
  set n := if stored.2 then sectorsOf data.length else 0 with hn
  have hsteps : writeSteps d.image.length h.memory.length sector segs =
      ⟨stored.1, List.range' sector n⟩ := by
    simp only [writeSteps, ← hstored, hn, hlen]
    split <;> simp
  refine ⟨data, n, ?_⟩
  have hbegin : d.step (.begin w h.memory.length sector segs) =
      { d with writers := Function.update d.writers w ⟨stored.1, List.range' sector n⟩ } := by
    simp only [step, hdone, if_true, hsteps]
  dsimp only
  rw [run_cons, hbegin, run_append, run_stores _ w stored.1 (List.range' sector n) data hlen
    (Function.update_self ..), run_marks _ w sector n (Function.update_self ..)]
  refine ⟨Function.update_self .., ?_⟩
  have hrequest : Wp (writeRequest sector segs)
      (fun _ h' => h'.own = ⟨storeAll d.image (stored.1.zip data), false,
        some (markDirty d.bitmap sector n)⟩)
      (fun _ h' => h'.own = ⟨storeAll d.image (stored.1.zip data), false,
        some (markDirty d.bitmap sector n)⟩) h := by
    simp only [writeRequest, wp_bind, wp_get, wp_ite, hown]
    refine ⟨fun hro => absurd hro (by simp), fun _ => ?_⟩
    refine hloop.mono (fun r h' hr => ?_) fun _ h' hr => ?_
    · obtain ⟨hblk, hstatus⟩ := hr
      simp only [wp_ite, wp_bind, wp_modify, wp_pure, hblk]
      by_cases hall : stored.2 = true
      · rw [if_pos hall, Nat.zero_add] at hstatus
        rw [if_pos hall] at hn
        rw [hstatus]
        refine ⟨fun _ => by rw [hn]; rfl, fun hnone => ?_⟩
        have hzero : data.length = 0 := by
          by_contra hne
          exact hnone ⟨rfl, Nat.pos_of_ne_zero hne⟩
        rw [hn, hzero]
        rfl
      · rw [if_neg hall] at hstatus
        rw [if_neg hall] at hn
        rw [hn]
        refine ⟨fun hmark => ?_, fun _ => rfl⟩
        rw [hstatus] at hmark
        exact absurd hmark.1 (by decide)
    · rw [hr.1]
      have hnone : n = 0 := by rw [hn, if_neg (by simp [hr.2])]
      rw [hnone]
      rfl
  exact Wp.final hrequest

end Shared

end NixWasm.BlkSaves
