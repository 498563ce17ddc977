import NixWasm.NinepAtomic
import NixWasm.NinepReplySize

/-!
Reading a directory page by page. A client starts at offset 0, takes whole dirents out of each
reply and asks again from the last one's offset, until a reply is empty. The listing is loaded
at offset 0 and kept by the fid, and its entries are numbered from 1, so an offset is the number
of entries the client has. An entry travels as the UTF-8 bytes of its name behind a 16-bit
length.
-/
namespace NixWasm.NinepServer

open Bytes Bytes.Reader Unicode Vfs NinepCodec Effects

variable {V σ : Type} [DecidableEq V]

/-- A dirent as a client finds it: qid[13] offset[8] type[1] name[s]. -/
structure ClientDirent where
  offset : ℕ
  type : ℕ
  name : List UInt8
deriving DecidableEq

def readEntry : Reader ClientDirent := do
  let _ ← exact 13
  let offset ← le 8
  let type ← le 1
  let n ← le 2
  return ⟨offset, type, ← exact n⟩

/-- The dirents in the data of a reply; none when the data ends within one. -/
def readEntriesFrom : ℕ → List UInt8 → Option (List ClientDirent)
  | _, [] => some []
  | 0, _ :: _ => none
  | fuel + 1, b :: bs => do
    let (e, rest) ← readEntry (b :: bs)
    return e :: (← readEntriesFrom fuel rest)

def readEntries (data : List UInt8) : Option (List ClientDirent) := readEntriesFrom data.length data

/-- One reply that was not empty. -/
structure Page where
  count : ℕ
  data : List UInt8
  entries : List ClientDirent

/-- What a client does with the data of a reply: it stops when the data is empty, and otherwise
goes on from the last dirent. No pages when the data does not consist of dirents. -/
def turnPage (count : ℕ) (data : List UInt8) (next : ℕ → Handler V σ (Option (List Page))) :
    Handler V σ (Option (List Page)) := do
  match readEntries data with
  | none => return none
  | some entries =>
    match entries.getLast? with
    | none => return some []
    | some last => return (← next last.offset).map (⟨count, data, entries⟩ :: ·)

/-- The requests of a client that reads a directory from an offset on, with their counts. No
pages when the counts are used up before an empty reply. -/
def Config.readAll (cfg : Config V σ) (cid fid : ℕ) : ℕ → List ℕ → Handler V σ (Option (List Page))
  | _, [] => return none
  | offset, count :: counts => do
    match ← cfg.dispatch cid (.treaddir fid offset count) with
    | .rreaddir data => turnPage count data fun next => cfg.readAll cid fid next counts
    | _ => return none

/-- UTF-8 text, a leading byte order mark included. -/
def utf8Text (bytes : List UInt8) : Utf16 := (decodeFrom none bytes).flatMap toUnits

/-- The entry shows a numbered name. -/
structure ClientDirent.Shows (e : ClientDirent) (item : ℕ × Utf16) : Prop where
  offset : e.offset = item.1
  bytes : e.name = utf8Encode item.2
  text : utf8Text e.name = item.2

/-- The reply is no longer than the client asked, and whole dirents. -/
def Page.Whole (p : Page) : Prop := p.data.length ≤ p.count ∧ readEntries p.data = some p.entries

/-- The loop of a client ends, and it got every name of the directory once, in order. -/
def Config.Paginates (cfg : Config V σ) (w : World V σ) (cid fid : ℕ) (kids : List VfsRecord)
    (counts : List ℕ) : Prop :=
  Wp (cfg.readAll cid fid 0 counts)
    (fun result _ => ∃ pages, result = some pages ∧ (∀ p ∈ pages, p.Whole) ∧
      List.Forall₂ ClientDirent.Shows (pages.flatMap Page.entries) (numbered kids))
    (fun _ _ => False) w

/-- The name has a UTF-8 form whose length fits its field. -/
def Sendable (name : Utf16) : Prop := WellFormed name ∧ (utf8Encode name).length < 2 ^ 16

/-- The backend finds the directory of a fid, can look its parent up and lists its entries. -/
structure Config.Lists (cfg : Config V σ) (w : World V σ) (r : Ref) (kids : List VfsRecord) :
    Prop where
  self : ∃ rec, (cfg.backend (w.heap r).vfs).stat (w.disk (w.heap r).vfs) (w.heap r).path =
    .ok (some rec)
  parent : ∃ found, (cfg.backend (w.heap r).vfs).stat (w.disk (w.heap r).vfs)
    (parentOf (w.heap r).path) = .ok found
  list : (cfg.backend (w.heap r).vfs).list (w.disk (w.heap r).vfs) (w.heap r).path = .ok kids

section Wire

theorem utf8Text_utf8Encode_eq_iff (s : Utf16) : utf8Text (utf8Encode s) = s ↔ WellFormed s := by
  rw [utf8Text, decodeFrom_utf8Encode, flatMap_toUnits_eq_iff]

/-- What is read off a packed dirent whose name fits. -/
def Dirent.entry (d : Dirent) : ClientDirent := ⟨d.offset, d.type % 2 ^ 8, utf8Encode d.name⟩

/-- The number and the length of a dirent fit their fields. -/
structure Dirent.Packs (d : Dirent) : Prop where
  offset : d.offset < 2 ^ 64
  name : (utf8Encode d.name).length < 2 ^ 16

theorem reads_readEntry {d : Dirent} (h : d.Packs) : Reads readEntry (packDirent d) d.entry := by
  have hqid : (Write.qid d.qid).length = 13 := by
    simp [Write.qid, Write.u8, Write.u32, Write.u64]
  have hskip : Reads (exact 13) (Write.qid d.qid) (Write.qid d.qid) := by
    have hexact := reads_exact (Write.qid d.qid)
    rwa [hqid] at hexact
  have hpack : packDirent d = Write.qid d.qid ++ (leBytes 8 d.offset ++ (leBytes 1 d.type ++
      (leBytes 2 (utf8Encode d.name).length ++ utf8Encode d.name))) := by
    simp [packDirent, Write.u64, Write.u8, Write.str, Write.u16]
  rw [hpack]
  refine reads_bind hskip (reads_bind (reads_le 8 _ h.offset) (reads_bind (reads_le_mod 1 _) ?_))
  exact reads_bind (reads_le 2 _ h.name) (reads_last (reads_exact _))

theorem readEntriesFrom_packed {ds : List Dirent} (h : ∀ d ∈ ds, d.Packs) (fuel : ℕ)
    (hfuel : (ds.flatMap packDirent).length ≤ fuel) :
    readEntriesFrom fuel (ds.flatMap packDirent) = some (ds.map Dirent.entry) := by
  induction ds generalizing fuel with
  | nil => cases fuel <;> rfl
  | cons d ds ih =>
    have hlen := packDirent_length d
    rw [List.flatMap_cons] at hfuel ⊢
    rw [List.length_append] at hfuel
    cases hbytes : packDirent d ++ ds.flatMap packDirent with
    | nil =>
      rw [List.append_eq_nil_iff.mp hbytes |>.1] at hlen
      simp at hlen
      omega
    | cons b bs =>
      cases fuel with
      | zero => omega
      | succ fuel =>
        have hread := reads_readEntry (h d List.mem_cons_self) (ds.flatMap packDirent)
        rw [hbytes] at hread
        have hrest := ih (fun d' hd' => h d' (List.mem_cons_of_mem _ hd')) fuel (by omega)
        rw [readEntriesFrom, hread]
        change (readEntriesFrom fuel (ds.flatMap packDirent)).bind _ = _
        rw [hrest]
        rfl

/-- The packed dirents of a reply are read back. -/
theorem readEntries_packed {ds : List Dirent} (h : ∀ d ∈ ds, d.Packs) :
    readEntries (ds.flatMap packDirent) = some (ds.map Dirent.entry) :=
  readEntriesFrom_packed h _ (le_refl _)

/-- Whatever the data is, a name that is read has a length of 16 bits. -/
theorem readEntry_name_lt {bs rest : List UInt8} {e : ClientDirent}
    (h : readEntry bs = some (e, rest)) : e.name.length < 2 ^ 16 := by
  obtain ⟨qid, afterQid, -, h⟩ := bind_eq_some h
  obtain ⟨offset, afterOffset, -, h⟩ := bind_eq_some h
  obtain ⟨type, afterType, -, h⟩ := bind_eq_some h
  obtain ⟨n, afterLength, hn, h⟩ := bind_eq_some h
  obtain ⟨name, afterName, hname, h⟩ := bind_eq_some h
  cases h
  have hlt : n < 2 ^ 16 := by
    rw [(le_eq_some hn).1]
    refine (leValue_lt _).trans_le (Nat.pow_le_pow_right (by decide) ?_ : 256 ^ _ ≤ 256 ^ 2)
    exact List.length_take_le ..
  rw [exact] at hname
  split at hname
  · cases hname
    exact (List.length_take_le ..).trans_lt hlt
  · cases hname

theorem readEntriesFrom_name_lt {fuel : ℕ} {bs : List UInt8} {es : List ClientDirent}
    (h : readEntriesFrom fuel bs = some es) : ∀ e ∈ es, e.name.length < 2 ^ 16 := by
  induction fuel generalizing bs es with
  | zero =>
    cases bs with
    | nil =>
      cases h
      simp
    | cons b bs => cases h
  | succ fuel ih =>
    cases bs with
    | nil =>
      cases h
      simp
    | cons b bs =>
      obtain ⟨⟨e, rest⟩, he, h⟩ := Option.bind_eq_some_iff.mp h
      obtain ⟨more, hmore, h⟩ := Option.bind_eq_some_iff.mp h
      cases h
      intro e' he'
      rcases List.mem_cons.mp he' with rfl | hin
      · exact readEntry_name_lt he
      · exact ih hmore e' hin

end Wire

section Pages

/-- Entries the client has are passed over. -/
theorem fitting_skip {offset count total : ℕ} {done rest : List Dirent}
    (h : ∀ d ∈ done, d.offset ≤ offset) :
    Config.fitting offset count total (done ++ rest) = Config.fitting offset count total rest := by
  induction done with
  | nil => rfl
  | cons d done ih =>
    rw [List.cons_append, Config.fitting, if_pos (h d List.mem_cons_self)]
    exact ih fun d' hd' => h d' (List.mem_cons_of_mem _ hd')

/-- Of the entries after the offset a reply takes as many as fit. -/
theorem fitting_page {offset count total : ℕ} {rest : List Dirent}
    (h : ∀ d ∈ rest, offset < d.offset) (htotal : total ≤ count) :
    ∃ page more, rest = page ++ more ∧
      Config.fitting offset count total rest = page.flatMap packDirent ∧
      total + (page.flatMap packDirent).length ≤ count ∧
      (page = [] → ∀ d ∈ rest.head?, count < total + (packDirent d).length) := by
  induction rest generalizing total with
  | nil => exact ⟨[], [], rfl, rfl, by simpa using htotal, by simp⟩
  | cons d rest ih =>
    have hd : ¬ d.offset ≤ offset := Nat.not_le_of_lt (h d List.mem_cons_self)
    rw [Config.fitting, if_neg hd]
    by_cases hfull : total + (packDirent d).length > count
    · simp only [if_pos hfull]
      exact ⟨[], d :: rest, rfl, rfl, by simpa using htotal, fun _ d' hd' => by
        cases hd'
        exact hfull⟩
    · simp only [if_neg hfull]
      obtain ⟨page, more, hsplit, hfitting, hfits, -⟩ :=
        ih (fun d' hd' => h d' (List.mem_cons_of_mem _ hd')) (Nat.le_of_not_lt hfull)
      refine ⟨d :: page, more, by rw [hsplit]; rfl, by rw [hfitting]; rfl, ?_, by simp⟩
      rw [List.flatMap_cons, List.length_append]
      omega

/-- The dirents of a listing carry their numbers. -/
def Numbered (dirents : List Dirent) : Prop :=
  ∀ i d, dirents[i]? = some d → d.offset = i + 1

theorem Numbered.done_le {done rest : List Dirent} (h : Numbered (done ++ rest)) :
    ∀ d ∈ done, d.offset ≤ done.length := by
  intro d hd
  obtain ⟨i, hi⟩ := List.mem_iff_getElem?.mp hd
  have hlt : i < done.length := (List.getElem?_eq_some_iff.mp hi).1
  rw [h i d (by rw [List.getElem?_append_left hlt, hi])]
  omega

theorem Numbered.rest_lt {done rest : List Dirent} (h : Numbered (done ++ rest)) :
    ∀ d ∈ rest, done.length < d.offset := by
  intro d hd
  obtain ⟨i, hi⟩ := List.mem_iff_getElem?.mp hd
  rw [h (done.length + i) d
    (by rw [List.getElem?_append_right (by omega), Nat.add_sub_cancel_left, hi])]
  omega

theorem Numbered.last {done page more : List Dirent} {d : Dirent}
    (h : Numbered (done ++ (page ++ more))) (hd : page.getLast? = some d) :
    d.offset = done.length + page.length := by
  have hpos : page.length ≠ 0 := by
    intro hzero
    rw [List.length_eq_zero_iff.mp hzero] at hd
    cases hd
  rw [List.getLast?_eq_getElem?] at hd
  have hget : (done ++ (page ++ more))[done.length + (page.length - 1)]? = some d := by
    rw [List.getElem?_append_right (by omega), Nat.add_sub_cancel_left,
      List.getElem?_append_left (by omega), hd]
  rw [h _ d hget]
  omega

/-- What the client got: whole replies that hold the dirents, in order. -/
def Got (rest : List Dirent) (result : Option (List Page)) : Prop :=
  ∃ pages, result = some pages ∧ (∀ p ∈ pages, p.Whole) ∧
    pages.flatMap Page.entries = rest.map Dirent.entry

omit [DecidableEq V] in
/-- A reply to a client that has the entries of `done`: the next ones are on its page. -/
theorem wp_turnPage {w : World V σ} {count : ℕ} {done rest : List Dirent}
    {next : ℕ → Handler V σ (Option (List Page))} (hnum : Numbered (done ++ rest))
    (hpacks : ∀ d ∈ rest, d.Packs) (hcount : ∀ d ∈ rest, (packDirent d).length ≤ count)
    (hnext : ∀ page more, page ≠ [] → rest = page ++ more →
      Wp (next (done.length + page.length)) (fun result _ => Got more result)
        (fun _ _ => False) w) :
    Wp (turnPage count (Config.fitting done.length count 0 (done ++ rest)) next)
      (fun result _ => Got rest result) (fun _ _ => False) w := by
  rw [fitting_skip hnum.done_le]
  obtain ⟨page, more, hsplit, hfitting, hfits, hfirst⟩ :=
    fitting_page hnum.rest_lt (Nat.zero_le count)
  have hread : readEntries (page.flatMap packDirent) = some (page.map Dirent.entry) :=
    readEntries_packed fun d hd => hpacks d (by rw [hsplit]; exact List.mem_append_left _ hd)
  rw [hfitting, turnPage, hread]
  dsimp only
  rw [List.getLast?_map]
  cases hlast : page.getLast? with
  | none =>
    have hempty : page = [] := List.getLast?_eq_none_iff.mp hlast
    have hrest : rest = [] := by
      cases rest with
      | nil => rfl
      | cons d rest =>
        have hover := hfirst hempty d rfl
        have hroom := hcount d List.mem_cons_self
        omega
    rw [hrest]
    exact ⟨[], rfl, by simp, rfl⟩
  | some last =>
    have hne : page ≠ [] := by
      rintro rfl
      cases hlast
    rw [hsplit] at hnum
    have hoffset : last.entry.offset = done.length + page.length := hnum.last hlast
    dsimp only [Option.map_some]
    rw [hoffset, wp_bind]
    refine (hnext page more hne hsplit).mono (fun result w' hgot => ?_) fun _ _ hfalse => hfalse
    obtain ⟨pages, rfl, hwhole, hentries⟩ := hgot
    refine ⟨⟨count, page.flatMap packDirent, page.map Dirent.entry⟩ :: pages, rfl, ?_, ?_⟩
    · intro p hp
      rcases List.mem_cons.mp hp with rfl | hin
      · exact ⟨by simpa using hfits, hread⟩
      · exact hwhole p hin
    · rw [List.flatMap_cons, hentries, hsplit, List.map_append]

end Pages

section Listing

variable {cfg : Config V σ} {w : World V σ} {cid fid : ℕ} {r : Ref} {kids : List VfsRecord}

/-- A fid that keeps its listing answers from it, and nothing changes. -/
theorem wp_treaddir_cached {dirents : List Dirent} {offset count : ℕ}
    {Q : Body → World V σ → Prop} {R : Fault → World V σ → Prop}
    (hfid : ref w cid fid = some r) (hcached : (w.heap r).dirents = some dirents)
    (hoffset : offset ≠ 0) (h : Q (.rreaddir (Config.fitting offset count 0 dirents)) w) :
    Wp (cfg.dispatch cid (.treaddir fid offset count)) Q R w := by
  change Wp (cfg.treaddir cid fid offset count) Q R w
  rw [Config.treaddir, wp_bind]
  refine wp_getFid cfg cid fid (fun r' hr' => ?_) fun hnone => ?_
  · cases hfid.symm.trans hr'
    rw [wp_bind, wp_fidAt, hcached]
    dsimp only
    rw [if_neg hoffset]
    exact h
  · rw [hfid] at hnone
    cases hnone

/-- The rest of a directory, for a client that has the entries of `done`. -/
theorem wp_readAll_from {done rest : List Dirent} {counts : List ℕ} (hfid : ref w cid fid = some r)
    (hcached : (w.heap r).dirents = some (done ++ rest)) (hnum : Numbered (done ++ rest))
    (hdone : done ≠ []) (hpacks : ∀ d ∈ rest, d.Packs)
    (hcounts : ∀ count ∈ counts, ∀ d ∈ rest, (packDirent d).length ≤ count)
    (henough : rest.length < counts.length) :
    Wp (cfg.readAll cid fid done.length counts) (fun result _ => Got rest result)
      (fun _ _ => False) w := by
  induction counts generalizing done rest with
  | nil => cases henough
  | cons count counts ih =>
    rw [Config.readAll, wp_bind]
    have hoffset : done.length ≠ 0 := fun hzero => hdone (List.length_eq_zero_iff.mp hzero)
    refine wp_treaddir_cached hfid hcached hoffset ?_
    refine wp_turnPage hnum hpacks (hcounts count List.mem_cons_self)
      fun page more hpage hsplit => ?_
    rw [hsplit, ← List.append_assoc] at hcached hnum
    have hlen := List.length_pos_iff.mpr hpage
    rw [hsplit, List.length_append, List.length_cons] at henough
    rw [← List.length_append]
    refine ih hcached hnum (by simp [hdone]) (fun d hd => ?_) (fun c hc d hd => ?_) (by omega)
    · exact hpacks d (by rw [hsplit]; exact List.mem_append_right _ hd)
    · exact hcounts c (List.mem_cons_of_mem _ hc) d
        (by rw [hsplit]; exact List.mem_append_right _ hd)

/-- The listing that the first request loads, with its numbers, and the fid that keeps it. -/
theorem wp_treaddir_first {count : ℕ} {Q : Body → World V σ → Prop}
    {R : Fault → World V σ → Prop} (hfid : ref w cid fid = some r) (hlists : cfg.Lists w r kids)
    (h : ∀ dirents w', (dirents.map fun d => (d.offset, d.name)) = numbered kids →
      ref w' cid fid = some r → (w'.heap r).dirents = some dirents →
      Q (.rreaddir (Config.fitting 0 count 0 dirents)) w') :
    Wp (cfg.dispatch cid (.treaddir fid 0 count)) Q R w := by
  have hreload : Wp (Config.treaddir.reload cfg 0 count r (w.heap r)) Q R w := by
    obtain ⟨hself, ⟨parent, hparent⟩, hlist⟩ := hlists
    have hquiet : Wp (cfg.loadDirents (w.heap r).vfs (w.heap r).path) (fun _ _ => True) R w :=
      wp_loadDirents hself (by simp [listable, hparent, hlist])
    have hnames : Wp (cfg.loadDirents (w.heap r).vfs (w.heap r).path)
        (fun dirents _ => ∃ kids, (cfg.backend (w.heap r).vfs).list (w.disk (w.heap r).vfs)
          (w.heap r).path = .ok kids ∧ dirents.map (fun d => (d.offset, d.name)) = numbered kids)
        (fun _ _ => True) w := loadDirents_names _ _
    have hinterns : Interns fun w' : World V σ => w'.conns = w.conns := fun _ _ _ hw => hw
    have hkeeps := keeps_loadDirents cfg hinterns (w.heap r).vfs (w.heap r).path w rfl
    rw [Config.treaddir.reload, wp_bind]
    refine (hquiet.and (hnames.and hkeeps)).mono (fun dirents w' hboth => ?_)
      fun _ _ hthrow => hthrow.1
    obtain ⟨-, ⟨kids', hkids', hnumbered⟩, hconns⟩ := hboth
    rw [hlist] at hkids'
    cases hkids'
    rw [wp_bind, wp_modifyFid, wp_pure]
    refine h dirents _ hnumbered ?_ ?_
    · change ((w'.conns.get cid).bind fun c => c.fids.get fid) = some r
      rw [hconns]
      exact hfid
    · simp [World.setFid]
  change Wp (cfg.treaddir cid fid 0 count) Q R w
  rw [Config.treaddir, wp_bind]
  refine wp_getFid cfg cid fid (fun r' hr' => ?_) fun hnone => ?_
  · cases hfid.symm.trans hr'
    rw [wp_bind, wp_fidAt]
    cases (w.heap r).dirents with
    | none => exact hreload
    | some dirents => exact hreload
  · rw [hfid] at hnone
    cases hnone

omit [DecidableEq V] in
theorem numbered_getElem? {kids : List VfsRecord} {i n : ℕ} {name : Utf16}
    (h : (numbered kids)[i]? = some (n, name)) : n = i + 1 := by
  rw [numbered, List.getElem?_map, List.getElem?_zipIdx] at h
  obtain ⟨e, he, hpair⟩ := Option.map_eq_some_iff.mp h
  obtain ⟨a, -, rfl⟩ := Option.map_eq_some_iff.mp he
  simp only [Prod.mk.injEq, Nat.zero_add] at hpair
  exact hpair.1.symm

/-- A loaded listing is numbered. -/
theorem numbered_of_names {dirents : List Dirent}
    (h : (dirents.map fun d => (d.offset, d.name)) = numbered kids) : Numbered dirents := by
  intro i d hd
  have hitem : (numbered kids)[i]? = some (d.offset, d.name) := by
    rw [← h, List.getElem?_map, hd]
    rfl
  exact numbered_getElem? hitem

end Listing

section Pagination

variable {cfg : Config V σ} {w : World V σ} {cid fid : ℕ} {r : Ref} {kids : List VfsRecord}

theorem numbered_length (kids : List VfsRecord) : (numbered kids).length = kids.length + 2 := by
  simp [numbered]

/-- The names of a listing. -/
theorem mem_numbered_name {kids : List VfsRecord} {item : ℕ × Utf16} (h : item ∈ numbered kids) :
    item.2 = ofString "." ∨ item.2 = ofString ".." ∨ ∃ kid ∈ kids, item.2 = kid.name := by
  obtain ⟨⟨name, i⟩, he, rfl⟩ := List.mem_map.mp h
  have hname : name ∈ ofString "." :: ofString ".." :: kids.map VfsRecord.name :=
    List.mem_iff_getElem?.mpr ⟨i, List.mem_zipIdx_iff_getElem?.mp he⟩
  rcases List.mem_cons.mp hname with hself | hrest
  · exact Or.inl hself
  · rcases List.mem_cons.mp hrest with hparent | hkid
    · exact Or.inr (Or.inl hparent)
    · obtain ⟨kid, hkid, heq⟩ := List.mem_map.mp hkid
      exact Or.inr (Or.inr ⟨kid, hkid, heq.symm⟩)

theorem kid_mem_numbered {kids : List VfsRecord} {kid : VfsRecord} (h : kid ∈ kids) :
    ∃ n, (n, kid.name) ∈ numbered kids := by
  have hname : kid.name ∈ ofString "." :: ofString ".." :: kids.map VfsRecord.name := by
    simp only [List.mem_cons, List.mem_map]
    exact Or.inr (Or.inr ⟨kid, h, rfl⟩)
  obtain ⟨i, hi⟩ := List.mem_iff_getElem?.mp hname
  refine ⟨i + 1, List.mem_map.mpr ⟨(kid.name, i), ?_, rfl⟩⟩
  exact List.mem_zipIdx_iff_getElem?.mpr hi

theorem sendable_dots : Sendable (ofString ".") ∧ Sendable (ofString "..") := by
  have hdot : ofString "." = [0x2E] := by decide
  have hdots : ofString ".." = [0x2E, 0x2E] := by decide
  refine ⟨⟨?_, by decide⟩, ⟨?_, by decide⟩⟩
  · simp [hdot, WellFormed, isHigh, isLow]
  · simp [hdots, WellFormed, isHigh, isLow]

theorem exists_of_mem_right {α β : Type} {R : α → β → Prop} {as : List α} {bs : List β}
    (h : List.Forall₂ R as bs) {b : β} (hb : b ∈ bs) : ∃ a ∈ as, R a b := by
  induction h with
  | nil => cases hb
  | cons hab _ ih =>
    rcases List.mem_cons.mp hb with rfl | hin
    · exact ⟨_, List.mem_cons_self, hab⟩
    · obtain ⟨a, ha, hR⟩ := ih hin
      exact ⟨a, List.mem_cons_of_mem _ ha, hR⟩

/-- A client that got every name got sendable ones. -/
theorem sendable_of_paginates {counts : List ℕ} (h : cfg.Paginates w cid fid kids counts) :
    ∀ kid ∈ kids, Sendable kid.name := by
  intro kid hkid
  obtain ⟨result, w', -, pages, -, hwhole, hshows⟩ := h.returned
  obtain ⟨n, hn⟩ := kid_mem_numbered hkid
  obtain ⟨e, he, hshown⟩ := exists_of_mem_right hshows hn
  obtain ⟨p, hp, hep⟩ := List.mem_flatMap.mp he
  refine ⟨?_, ?_⟩
  · rw [← utf8Text_utf8Encode_eq_iff, ← hshown.bytes]
    exact hshown.text
  · have hlt := readEntriesFrom_name_lt (hwhole p hp).2 e hep
    rwa [hshown.bytes] at hlt

/-- Sendable names reach the client, whatever counts it asks with. -/
theorem paginates_of_sendable (hfid : ref w cid fid = some r) (hlists : cfg.Lists w r kids)
    (hlength : kids.length + 2 < 2 ^ 32) {counts : List ℕ}
    (hcounts : ∀ count ∈ counts, ∀ item ∈ numbered kids, 24 + (utf8Encode item.2).length ≤ count)
    (henough : kids.length + 3 ≤ counts.length) (hsend : ∀ kid ∈ kids, Sendable kid.name) :
    cfg.Paginates w cid fid kids counts := by
  have hitem : ∀ item ∈ numbered kids, Sendable item.2 := by
    intro item hin
    rcases mem_numbered_name hin with hself | hparent | ⟨kid, hkid, hname⟩
    · rw [hself]
      exact sendable_dots.1
    · rw [hparent]
      exact sendable_dots.2
    · rw [hname]
      exact hsend kid hkid
  cases counts with
  | nil => simp at henough
  | cons count counts =>
    rw [Config.Paginates, Config.readAll, wp_bind]
    refine wp_treaddir_first hfid hlists fun dirents w' hnames hfid' hkept => ?_
    have hmem : ∀ d ∈ dirents, (d.offset, d.name) ∈ numbered kids := fun d hd =>
      hnames ▸ List.mem_map_of_mem (f := fun d : Dirent => (d.offset, d.name)) hd
    have hnum : Numbered dirents := numbered_of_names hnames
    have hsize : dirents.length = kids.length + 2 := by
      rw [← numbered_length, ← hnames, List.length_map]
    have hpacks : ∀ d ∈ dirents, d.Packs := by
      intro d hd
      obtain ⟨i, hi⟩ := List.mem_iff_getElem?.mp hd
      have hlt := (List.getElem?_eq_some_iff.mp hi).1
      have hoffset := hnum i d hi
      exact ⟨by omega, (hitem _ (hmem d hd)).2⟩
    have hfits : ∀ c ∈ count :: counts, ∀ d ∈ dirents, (packDirent d).length ≤ c := by
      intro c hc d hd
      rw [packDirent_length]
      exact hcounts c hc _ (hmem d hd)
    have hgot :
      Wp (turnPage count (Config.fitting ([] : List Dirent).length count 0 ([] ++ dirents))
        fun next => cfg.readAll cid fid next counts) (fun result _ => Got dirents result)
        (fun _ _ => False) w' := by
      refine wp_turnPage hnum hpacks (hfits count List.mem_cons_self)
        fun page more hpage hsplit => ?_
      have hpos := List.length_pos_iff.mpr hpage
      have hparts := congrArg List.length hsplit
      rw [List.length_append] at hparts
      rw [List.length_cons] at henough
      rw [hsplit] at hkept hnum
      rw [List.length_nil, Nat.zero_add]
      have hmore : ∀ d ∈ more, d ∈ dirents := fun d hd => hsplit ▸ List.mem_append_right _ hd
      exact wp_readAll_from hfid' hkept hnum hpage (fun d hd => hpacks d (hmore d hd))
        (fun c hc d hd => hfits c (List.mem_cons_of_mem _ hc) d (hmore d hd)) (by omega)
    refine hgot.mono (fun result w'' hgot => ?_) fun _ _ hfalse => hfalse
    obtain ⟨pages, rfl, hwhole, hentries⟩ := hgot
    refine ⟨pages, rfl, hwhole, ?_⟩
    rw [hentries, ← hnames, List.forall₂_map_left_iff, List.forall₂_map_right_iff,
      List.forall₂_same]
    intro d hd
    exact ⟨rfl, rfl, (utf8Text_utf8Encode_eq_iff d.name).mpr (hitem _ (hmem d hd)).1⟩

end Pagination

/-- A client that reads a directory through a fid, with any counts that hold each packed entry,
gets '.', '..' and every child once, in order, in whole replies, and its loop ends, exactly when
every child's name has a UTF-8 form of less than 65536 bytes. -/
theorem readdir_paginates_iff (cfg : Config V σ) (w : World V σ) (cid fid : ℕ) (r : Ref)
    (kids : List VfsRecord) (counts : List ℕ) (hfid : ref w cid fid = some r)
    (hlists : cfg.Lists w r kids) (hlength : kids.length + 2 < 2 ^ 32)
    (hcounts : ∀ count ∈ counts, ∀ item ∈ numbered kids, 24 + (utf8Encode item.2).length ≤ count)
    (henough : kids.length + 3 ≤ counts.length) :
    cfg.Paginates w cid fid kids counts ↔ ∀ kid ∈ kids, Sendable kid.name :=
  ⟨sendable_of_paginates, paginates_of_sendable hfid hlists hlength hcounts henough⟩

section Instances

/-- A file of the root directory. -/
def childNamed (name : Component) : VfsRecord :=
  ⟨none, .file, name.1, [name], none, some 0, none⟩

/-- A read-only server whose root directory has these entries. -/
def servingDirectory (kids : List VfsRecord) : Config Unit Unit :=
  { maxMsize := 8192, uid := 0, gid := 0, exports := [], openWrite := fun _ => false
    eager := fun _ _ => false
    backend := fun _ =>
      { stat := fun _ _ => .ok (some ⟨none, .folder, [], [], none, none, none⟩)
        list := fun _ _ => .ok kids, readBlob := fun _ _ => .ok []
        write := fun _ _ _ => .error (.code .erofs), mkdir := fun _ _ => .error (.code .erofs)
        remove := fun _ _ => .error (.code .erofs), move := fun _ _ _ => .error (.code .erofs)
        isWritablePath := fun _ => false } }

/-- Connection 0 with fid 1 on the directory. -/
def onDirectory : World Unit Unit :=
  { conns := JsMap.empty.set 0 ⟨8192, JsMap.empty.set 1 0⟩, next := 1, owners := fun _ => none
    heap := fun _ => ⟨[], (), true, none, none, none⟩
    qidPaths := fun _ => none, qidSeq := 1, negotiatedMsize := 8192, disk := fun _ => () }

theorem plain_replicate {n : ℕ} (h : n ≠ 0) : Plain (List.replicate n 0x61) := by
  have hletters : ∀ u ∈ List.replicate n (0x61 : UInt16), u = 0x61 := fun u hu =>
    List.eq_of_mem_replicate hu
  refine ⟨fun hnil => h (List.replicate_eq_nil_iff _ |>.mp hnil), fun hdot => ?_, fun hdots => ?_,
    fun hslash => absurd (hletters _ hslash) (by decide)⟩
  · exact absurd (hletters 0x2E (hdot ▸ List.mem_cons_self)) (by decide)
  · exact absurd (hletters 0x2E (hdots ▸ List.mem_cons_self)) (by decide)

def longName : Component := ⟨List.replicate (2 ^ 16) 0x61, plain_replicate (by decide)⟩

theorem utf8Encode_replicate (n : ℕ) :
    utf8Encode (List.replicate n 0x61) = List.replicate n 0x61 := by
  have hscalars : toScalars (List.replicate n 0x61) = List.replicate n 0x61 := by
    induction n with
    | zero => rfl
    | succ n ih =>
      cases n with
      | zero => rfl
      | succ n =>
        rw [List.replicate_succ, List.replicate_succ, toScalars, ← List.replicate_succ, ih]
        rfl
  rw [utf8Encode, hscalars]
  clear hscalars
  induction n with
  | zero => rfl
  | succ n ih =>
    rw [List.replicate_succ, List.flatMap_cons, ih]
    rfl

theorem longName_length : (utf8Encode longName.1).length = 2 ^ 16 := by
  rw [longName, utf8Encode_replicate, List.length_replicate]

/-- A directory whose entry's name is too long for its field is not read. -/
theorem not_paginates_of_long {name : Component} (hlong : 2 ^ 16 ≤ (utf8Encode name.1).length)
    (counts : List ℕ) :
    ¬ (servingDirectory [childNamed name]).Paginates onDirectory 0 1 [childNamed name] counts := by
  intro h
  have hsend : Sendable name.1 := sendable_of_paginates h (childNamed name) List.mem_cons_self
  exact absurd hsend.2 (Nat.not_lt_of_le hlong)

/-- A name of 65536 letters does not reach the client. -/
theorem readdir_longName_lost :
    ¬ (servingDirectory [childNamed longName]).Paginates onDirectory 0 1 [childNamed longName]
      [65560, 65560, 65560, 65560] :=
  not_paginates_of_long (le_of_eq longName_length.symm) _

def twoChildren : List VfsRecord :=
  [childNamed ⟨[0x61], by decide⟩, childNamed ⟨[0x62, 0x63], by decide⟩]

theorem readdir_paginates_small :
    (servingDirectory twoChildren).Paginates onDirectory 0 1 twoChildren [26, 60, 30, 27, 26] := by
  refine (readdir_paginates_iff _ onDirectory 0 1 0 _ _ rfl ⟨⟨_, rfl⟩, ⟨_, rfl⟩, rfl⟩ (by decide)
    (by decide) (by decide)).mpr ?_
  intro kid hkid
  simp only [twoChildren, List.mem_cons, List.not_mem_nil, or_false] at hkid
  rcases hkid with rfl | rfl
  · exact ⟨by simp [childNamed, WellFormed, isHigh, isLow], by decide⟩
  · exact ⟨by simp [childNamed, WellFormed, isHigh, isLow], by decide⟩

end Instances

end NixWasm.NinepServer
