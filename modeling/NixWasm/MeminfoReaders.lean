import NixWasm.DylinkMeminfo

/-!
The two readers of the memory info of a program. The loader of parseDylinkModule goes through all
sections of the file and keeps the last MEM_INFO of the last `dylink.0` section, or zeros where
that has none. Here its answer is the place of that MEM_INFO, to be compared with the first one
that the kernel takes.
-/
namespace NixWasm.MeminfoReaders

open Cursor Dylink DylinkMeminfo Effects Unicode

/-- The four numbers that are read at `i`, of whatever lengths. -/
def numbersFrom (file : List UInt8) : ℕ → ℕ → List ℕ
  | 0, _ => []
  | n + 1, i => (ulebAt (file.drop i)).1 :: numbersFrom file n (i + (ulebAt (file.drop i)).2)

def numbersAt (file : List UInt8) : Option ℕ → List ℕ
  | none => [0, 0, 0, 0]
  | some i => numbersFrom file 4 i

def numbers (d : DylinkSection) : List ℕ := [d.memSize, d.memAlign, d.tableSize, d.tableAlign]

section Places
variable (file : List UInt8)

/-- Of the subsections from `i` up to `stop`, with `found` before them, the last MEM_INFO. -/
inductive Subsections (stop : ℕ) : ℕ → Option ℕ → Option ℕ → Prop
  | done {i : ℕ} {found : Option ℕ} (hi : stop ≤ i) : Subsections stop i found found
  | next {i size k : ℕ} {found last : Option ℕ} (hi : i < stop)
    (hsize : ulebAt (file.drop (i + 1)) = (size, k))
    (hrest : Subsections stop (i + 1 + k + size)
      (if file[i]? = some 1 then some (i + 1 + k) else found) last) : Subsections stop i found last

/-- A custom section whose contents start at `i` is named `dylink.0`, and what follows the
name. -/
def Named (i j : ℕ) : Prop :=
  let length := ulebAt (file.drop i)
  utf8Decode ((file.drop (i + length.2)).take length.1) = ascii "dylink.0" ∧
    j = i + length.2 + length.1

instance (i j : ℕ) : Decidable (Named file i j) := by
  unfold Named
  infer_instance

/-- Of the sections from `i` on, with `found` before them, the last `dylink.0` section, as the
last MEM_INFO in it. -/
inductive Sections : ℕ → Option (Option ℕ) → Option (Option ℕ) → Prop
  | done {i : ℕ} {found : Option (Option ℕ)} (hi : file.length ≤ i) : Sections i found found
  | other {i size k : ℕ} {found last : Option (Option ℕ)} (hi : i < file.length)
    (hsize : ulebAt (file.drop (i + 1)) = (size, k))
    (hother : ∀ j, file[i]? = some 0 → ¬ Named file (i + 1 + k) j)
    (hrest : Sections (i + 1 + k + size) found last) : Sections i found last
  | dylink {i size k j : ℕ} {found last : Option (Option ℕ)} {inside : Option ℕ}
    (hi : i < file.length) (hsize : ulebAt (file.drop (i + 1)) = (size, k))
    (hid : file[i]? = some 0) (hname : Named file (i + 1 + k) j)
    (hinside : Subsections file (i + 1 + k + size) j none inside)
    (hrest : Sections (i + 1 + k + size) (some inside) last) : Sections i found last

/-- The last `dylink.0` section of the file has its last MEM_INFO at this place. -/
def LastMeminfo (last : Option ℕ) : Prop := Sections file 8 none (some last)

end Places

section Unique
variable {file : List UInt8}

theorem Subsections.unique {stop i : ℕ} {found a c : Option ℕ} (h : Subsections file stop i found a)
    (h' : Subsections file stop i found c) : c = a := by
  induction h with
  | done hi =>
    cases h' with
    | done => rfl
    | next hi' => omega
  | next hi hsize _ ih =>
    cases h' with
    | done hi' => omega
    | next _ hsize' hrest =>
      rw [hsize] at hsize'
      cases hsize'
      exact ih hrest

theorem Sections.unique {i : ℕ} {found a c : Option (Option ℕ)} (h : Sections file i found a)
    (h' : Sections file i found c) : c = a := by
  induction h with
  | done hi =>
    cases h' with
    | done => rfl
    | other hi' => omega
    | dylink hi' => omega
  | other hi hsize hother _ ih =>
    cases h' with
    | done hi' => omega
    | other _ hsize' _ hrest =>
      rw [hsize] at hsize'
      cases hsize'
      exact ih hrest
    | dylink _ hsize' hid hname =>
      rw [hsize] at hsize'
      cases hsize'
      exact absurd hname (hother _ hid)
  | dylink hi hsize hid hname hinside _ ih =>
    cases h' with
    | done hi' => omega
    | other _ hsize' hother =>
      rw [hsize] at hsize'
      cases hsize'
      exact absurd hname (hother _ hid)
    | dylink _ hsize' _ hname' hinside' hrest =>
      rw [hsize] at hsize'
      cases hsize'
      obtain rfl := hname.2.trans hname'.2.symm
      obtain rfl := hinside.unique hinside'
      exact ih hrest

end Unique

section Loader
variable {decode : List UInt8 → Utf16} {info : Info}

/-- The other sections leave what was found in `dylink.0` alone. -/
def KeepsDylink (info : Info) (info' : Info) : Prop := info'.dylink = info.dylink

theorem typeSection_dylink (k : ℕ) : Always (KeepsDylink info) (typeSection info k) := by
  induction k generalizing info with
  | zero => exact always_pure rfl
  | succ k ih =>
    rw [typeSection]
    refine always_seq fun tag => ?_
    split
    · exact always_pure rfl
    · exact always_seq fun _ => always_seq fun _ => always_seq fun _ => always_seq fun _ => ih

theorem importDescription_dylink (kind : Option UInt8) :
    Always (KeepsDylink info) (importDescription kind info) := by
  unfold importDescription
  split
  · exact always_seq fun _ => always_pure rfl
  · split
    · exact always_seq fun _ => always_seq fun _ => always_seq fun _ => always_seq fun _ =>
        always_pure rfl
    · split
      · exact always_seq fun _ => always_pure rfl
      · split
        · exact always_seq fun _ => always_pure rfl
        · split
          · exact always_seq fun _ => always_seq fun _ => always_pure rfl
          · exact always_fail _

theorem importSection_dylink (k : ℕ) :
    Always (KeepsDylink info) (importSection decode info k) := by
  induction k generalizing info with
  | zero => exact always_pure rfl
  | succ k ih =>
    refine always_seq fun module => always_seq fun name => always_seq fun kind =>
      always_bind (importDescription_dylink kind) fun info' hinfo => ?_
    have hrest : Always (KeepsDylink info') (importSection decode info' k) := ih
    unfold KeepsDylink at hinfo hrest
    rw [hinfo] at hrest
    exact hrest

theorem elemSegment_dylink : Always (KeepsDylink info) (elemSegment info) := by
  unfold elemSegment
  refine always_seq fun flags => ?_
  split
  · exact always_fail _
  · refine always_seq fun offset => always_seq fun last => ?_
    split
    · exact always_fail _
    · refine always_seq fun count => always_seq fun funcIndices => ?_
      split
      · exact always_fail _
      · exact always_pure rfl

theorem elemSection_dylink (k : ℕ) : Always (KeepsDylink info) (elemSection info k) := by
  induction k generalizing info with
  | zero => exact always_pure rfl
  | succ k ih =>
    refine always_bind elemSegment_dylink fun info' hinfo => ?_
    have hrest : Always (KeepsDylink info') (elemSection info' k) := ih
    unfold KeepsDylink at hinfo hrest
    rw [hinfo] at hrest
    exact hrest

theorem sectionBody_dylink {id : Option UInt8} (hid : id ≠ some 0) (stop : ℕ) :
    Always (KeepsDylink info) (sectionBody decode id stop info) := by
  unfold sectionBody
  split
  · exact always_seq fun n => typeSection_dylink n
  · split
    · exact always_seq fun n => importSection_dylink n
    · split
      · exact always_seq fun n => always_seq fun types => always_pure rfl
      · split
        · exact always_seq fun n => always_seq fun exports => always_pure rfl
        · split
          · exact always_seq fun n => elemSection_dylink n
          · exact always_pure rfl

end Loader

section Found
variable (file : List UInt8) (decode : List UInt8 → Utf16)

theorem dylinkSubsection_run (sub : Option UInt8) (d : DylinkSection) (i : ℕ) :
    ∃ d' j, dylinkSubsection decode sub d file i = .ok (d', j) ∧
      numbers d' = if sub = some 1 then numbersAt file (some i) else numbers d := by
  unfold dylinkSubsection
  split
  · exact ⟨_, _, rfl, rfl⟩
  · split
    · obtain ⟨needed, j, hneeded, -⟩ := total_times (ε := ParseError) (total_name decode)
        (ulebAt (file.drop i)).1 file (i + (ulebAt (file.drop i)).2)
      exact ⟨_, j, bind_eq_ok.mpr ⟨_, _, rfl, bind_eq_ok.mpr ⟨needed, j, hneeded, rfl⟩⟩, rfl⟩
    · exact ⟨d, i, rfl, rfl⟩

/-- What the loader keeps of a `dylink.0` section. -/
theorem dylinkSubsections_run {stop fuel i : ℕ} {d : DylinkSection} {found : Option ℕ}
    (hfuel : stop ≤ i + fuel) (hfound : numbers d = numbersAt file found) :
    ∃ d' j last, dylinkSubsections decode stop fuel d file i = .ok (d', j) ∧
      Subsections file stop i found last ∧ numbers d' = numbersAt file last := by
  induction fuel generalizing i d found with
  | zero => exact ⟨d, i, found, rfl, .done hfuel, hfound⟩
  | succ fuel ih =>
    by_cases hi : i < stop
    · rcases hsize : ulebAt (file.drop (i + 1)) with ⟨size, k⟩
      have hk : 0 < k := by
        have hpos := ulebAt_pos (file.drop (i + 1))
        rwa [hsize] at hpos
      obtain ⟨d', j, hsub, hd'⟩ :=
        dylinkSubsection_run file decode file[i]? d (i + 1 + k)
      have hstep : numbers d' =
          numbersAt file (if file[i]? = some 1 then some (i + 1 + k) else found) := by
        rw [hd']
        split
        · rfl
        · exact hfound
      obtain ⟨d'', j', last, hrun, hlast, hd''⟩ :=
        ih (i := i + 1 + k + size) (by omega) hstep
      refine ⟨d'', j', last, ?_, .next hi hsize hlast, hd''⟩
      refine bind_eq_ok.mpr ⟨i, i, rfl, ?_⟩
      rw [if_pos hi]
      refine bind_eq_ok.mpr ⟨file[i]?, i + 1, rfl, bind_eq_ok.mpr ⟨size, i + 1 + k, ?_, ?_⟩⟩
      · rw [uleb, hsize]
      · exact bind_eq_ok.mpr ⟨_, _, rfl, bind_eq_ok.mpr ⟨d', j, hsub,
          bind_eq_ok.mpr ⟨(), _, rfl, hrun⟩⟩⟩
    · refine ⟨d, i, found, ?_, .done (by omega), hfound⟩
      exact bind_eq_ok.mpr ⟨i, i, rfl, by rw [if_neg hi]; rfl⟩

variable {file}

/-- What the loader makes of a custom section that ends at `stop`. -/
theorem customSection_run {stop i j : ℕ} {info info' : Info}
    (h : customSection utf8Decode stop info file i = .ok (info', j)) :
    (KeepsDylink info info' ∧ ∀ k, ¬ Named file i k) ∨
      ∃ k last, Named file i k ∧ Subsections file stop k none last ∧
        info'.dylink.map numbers = some (numbersAt file last) := by
  obtain ⟨name, k, hname, hbody⟩ := bind_eq_ok.mp h
  cases hname
  split at hbody
  · rename_i hdynsym
    obtain ⟨n, k, -, hbody⟩ := bind_eq_ok.mp hbody
    obtain ⟨entries, k, -, hbody⟩ := bind_eq_ok.mp hbody
    cases hbody
    refine .inl ⟨rfl, fun k hnamed => ?_⟩
    rw [hnamed.1] at hdynsym
    exact absurd hdynsym (by decide)
  · split at hbody
    · rename_i hdylink
      obtain ⟨d', j', hrun', hbody⟩ := bind_eq_ok.mp hbody
      have hzeros : numbers ⟨0, 0, 0, 0, []⟩ = numbersAt file none := rfl
      obtain ⟨d, j, last, hrun, hlast, hd⟩ :=
        dylinkSubsections_run file utf8Decode (Nat.le_add_left stop _) hzeros
      rw [hrun] at hrun'
      cases hrun'
      cases hbody
      exact .inr ⟨_, last, ⟨hdylink, rfl⟩, hlast, congrArg some hd⟩
    · rename_i hother
      cases hbody
      exact .inl ⟨rfl, fun k hnamed => hother hnamed.1⟩

theorem sections_run {fuel i j : ℕ} {info info' : Info} {found : Option (Option ℕ)}
    (hfuel : file.length ≤ i + fuel) (hfound : info.dylink.map numbers = found.map (numbersAt file))
    (h : sections utf8Decode fuel info file i = .ok (info', j)) :
    ∃ last, Sections file i found last ∧ info'.dylink.map numbers = last.map (numbersAt file) := by
  induction fuel generalizing i info found with
  | zero =>
    cases h
    exact ⟨found, .done hfuel, hfound⟩
  | succ fuel ih =>
    obtain ⟨_, _, hi, h⟩ := bind_eq_ok.mp h
    cases hi
    obtain ⟨_, _, hlength, h⟩ := bind_eq_ok.mp h
    cases hlength
    split at h
    · rename_i hi
      rcases hsize : ulebAt (file.drop (i + 1)) with ⟨size, k⟩
      have hk : 0 < k := by
        have hpos := ulebAt_pos (file.drop (i + 1))
        rwa [hsize] at hpos
      obtain ⟨_, _, hid, h⟩ := bind_eq_ok.mp h
      cases hid
      obtain ⟨_, _, huleb, h⟩ := bind_eq_ok.mp h
      rw [uleb, hsize] at huleb
      cases huleb
      obtain ⟨_, _, hstart, h⟩ := bind_eq_ok.mp h
      cases hstart
      obtain ⟨info₁, j₁, hbody, h⟩ := bind_eq_ok.mp h
      obtain ⟨_, _, hseek, h⟩ := bind_eq_ok.mp h
      cases hseek
      by_cases hid : file[i]? = some 0
      · have hcustom : customSection utf8Decode (i + 1 + k + size) info file (i + 1 + k) =
            .ok (info₁, j₁) := by
          rw [hid] at hbody
          exact hbody
        rcases customSection_run hcustom with ⟨hkeeps, hother⟩ | ⟨j', inside, hname, hin, hnums⟩
        · obtain ⟨last, hlast, hinfo⟩ := ih (by omega) ((congrArg _ hkeeps).trans hfound) h
          exact ⟨last, .other hi hsize (fun j _ => hother j) hlast, hinfo⟩
        · have hfound₁ : info₁.dylink.map numbers = (some inside).map (numbersAt file) := hnums
          obtain ⟨last, hlast, hinfo⟩ := ih (by omega) hfound₁ h
          exact ⟨last, .dylink hi hsize hid hname hin hlast, hinfo⟩
      · have hkeeps := sectionBody_dylink hid _ _ _ _ _ hbody
        obtain ⟨last, hlast, hinfo⟩ := ih (by omega) ((congrArg _ hkeeps).trans hfound) h
        exact ⟨last, .other hi hsize (fun j h0 => absurd h0 hid) hlast, hinfo⟩
    · cases h
      exact ⟨found, .done (by omega), hfound⟩

/-- The numbers the loader takes are those of the last MEM_INFO of the last `dylink.0` section. -/
theorem parseDylinkModule_last {info : Info} (h : parseDylinkModule file = .ok info) :
    ∃ last, Sections file 8 none last ∧ info.dylink.map numbers = last.map (numbersAt file) := by
  unfold parseDylinkModule parseWith at h
  split at h
  · cases h
  · cases hread : sections utf8Decode file.length .initial file 8 with
    | error e => simp [hread, Except.map] at h
    | ok x =>
      obtain ⟨info', j⟩ := x
      rw [hread] at h
      cases h
      exact sections_run (by omega) rfl hread

end Found

section Numbers
variable {V : VarU32} {b : Binary} {limit stop p start : ℕ}

/-- Both readers decode a number of the kernel's alike. -/
theorem decode_ulebAt {bytes : List UInt8} {n v k : ℕ} (h : V.decode bytes n = some (v, k)) :
    ulebAt bytes = (v, k) := by
  obtain ⟨l, ⟨rest, rfl⟩, rfl, -, rfl, -⟩ := V.sound bytes n v k h
  exact ulebAt_bytes l rest

theorem fields_numbers {kinds : List FieldKind} {vs : List ℕ} (hbin : b.bin ≤ p)
    (h : Fields V b stop kinds p vs) : numbersFrom b.file kinds.length (p - b.bin) = vs := by
  induction h with
  | nil => rfl
  | @cons kind kinds p v k x vs hread _ _ ih =>
    have hsame := decode_ulebAt hread
    have hnext : p - b.bin + k = p + k - b.bin := by omega
    rw [Binary.rest] at hsame
    rw [List.length_cons, numbersFrom, hsame]
    dsimp only
    rw [hnext, ih (by omega)]

theorem firstMeminfo_bin_le (hbin : b.bin ≤ p) (h : FirstMeminfo V b p start stop) :
    b.bin ≤ start := by
  induction h with
  | here hsub =>
    obtain ⟨-, n, k, -, rfl, -⟩ := hsub
    omega
  | skip hsub _ _ _ ih =>
    obtain ⟨-, n, k, -, rfl, rfl⟩ := hsub
    exact ih (by omega)

theorem declares_numbersAt {vs : List ℕ} (hbin : b.bin ≤ p) (h : Declares V b p start vs) :
    numbersAt b.file (some (start - b.bin)) = vs := by
  obtain ⟨stop, hfirst, hfields⟩ := h
  exact fields_numbers (firstMeminfo_bin_le hbin hfirst) hfields

theorem declares_unique {start' : ℕ} {vs vs' : List ℕ} (hbin : b.bin ≤ p)
    (h : Declares V b p start vs) (h' : Declares V b p start' vs') : start' = start ∧ vs' = vs := by
  obtain ⟨stop, hfirst, -⟩ := id h
  obtain ⟨stop', hfirst', -⟩ := id h'
  obtain ⟨rfl, -⟩ := hfirst.unique hfirst'
  exact ⟨rfl, (declares_numbersAt hbin h').symm.trans (declares_numbersAt hbin h)⟩

end Numbers

section Instance

/-- A number of at most `n` bytes below 2^32. -/
def decodeVar (bytes : List UInt8) (n : ℕ) : Option (ℕ × ℕ) :=
  match readUleb (bytes.take n) with
  | some (v, rest) => if v < 2 ^ 32 then some (v, (bytes.take n).length - rest.length) else none
  | none => none

theorem decodeVar_sound {bytes : List UInt8} {n v k : ℕ} (h : decodeVar bytes n = some (v, k)) :
    ∃ l : Leb, l.bytes <+: bytes ∧ l.bytes.length = k ∧ k ≤ n ∧ l.value = v ∧ v < 2 ^ 32 := by
  unfold decodeVar at h
  split at h
  · rename_i v' rest hread
    split at h
    · rename_i hlt
      cases h
      obtain ⟨l, hbytes, rfl⟩ := readUleb_sound hread
      have hlength := congrArg List.length hbytes
      rw [List.length_append] at hlength
      have hn : (bytes.take n).length ≤ n := List.length_take_le n bytes
      have hfront : l.bytes <+: bytes.take n := ⟨rest, hbytes.symm⟩
      exact ⟨l, hfront.trans (List.take_prefix n bytes), by omega, by omega, rfl, hlt⟩
    · cases h
  · cases h

theorem decodeVar_bytes {bytes : List UInt8} {n : ℕ} (l : Leb) (hfront : l.bytes <+: bytes)
    (hn : l.bytes.length ≤ n) (hlt : l.value < 2 ^ 32) :
    decodeVar bytes n = some (l.value, l.bytes.length) := by
  obtain ⟨rest, rfl⟩ := hfront
  have htake : (l.bytes ++ rest).take n = l.bytes ++ rest.take (n - l.bytes.length) := by
    rw [List.take_append, List.take_of_length_le hn]
  have hread : readUleb (l.bytes ++ rest.take (n - l.bytes.length)) =
      some (l.value, rest.take (n - l.bytes.length)) := Bytes.Reader.reads_uleb l _
  unfold decodeVar
  rw [htake, hread]
  dsimp only
  rw [if_pos hlt, List.length_append, Nat.add_sub_cancel]

/-- It looks at every byte it may when there is no number. -/
def varU32 : VarU32 where
  decode := decodeVar
  looks bytes n := ((decodeVar bytes n).map Prod.snd).getD n
  sound _ _ _ _ h := decodeVar_sound h
  complete _ _ l hfront hn hlt := decodeVar_bytes l hfront hn hlt
  looks_le bytes n := by
    cases h : decodeVar bytes n with
    | none => exact Nat.le_refl n
    | some x =>
      obtain ⟨-, -, -, hle, -⟩ := decodeVar_sound h
      exact hle
  looks_of_decode bytes n v k h := by rw [h]; rfl

end Instance

/-- What parse_dylink0_meminfo owes its callers from `p` on, where the section ends at `limit`:
it ends, it reads inside the section, it rounds the declared sizes up to pages and takes the
alignments, and the loader takes the same numbers. -/
structure Serves (V : VarU32) (b : Binary) (p limit : ℕ) : Prop where
  ends : ∀ log, parseDylink0Meminfo V b p [] ≠ .error .outOfFuel log
  inside : ∀ a ∈ final (parseDylink0Meminfo V b p []), p ≤ a ∧ a < limit
  rounds : ∀ xs log, parseDylink0Meminfo V b p [] = .ok xs log →
    ∃ start ds da ts ta dataSize tableSize, Declares V b p start [ds, da, ts, ta] ∧
      xs = [dataSize, 2 ^ da, tableSize, 2 ^ ta] ∧ pageSize ∣ dataSize ∧ ds ≤ dataSize ∧
      pageSize ∣ tableSize ∧ ts ≤ tableSize
  agrees : ∀ xs log start vs info, parseDylink0Meminfo V b p [] = .ok xs log →
    Declares V b p start vs → parseDylinkModule b.file = .ok info →
    info.dylink.map numbers = some vs

section Service
variable {V : VarU32} {b : Binary} {limit p : ℕ}

theorem parse_inside_iff (hbin : b.bin ≤ p) (hp : p ≤ b.stop) :
    (∀ a ∈ final (parseDylink0Meminfo V b p []), p ≤ a ∧ a < limit) ↔ Settles V b limit p := by
  have hwithin : (∀ a ∈ final (parseDylink0Meminfo V b p []), a < limit) ↔
      (∀ a ∈ ([] : List ℕ), a < limit) ∧ Settles V b limit p :=
    parseFrom_within _ p [] hbin hp (by omega)
  constructor
  · intro h
    exact (hwithin.mp fun a ha => (h a ha).2).2
  · intro h a ha
    have hlow := parseFrom_from _ p [] hp a ha
    exact ⟨hlow.resolve_left List.not_mem_nil, hwithin.mpr ⟨by simp, h⟩ a ha⟩

theorem parse_ok (hbin : b.bin ≤ p) (hp : p ≤ b.stop) {xs log : List ℕ}
    (h : parseDylink0Meminfo V b p [] = .ok xs log) :
    ∃ start vs, Declares V b p start vs ∧ xs = stored meminfoFields vs := by
  have hends := parseFrom_ends (V := V) (b.stop - p + 1) p [] hbin hp (by omega)
  rw [parseDylink0Meminfo] at h
  rw [h] at hends
  exact hends

theorem parse_ends (hbin : b.bin ≤ p) (hp : p ≤ b.stop) (log : List ℕ) :
    parseDylink0Meminfo V b p [] ≠ .error .outOfFuel log := by
  intro h
  have hends := parseFrom_ends (V := V) (b.stop - p + 1) p [] hbin hp (by omega)
  rw [parseDylink0Meminfo] at h
  rw [h] at hends
  exact hends rfl

theorem parse_declared {start : ℕ} {vs : List ℕ} (h : Declares V b p start vs) :
    ∃ log, parseDylink0Meminfo V b p [] = .ok (stored meminfoFields vs) log := by
  obtain ⟨stop, hfirst, hfields⟩ := h
  exact hfirst.run hfields (Nat.lt_succ_self _) []

/-- The sizes are rounded up exactly when neither is in the last page below 4 GiB. -/
theorem parse_rounds_iff (hbin : b.bin ≤ p) (hp : p ≤ b.stop) :
    (∀ xs log, parseDylink0Meminfo V b p [] = .ok xs log →
      ∃ start ds da ts ta dataSize tableSize, Declares V b p start [ds, da, ts, ta] ∧
        xs = [dataSize, 2 ^ da, tableSize, 2 ^ ta] ∧ pageSize ∣ dataSize ∧ ds ≤ dataSize ∧
        pageSize ∣ tableSize ∧ ts ≤ tableSize) ↔
      ∀ start ds da ts ta, Declares V b p start [ds, da, ts, ta] →
        ds ≤ 2 ^ 32 - pageSize ∧ ts ≤ 2 ^ 32 - pageSize := by
  constructor
  · intro h start ds da ts ta hdeclares
    obtain ⟨log, hrun⟩ := parse_declared hdeclares
    obtain ⟨start', ds', da', ts', ta', dataSize, tableSize, hdeclares', hxs, -, hds, -, hts⟩ :=
      h _ _ hrun
    obtain ⟨-, hsame⟩ := declares_unique hbin hdeclares hdeclares'
    obtain ⟨stop, -, hfields⟩ := hdeclares
    obtain ⟨_, _, _, _, hvs, hlt, hlt', hstored⟩ := fields_meminfo hfields
    cases hvs
    cases hsame
    rw [hstored] at hxs
    cases hxs
    exact ⟨(le_pageAlign_iff hlt).mp hds, (le_pageAlign_iff hlt').mp hts⟩
  · intro h xs log hrun
    obtain ⟨start, vs, hdeclares, rfl⟩ := parse_ok hbin hp hrun
    obtain ⟨stop, -, hfields⟩ := id hdeclares
    obtain ⟨ds, da, ts, ta, rfl, hlt, hlt', hstored⟩ := fields_meminfo hfields
    obtain ⟨hds, hts⟩ := h _ _ _ _ _ hdeclares
    exact ⟨start, ds, da, ts, ta, pageAlign ds, pageAlign ts, hdeclares, hstored,
      dvd_pageAlign ds, (le_pageAlign_iff hlt).mpr hds, dvd_pageAlign ts,
      (le_pageAlign_iff hlt').mpr hts⟩

/-- The readers agree exactly when the last MEM_INFO of the last `dylink.0` section has the
numbers of the first one. -/
theorem parse_agrees_iff (hbin : b.bin ≤ p) :
    (∀ xs log start vs info, parseDylink0Meminfo V b p [] = .ok xs log →
      Declares V b p start vs → parseDylinkModule b.file = .ok info →
      info.dylink.map numbers = some vs) ↔
      ∀ start vs, Declares V b p start vs → (∃ info, parseDylinkModule b.file = .ok info) →
        ∃ last, LastMeminfo b.file last ∧
          numbersAt b.file last = numbersAt b.file (some (start - b.bin)) := by
  constructor
  · intro h start vs hdeclares ⟨info, hinfo⟩
    obtain ⟨log, hrun⟩ := parse_declared hdeclares
    have hsame := h _ _ _ _ _ hrun hdeclares hinfo
    obtain ⟨found, hfound, hnums⟩ := parseDylinkModule_last hinfo
    rw [hsame] at hnums
    obtain ⟨last, rfl, hlast⟩ := Option.map_eq_some_iff.mp hnums.symm
    exact ⟨last, hfound, hlast.trans (declares_numbersAt hbin hdeclares).symm⟩
  · intro h xs log start vs info hrun hdeclares hinfo
    obtain ⟨last, hlast, hsame⟩ := h _ _ hdeclares ⟨info, hinfo⟩
    obtain ⟨found, hfound, hnums⟩ := parseDylinkModule_last hinfo
    obtain rfl := hlast.unique hfound
    rw [hnums, Option.map_some, hsame, declares_numbersAt hbin hdeclares]

end Service

/-- The kernel's reader serves exactly for a section that settles its walk, whose sizes leave
the last page below 4 GiB, and whose first MEMINFO has the numbers of the last one of the file. -/
theorem parse_serves_iff (V : VarU32) (b : Binary) (p limit : ℕ) (hbin : b.bin ≤ p)
    (hp : p ≤ b.stop) :
    Serves V b p limit ↔ Settles V b limit p ∧
      (∀ start ds da ts ta, Declares V b p start [ds, da, ts, ta] →
        ds ≤ 2 ^ 32 - pageSize ∧ ts ≤ 2 ^ 32 - pageSize) ∧
      ∀ start vs, Declares V b p start vs → (∃ info, parseDylinkModule b.file = .ok info) →
        ∃ last, LastMeminfo b.file last ∧
          numbersAt b.file last = numbersAt b.file (some (start - b.bin)) := by
  constructor
  · rintro ⟨-, hinside, hrounds, hagrees⟩
    exact ⟨(parse_inside_iff hbin hp).mp hinside, (parse_rounds_iff hbin hp).mp hrounds,
      (parse_agrees_iff hbin).mp hagrees⟩
  · rintro ⟨hsettles, hsizes, hlast⟩
    exact ⟨parse_ends hbin hp, (parse_inside_iff hbin hp).mpr hsettles,
      (parse_rounds_iff hbin hp).mpr hsizes, (parse_agrees_iff hbin).mpr hlast⟩

/-- A module whose `dylink.0` section is empty and is followed by an empty type section. -/
def unsettled : Binary where
  bin := 0
  file := [0x00, 0x61, 0x73, 0x6d, 1, 0, 0, 0,
    0, 9, 8, 0x64, 0x79, 0x6c, 0x69, 0x6e, 0x6b, 0x2e, 0x30, 1, 1, 0]
  fits := by decide

/-- The walk runs into the section behind. -/
theorem not_serves_unsettled : ¬ Serves varU32 unsettled 19 19 := by
  intro h
  have hread : 19 ∈ final (parseDylink0Meminfo varU32 unsettled 19 []) := by decide
  exact absurd (h.inside 19 hread).2 (by decide)

/-- A module that declares five pages of data at an alignment of four bytes, and no table. -/
def settled : Binary where
  bin := 0
  file := [0x00, 0x61, 0x73, 0x6d, 1, 0, 0, 0,
    0, 17, 8, 0x64, 0x79, 0x6c, 0x69, 0x6e, 0x6b, 0x2e, 0x30, 1, 6, 0x80, 0xa0, 0x01, 2, 0, 0,
    1, 1, 0]
  fits := by decide

theorem settled_meminfo : Subsection varU32 settled 19 wasmDylinkMeminfo 21 27 :=
  ⟨by decide, 6, 1, by decide, rfl, rfl⟩

theorem settled_fields : Fields varU32 settled 27 meminfoFields 21 [20480, 2, 0, 0] := by
  refine .cons (k := 3) (by decide) rfl (.cons (k := 1) (by decide) rfl ?_)
  exact .cons (k := 1) (by decide) rfl (.cons (k := 1) (by decide) rfl .nil)

theorem settled_declares : Declares varU32 settled 19 21 [20480, 2, 0, 0] :=
  ⟨27, .here settled_meminfo (by decide), settled_fields⟩

theorem settled_settles : Settles varU32 settled 27 19 := by
  refine .meminfo (by decide) (by decide) settled_meminfo (by decide) ?_
  refine .cons (v := 20480) (k := 3) (by decide) (by decide) rfl ?_
  refine .cons (v := 2) (k := 1) (by decide) (by decide) rfl ?_
  refine .cons (v := 0) (k := 1) (by decide) (by decide) rfl ?_
  exact .cons (v := 0) (k := 1) (by decide) (by decide) rfl .nil

theorem settled_last : LastMeminfo settled.file (some 21) := by
  have hmeminfo : ulebAt (settled.file.drop 20) = (6, 1) := by decide
  have hinside : Subsections settled.file 27 19 none (some 21) :=
    .next (by decide) hmeminfo (.done (by decide))
  have hdylink : ulebAt (settled.file.drop 9) = (17, 1) := by decide
  have htypes : ulebAt (settled.file.drop 28) = (1, 1) := by decide
  refine .dylink (by decide) hdylink (by decide) (by decide +kernel) hinside ?_
  exact .other (by decide) htypes (fun j h => absurd h (by decide)) (.done (by decide))

theorem serves_settled : Serves varU32 settled 19 27 := by
  refine (parse_serves_iff varU32 settled 19 27 (by decide) (by decide)).mpr
    ⟨settled_settles, ?_, ?_⟩
  · intro start ds da ts ta hdeclares
    obtain ⟨-, heq⟩ := declares_unique (by decide) settled_declares hdeclares
    cases heq
    exact ⟨by decide, by decide⟩
  · intro start vs hdeclares _
    obtain ⟨rfl, -⟩ := declares_unique (by decide) settled_declares hdeclares
    exact ⟨some 21, settled_last, rfl⟩

end NixWasm.MeminfoReaders
