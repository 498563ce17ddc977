import NixWasm.RawFfiCalls

/-!
Aggregates by value. What a target does in a call is a series of actions: stores through the
pointers that it got for its by-value parameters, and others that leave the argument storage alone.
The pointers are the caller's own, so a store through one of them is a store to the storage.
-/
namespace NixWasm.RawFfi

open Bytes ByteStore Effects Wasm FfiCodegen
open Trampolines (FfiType isScalar)

section Targets
variable {ω : Type}

/-- A byte to store through the pointer of by-value argument `arg`. -/
structure Write where
  arg : ℕ
  offset : ℕ
  byte : UInt8

inductive Action (ω : Type)
  | write (w : Write)
  | other (g : Store ω → Store ω)

/-- An action, with the pointers that the target got. -/
def act (ptr : ℕ → ℕ) : Action ω → Store ω → Store ω
  | .write w, σ => setMemory σ (splice σ.memory (ptr w.arg + w.offset) [w.byte])
  | .other g, σ => g σ

def runActs (ptr : ℕ → ℕ) (acts : List (Action ω)) (σ : Store ω) : Store ω :=
  acts.foldl (fun σ a => act ptr a σ) σ

/-- The type that an argument is passed as. -/
def passType (t : ArgType) : ValType := if isAggregate t.type then .i32 else wasmType t.type

def retCount (cif : FfiCif) : ℕ := if isAggregate cif.rtype then 1 else 0

/-- The target's type. -/
def targetSig (cif : FfiCif) : FfiSignature where
  params := List.replicate (retCount cif) .i32 ++
    ((cif.argTypes.take cif.nfixedargs).map passType ++
      if cif.nfixedargs ≠ cif.argTypes.length then [.i32] else [])
  result := retType cif.rtype

/-- Where a target finds its variadic arguments, from the pointer to them on. -/
def varOffsets : List ArgType → ℕ → List ℕ
  | [], _ => []
  | t :: rest, off =>
    alignUp off (varAlign t) :: varOffsets rest (alignUp off (varAlign t) + varSize t)

/-- The pointer that a target got for by-value argument `k`. -/
def received (cif : FfiCif) (vs : List Value) (memory : List UInt8) (k : ℕ) : ℕ :=
  if k < cif.nfixedargs then ((vs[retCount cif + k]?).map Value.bits).getD 0
  else
    let va := (vs.getLast?.map Value.bits).getD 0
    let off := ((varOffsets (cif.argTypes.drop cif.nfixedargs) 0)[k - cif.nfixedargs]?).getD 0
    (field memory (va + off) 4).getD 0

/-- A target that does these actions and returns these values. -/
def target (cif : FfiCif) (acts : List (Action ω)) (rs : List Value)
    (htypes : rs.map Value.type = (retType cif.rtype).toList) : RawFunc ω (targetSig cif) where
  run vs σ := some (.values rs (runActs (received cif vs σ.memory) acts σ))
  typed := by
    intro vs σ out σ' h
    cases h
    exact htypes

/-- A call through the slot reaches the function, as it is or through its canonical thunk. -/
def Reaches (table : BitVec 32 → Option (Entry ω)) (isCanonicalSlot : BitVec 32 → Bool)
    (fn : BitVec 32) {sig : FfiSignature} (f : RawFunc ω sig) : Prop :=
  isCanonicalSlot fn = false ∧ table fn = some f.entry ∨
    isCanonicalSlot fn = true ∧ ∃ fuel, table fn = some (genCanonicalThunk f fuel)

theorem Reaches.call {table : BitVec 32 → Option (Entry ω)} {isCanonicalSlot : BitVec 32 → Bool}
    {fn : BitVec 32} {sig : FfiSignature} {f : RawFunc ω sig}
    (h : Reaches table isCanonicalSlot fn f) (hlimit : sig.params.length ≤ canonicalParams)
    (fuel : ℕ) (a r : BitVec 32) (τ : Store ω) :
    genTrampoline table sig (isCanonicalSlot fn) fuel a r fn τ = FfiCodegen.ffiCall f a r τ := by
  rcases h with ⟨hraw, hslot⟩ | ⟨hcanonical, fuel', hslot⟩
  · rw [hraw]
    exact rawTrampoline_run f hlimit hslot fuel a r τ
  · rw [hcanonical]
    exact canonicalTrampoline_run f hlimit fuel fuel' hslot a r τ

end Targets

section Pointers
variable {ω : Type} {l : Locals} {σ₀ σ : Store ω} {vs : List Value}

theorem mapM_getElem? {α β : Type} {f : α → Option β} {xs : List α} {ys : List β}
    (h : xs.mapM f = some ys) {k : ℕ} {x : α} (hx : xs[k]? = some x) :
    ∃ y, f x = some y ∧ ys[k]? = some y := by
  induction xs generalizing ys k with
  | nil => cases hx
  | cons x' xs ih =>
    rw [List.mapM_cons] at h
    obtain ⟨y', hy', h⟩ := Option.bind_eq_some_iff.mp h
    obtain ⟨ys', hys', h⟩ := Option.bind_eq_some_iff.mp h
    cases h
    cases k with
    | zero =>
      cases hx
      exact ⟨y', hy', rfl⟩
    | succ k => exact ih hys' hx

theorem argValue_type {memory : List UInt8} {a : ArgType × ℕ} {v : Value}
    (h : argValue memory a = some v) : v.type = passType a.1 := by
  unfold argValue at h
  unfold passType
  split at h
  · cases h
    rw [if_pos ‹_›]
    rfl
  · rename_i haggregate
    rw [if_neg haggregate]
    split at h
    · obtain ⟨bytes, -, rfl⟩ := Option.map_eq_some_iff.mp h
      exact type_toValue ..
    · cases h

theorem mapM_argValue_types {memory : List UInt8} {args : List (ArgType × ℕ)}
    (h : args.mapM (argValue memory) = some vs) :
    vs.map Value.type = (args.map Prod.fst).map passType := by
  induction args generalizing vs with
  | nil =>
    cases h
    rfl
  | cons a args ih =>
    rw [List.mapM_cons] at h
    obtain ⟨v, hv, h⟩ := Option.bind_eq_some_iff.mp h
    obtain ⟨ws, hws, h⟩ := Option.bind_eq_some_iff.mp h
    cases h
    rw [List.map_cons, List.map_cons, List.map_cons, argValue_type hv, ih hws]

theorem retParam_eq (rtype : FfiType) (rvalue : ℕ) :
    (retParam rtype rvalue).length = (if isAggregate rtype then 1 else 0) ∧
      (retParam rtype rvalue).map Value.type =
        List.replicate (if isAggregate rtype then 1 else 0) .i32 := by
  unfold retParam
  split <;> exact ⟨rfl, rfl⟩

/-- The parameters have the target's types. -/
theorem params_types {cif : FfiCif} {rvalue : ℕ} {avalue : List ℕ} {memory : List UInt8}
    (hcount : avalue.length = cif.argTypes.length)
    (h : params cif l rvalue avalue memory = some vs) :
    (⟨vs.map Value.type, retType cif.rtype⟩ : FfiSignature) = targetSig cif := by
  obtain ⟨fixed, hfixed, rfl⟩ := Option.map_eq_some_iff.mp h
  have hzip : ((cif.argTypes.zip avalue).take cif.nfixedargs).map Prod.fst =
      cif.argTypes.take cif.nfixedargs := by
    rw [List.map_take, List.map_fst_zip hcount.ge]
  have hvar : (varParam cif l).map Value.type =
      if cif.nfixedargs ≠ cif.argTypes.length then [.i32] else [] := by
    unfold varParam
    split <;> rfl
  rw [targetSig, retCount, List.map_append, List.map_append, (retParam_eq cif.rtype rvalue).2,
    mapM_argValue_types hfixed, hzip, hvar]

theorem varPieces_fst (args : List (ArgType × ℕ)) (off : ℕ) :
    (varPieces args off).map Prod.fst = varOffsets (args.map Prod.fst) off := by
  induction args generalizing off with
  | nil => rfl
  | cons a args ih => rw [varPieces, List.map_cons, List.map_cons, varOffsets, ih]

theorem varPieces_snd (args : List (ArgType × ℕ)) (off : ℕ) :
    (varPieces args off).map Prod.snd = args := by
  induction args generalizing off with
  | nil => rfl
  | cons a args ih => rw [varPieces, List.map_cons, ih]

/-- What a target gets for an aggregate is the caller's pointer, fixed argument or variadic. -/
theorem received_eq {cif : FfiCif} {rvalue : ℕ} {avalue : List ℕ}
    (hfits : l.Fits σ₀.memory.length) (hcount : avalue.length = cif.argTypes.length)
    (hparams : params cif l rvalue avalue σ₀.memory = some vs)
    (h : Described cif l avalue σ₀ σ vs) {k : ℕ} {a : ArgType × ℕ}
    (ha : (cif.argTypes.zip avalue)[k]? = some a) (haggregate : isAggregate a.1.type = true)
    (hp : a.2 < 2 ^ 32) : received cif vs σ.memory k = a.2 := by
  obtain ⟨fixed, hfixed, rfl⟩ := Option.map_eq_some_iff.mp hparams
  have hret := (retParam_eq cif.rtype rvalue).1
  have hk := (List.getElem?_eq_some_iff.mp ha).1
  rw [List.length_zip, hcount, Nat.min_self] at hk
  unfold received
  by_cases hlt : k < cif.nfixedargs
  · have ha' : ((cif.argTypes.zip avalue).take cif.nfixedargs)[k]? = some a := by
      rw [List.getElem?_take_of_lt hlt, ha]
    obtain ⟨v, hv, hget⟩ := mapM_getElem? hfixed ha'
    rw [argValue, if_pos haggregate] at hv
    cases hv
    have hlen := (List.getElem?_eq_some_iff.mp hget).1
    rw [if_pos hlt, retCount, ← hret, List.getElem?_append_right (Nat.le_add_right ..),
      Nat.add_sub_cancel_left, List.getElem?_append_left hlen, hget]
    exact Nat.mod_eq_of_lt hp
  · have hvariadic : cif.nfixedargs ≠ cif.argTypes.length := by omega
    have hlast : (retParam cif.rtype rvalue ++ (fixed ++ varParam cif l)).getLast? =
        some (.i32 (BitVec.ofNat 32 l.varbuf)) := by
      rw [varParam, if_pos hvariadic, ← List.append_assoc, List.getLast?_append]
      rfl
    have hvarbuf : l.varbuf < 2 ^ 32 := by
      have hin := hfits.varbuf
      have hsmall := hfits.small
      omega
    have ha' : ((cif.argTypes.zip avalue).drop cif.nfixedargs)[k - cif.nfixedargs]? = some a := by
      rw [List.getElem?_drop, Nat.add_sub_cancel' (Nat.le_of_not_lt hlt), ha]
    set args := (cif.argTypes.zip avalue).drop cif.nfixedargs with hargs
    have hsnd := congrArg (·[k - cif.nfixedargs]?) (varPieces_snd args 0)
    have hfst := congrArg (·[k - cif.nfixedargs]?) (varPieces_fst args 0)
    have htypes : args.map Prod.fst = cif.argTypes.drop cif.nfixedargs := by
      rw [hargs, List.map_drop, List.map_fst_zip hcount.ge]
    rw [ha', List.getElem?_map, Option.map_eq_some_iff] at hsnd
    obtain ⟨⟨off, a'⟩, hpiece, rfl⟩ := hsnd
    rw [List.getElem?_map, hpiece, htypes, Option.map_some] at hfst
    have hload := h.packed.pieces _ (List.mem_of_getElem? hpiece)
    dsimp only at hload haggregate hp
    rw [varSize, if_pos haggregate, varBytes, if_pos haggregate] at hload
    rw [if_neg hlt, hlast, ← hfst]
    have hbits : (Value.i32 (BitVec.ofNat 32 l.varbuf)).bits = l.varbuf := Nat.mod_eq_of_lt hvarbuf
    simp only [Option.map_some, Option.getD_some, hbits]
    rw [field, hload, Option.map_some, leValue_leBytes]
    exact Nat.mod_eq_of_lt hp

end Pointers

section Storage
variable {ω : Type} {cif : FfiCif} {l : Locals} {avalue : List ℕ} {acts : List (Action ω)}

/-- A byte of an argument's storage. -/
def InArg (cif : FfiCif) (avalue : List ℕ) (q : ℕ) : Prop :=
  ∃ a ∈ cif.argTypes.zip avalue, a.2 ≤ q ∧ q < a.2 + a.1.size

/-- The storage of all arguments, aggregates too: in the memory, and not in a buffer. -/
structure Held (cif : FfiCif) (l : Locals) (avalue : List ℕ) (memory : List UInt8) : Prop where
  count : avalue.length = cif.argTypes.length
  inside : ∀ a ∈ cif.argTypes.zip avalue, a.2 < 2 ^ 32 ∧ a.2 + a.1.size ≤ memory.length
  clear : ∀ q, InArg cif avalue q → ¬ l.Owns q

theorem Held.storage {memory : List UInt8} (h : Held cif l avalue memory) :
    Storage cif l avalue memory := by
  refine ⟨h.count, fun a ha => ?_⟩
  obtain ⟨hp, hin⟩ := h.inside a ha
  exact ⟨hp, fun _ => ⟨hin, fun q hlow hhigh => h.clear q ⟨a, ha, hlow, hhigh⟩⟩⟩

theorem Held.lt {memory : List UInt8} (h : Held cif l avalue memory) {q : ℕ}
    (hq : InArg cif avalue q) : q < memory.length := by
  obtain ⟨a, ha, -, hhigh⟩ := hq
  have hin := (h.inside a ha).2
  omega

/-- By-value argument `k`. -/
def ByValue (cif : FfiCif) (k : ℕ) (t : ArgType) : Prop :=
  cif.argTypes[k]? = some t ∧ isAggregate t.type = true

/-- A target's stores stay in its by-value parameters, and all else that it does leaves the storage
of the arguments alone. -/
structure Discreet (cif : FfiCif) (avalue : List ℕ) (acts : List (Action ω)) : Prop where
  writes : ∀ w, .write w ∈ acts → ∃ t, ByValue cif w.arg t ∧ w.offset < t.size
  others : ∀ g, .other g ∈ acts → ∀ σ : Store ω, σ.memory.length ≤ (g σ).memory.length ∧
    ∀ q, InArg cif avalue q → (g σ).memory[q]? = σ.memory[q]?

def pointer (avalue : List ℕ) (k : ℕ) : ℕ := (avalue[k]?).getD 0

/-- Where a store goes. -/
def place (avalue : List ℕ) (w : Write) : ℕ := pointer avalue w.arg + w.offset

/-- The stores among the actions, as stores to the storage. -/
def storesOf (avalue : List ℕ) : List (Action ω) → List (ℕ × UInt8)
  | [] => []
  | .write w :: acts => (place avalue w, w.byte) :: storesOf avalue acts
  | .other _ :: acts => storesOf avalue acts

theorem zip_pointer (hcount : avalue.length = cif.argTypes.length) {k : ℕ} {t : ArgType}
    (h : cif.argTypes[k]? = some t) :
    (cif.argTypes.zip avalue)[k]? = some (t, pointer avalue k) := by
  have hk := (List.getElem?_eq_some_iff.mp h).1
  have hp : avalue[k]? = some (pointer avalue k) := by
    rw [pointer, List.getElem?_eq_getElem (by omega), Option.getD_some]
  exact List.getElem?_zip_eq_some.mpr ⟨h, hp⟩

theorem inArg_of_lt (hcount : avalue.length = cif.argTypes.length) {k o : ℕ} {t : ArgType}
    (h : cif.argTypes[k]? = some t) (ho : o < t.size) : InArg cif avalue (pointer avalue k + o) :=
  ⟨_, List.mem_of_getElem? (zip_pointer hcount h), Nat.le_add_right .., Nat.add_lt_add_left ho _⟩

theorem Discreet.place (h : Discreet cif avalue acts) (hcount : avalue.length = cif.argTypes.length)
    {w : Write} (hw : .write w ∈ acts) : InArg cif avalue (RawFfi.place avalue w) := by
  obtain ⟨t, ht, ho⟩ := h.writes w hw
  exact inArg_of_lt hcount ht.1 ho

theorem Discreet.tail {a : Action ω} (h : Discreet cif avalue (a :: acts)) :
    Discreet cif avalue acts :=
  ⟨fun w hw => h.writes w (List.mem_cons_of_mem a hw),
    fun g hg => h.others g (List.mem_cons_of_mem a hg)⟩

theorem Discreet.front {more : List (Action ω)} (h : Discreet cif avalue (acts ++ more)) :
    Discreet cif avalue acts :=
  ⟨fun w hw => h.writes w (List.mem_append_left more hw),
    fun g hg => h.others g (List.mem_append_left more hg)⟩

/-- With the same pointers for the stores, the actions are the same. -/
theorem runActs_congr {ptr ptr' : ℕ → ℕ} (h : ∀ w, .write w ∈ acts → ptr w.arg = ptr' w.arg)
    (σ : Store ω) : runActs ptr acts σ = runActs ptr' acts σ := by
  induction acts generalizing σ with
  | nil => rfl
  | cons a acts ih =>
    have hfirst : act ptr a σ = act ptr' a σ := by
      cases a with
      | write w => rw [act, act, h w (List.mem_cons_self ..)]
      | other g => rfl
    rw [runActs, List.foldl_cons, hfirst]
    exact ih (fun w hw => h w (List.mem_cons_of_mem a hw)) _

/-- The storage during the actions: the stores so far, on what it was. -/
theorem runActs_storage (hcount : avalue.length = cif.argTypes.length)
    (hacts : Discreet cif avalue acts) (σ : Store ω) (memory : List UInt8)
    (hlt : ∀ q, InArg cif avalue q → q < memory.length)
    (hlen : memory.length ≤ σ.memory.length)
    (hsame : ∀ q, InArg cif avalue q → σ.memory[q]? = memory[q]?) :
    memory.length ≤ (runActs (pointer avalue) acts σ).memory.length ∧
      ∀ q, InArg cif avalue q → (runActs (pointer avalue) acts σ).memory[q]? =
        (storeAll memory (storesOf avalue acts))[q]? := by
  induction acts generalizing σ memory with
  | nil => exact ⟨hlen, hsame⟩
  | cons a acts ih =>
    cases a with
    | write w =>
      have hplace := hlt _ (hacts.place hcount (List.mem_cons_self ..))
      have hin : place avalue w + [w.byte].length ≤ memory.length := hplace
      have hin' : place avalue w + [w.byte].length ≤ σ.memory.length := hplace.trans_le hlen
      have hlength : (splice memory (place avalue w) [w.byte]).length = memory.length :=
        splice_length hin
      have hlength' : (splice σ.memory (place avalue w) [w.byte]).length = σ.memory.length :=
        splice_length hin'
      have hrest := ih hacts.tail (setMemory σ (splice σ.memory (place avalue w) [w.byte]))
        (splice memory (place avalue w) [w.byte]) (fun q hq => hlength ▸ hlt q hq)
        (by rw [setMemory_memory, hlength, hlength']; exact hlen) fun q hq => by
          rw [setMemory_memory]
          by_cases heq : q = place avalue w
          · rw [getElem?_splice_inside hin (by omega) (by rw [heq]; simp),
              getElem?_splice_inside hin' (by omega) (by rw [heq]; simp)]
          · rw [getElem?_splice_outside hin (by rw [List.length_singleton]; omega),
              getElem?_splice_outside hin' (by rw [List.length_singleton]; omega), hsame q hq]
      rw [hlength] at hrest
      exact hrest
    | other g =>
      obtain ⟨hgrow, hkeep⟩ := hacts.others g (List.mem_cons_self ..) σ
      exact ih hacts.tail (g σ) memory hlt (hlen.trans hgrow)
        fun q hq => (hkeep q hq).trans (hsame q hq)

theorem storesOf_mem {s : ℕ × UInt8} (h : s ∈ storesOf avalue acts) :
    ∃ w, .write w ∈ acts ∧ s = (place avalue w, w.byte) := by
  induction acts with
  | nil => cases h
  | cons a acts ih =>
    cases a with
    | write w =>
      rcases List.mem_cons.mp h with rfl | h
      · exact ⟨w, List.mem_cons_self .., rfl⟩
      · obtain ⟨w', hw', hs⟩ := ih h
        exact ⟨w', List.mem_cons_of_mem _ hw', hs⟩
    | other g =>
      obtain ⟨w', hw', hs⟩ := ih h
      exact ⟨w', List.mem_cons_of_mem _ hw', hs⟩

/-- The storage is as before exactly if the stores put back what was there. -/
theorem unchanged_iff (hcount : avalue.length = cif.argTypes.length)
    (hacts : Discreet cif avalue acts) {memory : List UInt8}
    (hlt : ∀ q, InArg cif avalue q → q < memory.length) :
    (∀ q, InArg cif avalue q → (storeAll memory (storesOf avalue acts))[q]? = memory[q]?) ↔
      storeAll memory (storesOf avalue acts) = memory := by
  have hplaces : ∀ s ∈ storesOf avalue acts, InArg cif avalue s.1 := by
    intro s hs
    obtain ⟨w, hw, rfl⟩ := storesOf_mem hs
    exact hacts.place hcount hw
  refine ⟨fun h => List.ext_getElem? fun q => ?_, fun h q _ => by rw [h]⟩
  by_cases hq : InArg cif avalue q
  · exact h q hq
  · exact getElem?_storeAll_outside (fun s hs => hlt _ (hplaces s hs))
      fun s hs heq => hq (heq ▸ hplaces s hs)

end Storage

section Sharing
variable {ω : Type} {cif : FfiCif} {avalue : List ℕ} {acts : List (Action ω)} {σ : Store ω}

/-- A store through one by-value parameter is not seen through another. -/
def Independent (cif : FfiCif) (ptr : ℕ → ℕ) (acts : List (Action ω)) (σ : Store ω) : Prop :=
  ∀ pre w post, acts = pre ++ .write w :: post → ∀ j t, ByValue cif j t → j ≠ w.arg →
    ∀ o < t.size, (act ptr (.write w) (runActs ptr pre σ)).memory[ptr j + o]? =
      (runActs ptr pre σ).memory[ptr j + o]?

/-- The target puts back what it changes through its by-value parameters, and stores what is there
where two of them have the same storage. -/
structure Restored (cif : FfiCif) (avalue : List ℕ) (acts : List (Action ω))
    (memory : List UInt8) : Prop where
  back : storeAll memory (storesOf avalue acts) = memory
  shared : ∀ w, .write w ∈ acts → ∀ j t, ByValue cif j t → j ≠ w.arg →
    pointer avalue j ≤ place avalue w → place avalue w < pointer avalue j + t.size →
    memory[place avalue w]? = some w.byte

theorem Independent.congr {ptr ptr' : ℕ → ℕ} (hacts : Discreet cif avalue acts)
    (h : ∀ k t, ByValue cif k t → ptr k = ptr' k) (hi : Independent cif ptr acts σ) :
    Independent cif ptr' acts σ := by
  intro pre w post heq j t hj hne o ho
  have hwrites : ∀ w', .write w' ∈ acts → ptr w'.arg = ptr' w'.arg := fun w' hw' => by
    obtain ⟨t', ht', -⟩ := hacts.writes w' hw'
    exact h _ t' ht'
  have hpre : runActs ptr pre σ = runActs ptr' pre σ :=
    runActs_congr (fun w' hw' => hwrites w' (heq ▸ List.mem_append_left _ hw')) σ
  have hw : ptr w.arg = ptr' w.arg :=
    hwrites w (heq ▸ List.mem_append_right pre (List.mem_cons_self ..))
  have hthis := hi pre w post heq j t hj hne o ho
  rw [h j t hj, act, hw, hpre] at hthis
  exact hthis

theorem runActs_concat (ptr : ℕ → ℕ) (pre : List (Action ω)) (a : Action ω) :
    runActs ptr (pre ++ [a]) σ = act ptr a (runActs ptr pre σ) :=
  List.foldl_concat ..

/-- A store to the storage, seen at a byte of it. -/
theorem act_write (hcount : avalue.length = cif.argTypes.length)
    (hacts : Discreet cif avalue acts) (hlt : ∀ q, InArg cif avalue q → q < σ.memory.length)
    {pre post : List (Action ω)} {w : Write} (heq : acts = pre ++ .write w :: post) (q : ℕ) :
    (act (pointer avalue) (.write w) (runActs (pointer avalue) pre σ)).memory[q]? =
      if q = place avalue w then some w.byte
      else (runActs (pointer avalue) pre σ).memory[q]? := by
  have hpre : Discreet cif avalue pre := (heq ▸ hacts : Discreet cif avalue (pre ++ _)).front
  have hlen := (runActs_storage hcount hpre σ σ.memory hlt (Nat.le_refl _) fun _ _ => rfl).1
  have hw : .write w ∈ acts := heq ▸ List.mem_append_right pre (List.mem_cons_self ..)
  have hin : place avalue w + [w.byte].length ≤
      (runActs (pointer avalue) pre σ).memory.length :=
    (hlt _ (hacts.place hcount hw)).trans_le hlen
  by_cases hq : q = place avalue w
  · rw [if_pos hq, hq]
    exact (getElem?_splice_inside hin (Nat.le_refl _) (by simp)).trans (by simp)
  · rw [if_neg hq]
    have hout : q < place avalue w ∨ place avalue w + 1 ≤ q := by omega
    exact getElem?_splice_outside hin hout

/-- A byte that every store to it leaves as it was. -/
theorem runActs_const (hcount : avalue.length = cif.argTypes.length)
    (hlt : ∀ q, InArg cif avalue q → q < σ.memory.length) {q : ℕ} (hq : InArg cif avalue q)
    (hacts : Discreet cif avalue acts)
    (hkeep : ∀ pre w post, acts = pre ++ .write w :: post → place avalue w = q →
      (runActs (pointer avalue) pre σ).memory[q]? = σ.memory[q]? →
      (act (pointer avalue) (.write w) (runActs (pointer avalue) pre σ)).memory[q]? =
        σ.memory[q]?) :
    (runActs (pointer avalue) acts σ).memory[q]? = σ.memory[q]? := by
  induction acts using List.reverseRecOn with
  | nil => rfl
  | append_singleton pre a ih =>
    have hih := ih hacts.front fun pre' w post heq => hkeep pre' w (post ++ [a]) (by rw [heq]; simp)
    rw [runActs_concat]
    cases a with
    | write w =>
      by_cases hw : place avalue w = q
      · exact hkeep pre w [] rfl hw hih
      · rw [act_write hcount hacts hlt rfl, if_neg (Ne.symm hw)]
        exact hih
    | other g =>
      obtain ⟨-, hsame⟩ := hacts.others g (List.mem_append_right pre (List.mem_cons_self ..))
        (runActs (pointer avalue) pre σ)
      exact (hsame q hq).trans hih

/-- A byte of two by-value arguments belongs to one other than a given one. -/
theorem other_of_two {i j : ℕ} {t u : ArgType} {q : ℕ} (hij : i ≠ j) (hi : ByValue cif i t)
    (hj : ByValue cif j u) (hqi : pointer avalue i ≤ q ∧ q < pointer avalue i + t.size)
    (hqj : pointer avalue j ≤ q ∧ q < pointer avalue j + u.size) (k : ℕ) :
    ∃ m v, ByValue cif m v ∧ m ≠ k ∧ pointer avalue m ≤ q ∧ q < pointer avalue m + v.size := by
  by_cases hk : i = k
  · exact ⟨j, u, hj, fun h => hij (hk.trans h.symm), hqj⟩
  · exact ⟨i, t, hi, hk, hqi⟩

theorem independent_iff (hcount : avalue.length = cif.argTypes.length)
    (hacts : Discreet cif avalue acts) (hlt : ∀ q, InArg cif avalue q → q < σ.memory.length) :
    Independent cif (pointer avalue) acts σ ↔
      ∀ w, .write w ∈ acts → ∀ j t, ByValue cif j t → j ≠ w.arg →
        pointer avalue j ≤ place avalue w → place avalue w < pointer avalue j + t.size →
        σ.memory[place avalue w]? = some w.byte := by
  -- a byte that argument `j` shares with the argument that `w` is for
  have hpair : ∀ w, .write w ∈ acts → ∀ j t, ByValue cif j t → j ≠ w.arg →
      pointer avalue j ≤ place avalue w → place avalue w < pointer avalue j + t.size →
      ∀ k, ∃ m v, ByValue cif m v ∧ m ≠ k ∧ pointer avalue m ≤ place avalue w ∧
        place avalue w < pointer avalue m + v.size := by
    intro w hw j t hj hne hlow hhigh
    obtain ⟨u, hu, ho⟩ := hacts.writes w hw
    exact other_of_two hne hj hu ⟨hlow, hhigh⟩
      ⟨Nat.le_add_right .., Nat.add_lt_add_left ho _⟩
  constructor
  · intro hi w hw j t hj hne hlow hhigh
    obtain ⟨pre, post, heq⟩ := List.append_of_mem hw
    have hpre : Discreet cif avalue pre := (heq ▸ hacts : Discreet cif avalue (pre ++ _)).front
    have hconst := runActs_const hcount hlt (hacts.place hcount hw) hpre
      fun pre' w' post' heq' hplace hbefore => by
        obtain ⟨m, v, hm, hmne, hmlow, hmhigh⟩ := hpair w hw j t hj hne hlow hhigh w'.arg
        have hsame := hi pre' w' (post' ++ .write w :: post) (by rw [heq, heq']; simp) m v hm hmne
          (place avalue w - pointer avalue m) (by omega)
        rw [Nat.add_sub_cancel' hmlow] at hsame
        exact hsame.trans hbefore
    have hsame := hi pre w post heq j t hj hne (place avalue w - pointer avalue j) (by omega)
    rw [Nat.add_sub_cancel' hlow, act_write hcount hacts hlt heq, if_pos rfl] at hsame
    exact hconst.symm.trans hsame.symm
  · intro h pre w post heq j t hj hne o ho
    rw [act_write hcount hacts hlt heq]
    by_cases hplace : pointer avalue j + o = place avalue w
    · have hw : .write w ∈ acts := heq ▸ List.mem_append_right pre (List.mem_cons_self ..)
      have hpre : Discreet cif avalue pre := (heq ▸ hacts : Discreet cif avalue (pre ++ _)).front
      have hlow : pointer avalue j ≤ place avalue w := hplace ▸ Nat.le_add_right ..
      have hhigh : place avalue w < pointer avalue j + t.size := by omega
      have hconst := runActs_const hcount hlt (hacts.place hcount hw) hpre
        fun pre' w' post' heq' hplace' _ => by
          obtain ⟨m, v, hm, hmne, hmlow, hmhigh⟩ := hpair w hw j t hj hne hlow hhigh w'.arg
          have hw' : .write w' ∈ acts := by
            rw [heq, heq']
            simp
          have hbyte := h w' hw' m v hm hmne (hplace' ▸ hmlow) (hplace' ▸ hmhigh)
          rw [act_write hcount hpre hlt heq', if_pos hplace'.symm, ← hbyte, hplace']
      rw [if_pos hplace, hplace, hconst]
      exact (h w hw j t hj hne hlow hhigh).symm
    · rw [if_neg hplace]

end Sharing

section Results
variable {ω : Type} {cif : FfiCif} {l : Locals} {rvalue : ℕ} {avalue : List ℕ} {σ σ' : Store ω}

theorem writeBytes_ok {p : ℕ} {bytes : List UInt8} (h : writeBytes p bytes σ = .ok () σ') :
    p + bytes.length ≤ σ.memory.length ∧ σ' = setMemory σ (splice σ.memory p bytes) := by
  simp only [writeBytes, run_bind, run_get, store] at h
  by_cases hin : p + bytes.length ≤ σ.memory.length
  · rw [if_pos hin] at h
    cases h
    exact ⟨hin, rfl⟩
  · rw [if_neg hin] at h
    cases h

/-- Passing on the result leaves the storage of the arguments alone. -/
theorem passResult_storage {rs : List Value} (h : passResult l rvalue rs σ = .ok () σ')
    (hclear : ∀ q, InArg cif avalue q → ¬ l.Owns q)
    (hplace : ∀ v ∈ rs, rvalue ≠ 0 → ∀ q, InArg cif avalue q →
      q < rvalue ∨ rvalue + v.type.width ≤ q) {q : ℕ} (hq : InArg cif avalue q) :
    σ'.memory[q]? = σ.memory[q]? := by
  cases rs with
  | nil =>
    cases h
    rfl
  | cons v rs =>
    have hlen := bytes_length v
    have hwidth := width_cases v.type
    have hrun : passResult l rvalue (v :: rs) σ =
        EStateM.bind (writeBytes l.retbuf v.bytes) (fun _ =>
          if rvalue ≠ 0 then writeBytes rvalue v.bytes else pure ()) σ := rfl
    rw [hrun, EStateM.bind] at h
    cases hfirst : (writeBytes l.retbuf v.bytes : Run ω Unit) σ with
    | error e τ =>
      rw [hfirst] at h
      cases h
    | ok u τ =>
      rw [hfirst] at h
      obtain ⟨hin, rfl⟩ := writeBytes_ok hfirst
      have hout : q < l.retbuf ∨ l.retbuf + v.bytes.length ≤ q := by
        have howns := hclear q hq
        unfold Locals.Owns at howns
        omega
      have hbuf := getElem?_splice_outside hin hout
      dsimp only at h
      by_cases hnull : rvalue ≠ 0
      · rw [if_pos hnull] at h
        obtain ⟨hin', rfl⟩ := writeBytes_ok h
        have happart := hplace v (List.mem_cons_self ..) hnull q hq
        exact (getElem?_splice_outside hin' (by omega)).trans hbuf
      · rw [if_neg hnull] at h
        cases h
        exact hbuf

/-- A call with an aggregate takes the run-time path. -/
theorem ffiCall_runtime {k : ℕ} {t : ArgType} (hbyValue : ByValue cif k t)
    (table : BitVec 32 → Option (Entry ω)) (host : BitVec 32 → ℕ → ℕ → ℕ → ℕ → Run ω ℕ)
    (fn : BitVec 32) :
    ffiCall table host cif l fn rvalue avalue = wasmRuntimeFfiCall host cif l fn rvalue avalue := by
  have hscalar : isScalar t.type = false := by
    have haggregate := hbyValue.2
    cases htype : t.type <;> rw [htype] at haggregate <;> first | rfl | cases haggregate
  have hany : (cif.cif.argTypes.any fun t => !isScalar t) = true :=
    List.any_eq_true.mpr ⟨t.type, List.mem_map_of_mem (List.mem_of_getElem? hbyValue.1),
      by simp [hscalar]⟩
  have hneeds : Trampolines.needsRuntime cif.cif = true := by
    rw [Trampolines.needsRuntime, hany, Bool.or_true]
  rw [ffiCall, Trampolines.ffiCall, hneeds]
  rfl

/-- After its lowering, a call with an aggregate is the target's actions. -/
theorem ffiCall_of_lower (hfits : l.Fits σ.memory.length) (hheld : Held cif l avalue σ.memory)
    {k : ℕ} {t : ArgType} (hbyValue : ByValue cif k t) (acts : List (Action ω)) (rs : List Value)
    (htypes : rs.map Value.type = (retType cif.rtype).toList)
    {table : BitVec 32 → Option (Entry ω)} {isCanonicalSlot : BitVec 32 → Bool} {fn : BitVec 32}
    (hreach : Reaches table isCanonicalSlot fn (target cif acts rs htypes)) (fuel : ℕ)
    {vs : List Value} {σ₁ : Store ω} (hparams : params cif l rvalue avalue σ.memory = some vs)
    (hlower : lower cif l rvalue avalue σ = .ok vs.length σ₁) (hcount : vs.length ≤ 88)
    (hdescribed : Described cif l avalue σ σ₁ vs) :
    ffiCall table (hostFfiCall table isCanonicalSlot fuel) cif l fn rvalue avalue σ =
      passResult l rvalue rs (runActs (received cif vs σ₁.memory) acts σ₁) := by
  have hsig := params_types hheld.count hparams
  have hlimit : (targetSig cif).params.length ≤ canonicalParams := by
    rw [← hsig, List.length_map]
    exact hcount.trans (by decide)
  have hcall : ∀ a r τ, genTrampoline table (targetSig cif) (isCanonicalSlot fn) fuel a r fn τ =
      FfiCodegen.ffiCall (target cif acts rs htypes) a r τ := hreach.call hlimit fuel
  have heq : wasmRuntimeFfiCall (hostFfiCall table isCanonicalSlot fuel) cif l fn rvalue avalue σ =
      settle (passResult l rvalue) σ₁ ((target cif acts rs htypes).run vs σ₁) := by
    generalize target cif acts rs htypes = f at hcall
    revert f
    rw [← hsig]
    intro f hcall
    exact wasmRuntimeFfiCall_eq hfits hlower hdescribed hcount f hcall
  rw [ffiCall_runtime hbyValue, heq]
  rfl

/-- A call with an aggregate that returns: what the target was called with, and what is left. -/
theorem ffiCall_returned (hfits : l.Fits σ.memory.length) (hrvalue : rvalue < 2 ^ 32)
    (hheld : Held cif l avalue σ.memory) {k : ℕ} {t : ArgType} (hbyValue : ByValue cif k t)
    (acts : List (Action ω)) (rs : List Value)
    (htypes : rs.map Value.type = (retType cif.rtype).toList)
    {table : BitVec 32 → Option (Entry ω)} {isCanonicalSlot : BitVec 32 → Bool} {fn : BitVec 32}
    (hreach : Reaches table isCanonicalSlot fn (target cif acts rs htypes)) (fuel : ℕ)
    (hreturn : ffiCall table (hostFfiCall table isCanonicalSlot fuel) cif l fn rvalue avalue σ =
      .ok () σ') :
    ∃ vs σ₁, params cif l rvalue avalue σ.memory = some vs ∧
      lower cif l rvalue avalue σ = .ok vs.length σ₁ ∧ Described cif l avalue σ σ₁ vs ∧
      passResult l rvalue rs (runActs (received cif vs σ₁.memory) acts σ₁) = .ok () σ' := by
  have hlower := lower_wp cif avalue hfits hrvalue hheld.storage
  unfold Effects.Wp at hlower
  cases hrun : lower cif l rvalue avalue σ with
  | error e τ =>
    have hbind : wasmRuntimeFfiCall (hostFfiCall table isCanonicalSlot fuel) cif l fn rvalue avalue
        σ = EStateM.bind (lower cif l rvalue avalue) (fun np =>
          hostFfiCall table isCanonicalSlot fuel fn l.args l.retbuf l.sig (2 + np) >>= fun rc =>
            if rc ≠ 0 then throw (.unsupported "runtime trampoline call failed")
            else deliver l cif.rtype rvalue) σ := rfl
    rw [ffiCall_runtime hbyValue, hbind, EStateM.bind, hrun] at hreturn
    cases hreturn
  | ok np σ₁ =>
    rw [hrun] at hlower
    obtain ⟨vs, hparams, rfl, hcount, hdescribed⟩ := hlower
    rw [ffiCall_of_lower hfits hheld hbyValue acts rs htypes hreach fuel hparams hrun hcount
      hdescribed] at hreturn
    exact ⟨vs, σ₁, hparams, rfl, hdescribed, hreturn⟩

/-- A call with an aggregate that has a place, to a target without a result. -/
theorem ffiCall_lowerable (hfits : l.Fits σ.memory.length) (hrvalue : rvalue < 2 ^ 32)
    (hheld : Held cif l avalue σ.memory) {k : ℕ} {t : ArgType} (hbyValue : ByValue cif k t)
    (hlowerable : Lowerable cif avalue) (acts : List (Action ω))
    (hresult : ([] : List Value).map Value.type = (retType cif.rtype).toList)
    {table : BitVec 32 → Option (Entry ω)} {isCanonicalSlot : BitVec 32 → Bool} {fn : BitVec 32}
    (hreach : Reaches table isCanonicalSlot fn (target cif acts [] hresult)) (fuel : ℕ) :
    ∃ vs σ₁, params cif l rvalue avalue σ.memory = some vs ∧ Described cif l avalue σ σ₁ vs ∧
      ffiCall table (hostFfiCall table isCanonicalSlot fuel) cif l fn rvalue avalue σ =
        .ok () (runActs (received cif vs σ₁.memory) acts σ₁) := by
  have hlower := (lower_wp cif avalue hfits hrvalue hheld.storage).mono (fun _ _ h => h)
    fun e _ herror => herror.2 hlowerable
  obtain ⟨np, σ₁, hrun, vs, hparams, rfl, hcount, hdescribed⟩ := hlower.returned
  exact ⟨vs, σ₁, hparams, hdescribed, ffiCall_of_lower hfits hheld hbyValue acts [] hresult hreach
    fuel hparams hrun hcount hdescribed⟩

/-- The arguments' storage is as before the call, and by-value arguments are independent in the
target, exactly if the target puts back what it changes through its by-value parameters: they are
the caller's storage. -/
theorem aggregates_by_value_iff (cif : FfiCif) (l : Locals) (rvalue : ℕ) (avalue : List ℕ)
    (σ : Store ω) (hfits : l.Fits σ.memory.length) (hrvalue : rvalue < 2 ^ 32)
    (hheld : Held cif l avalue σ.memory) (hbyValue : ∃ k t, ByValue cif k t)
    (acts : List (Action ω)) (hacts : Discreet cif avalue acts) (rs : List Value)
    (htypes : rs.map Value.type = (retType cif.rtype).toList)
    (hplace : ∀ v ∈ rs, rvalue ≠ 0 → ∀ q, InArg cif avalue q →
      q < rvalue ∨ rvalue + v.type.width ≤ q)
    (table : BitVec 32 → Option (Entry ω)) (isCanonicalSlot : BitVec 32 → Bool) (fn : BitVec 32)
    (hreach : Reaches table isCanonicalSlot fn (target cif acts rs htypes)) (fuel : ℕ)
    (σ' : Store ω) (hreturn : ffiCall table (hostFfiCall table isCanonicalSlot fuel) cif l fn
      rvalue avalue σ = .ok () σ') :
    ∃ vs σ₁, params cif l rvalue avalue σ.memory = some vs ∧
      lower cif l rvalue avalue σ = .ok vs.length σ₁ ∧
      (((∀ q, InArg cif avalue q → σ'.memory[q]? = σ.memory[q]?) ∧
        Independent cif (received cif vs σ₁.memory) acts σ₁) ↔
        Restored cif avalue acts σ.memory) := by
  obtain ⟨k, t, hkt⟩ := hbyValue
  obtain ⟨vs, σ₁, hparams, hlower, hdescribed, hpass⟩ :=
    ffiCall_returned hfits hrvalue hheld hkt acts rs htypes hreach fuel hreturn
  refine ⟨vs, σ₁, hparams, hlower, ?_⟩
  have hcount := hheld.count
  have hsame := hdescribed.lowered.same
  have hptr : ∀ k t, ByValue cif k t → received cif vs σ₁.memory k = pointer avalue k := by
    intro k t hk
    have hzip := zip_pointer hcount hk.1
    exact received_eq hfits hcount hparams hdescribed hzip hk.2
      (hheld.inside _ (List.mem_of_getElem? hzip)).1
  have hrun : runActs (received cif vs σ₁.memory) acts σ₁ = runActs (pointer avalue) acts σ₁ := by
    refine runActs_congr (fun w hw => ?_) σ₁
    obtain ⟨t, ht, -⟩ := hacts.writes w hw
    exact hptr _ t ht
  have hstorage : ∀ q, InArg cif avalue q → σ₁.memory[q]? = σ.memory[q]? :=
    fun q hq => hsame.bytes q (hheld.clear q hq)
  have hlt : ∀ q, InArg cif avalue q → q < σ.memory.length := fun q hq => hheld.lt hq
  have hlt₁ : ∀ q, InArg cif avalue q → q < σ₁.memory.length := fun q hq =>
    hsame.length ▸ hlt q hq
  have hacted := (runActs_storage hcount hacts σ₁ σ.memory hlt hsame.length.ge hstorage).2
  have hframe : (∀ q, InArg cif avalue q → σ'.memory[q]? = σ.memory[q]?) ↔
      storeAll σ.memory (storesOf avalue acts) = σ.memory := by
    rw [← unchanged_iff hcount hacts hlt]
    refine forall₂_congr fun q hq => ?_
    rw [passResult_storage hpass hheld.clear hplace hq, hrun, hacted q hq]
  have hindependent : Independent cif (received cif vs σ₁.memory) acts σ₁ ↔
      Independent cif (pointer avalue) acts σ₁ :=
    ⟨fun h => h.congr hacts hptr, fun h => h.congr hacts fun k t hk => (hptr k t hk).symm⟩
  rw [hframe, hindependent, independent_iff hcount hacts hlt₁]
  have hbyte : ∀ w, .write w ∈ acts →
      σ₁.memory[place avalue w]? = σ.memory[place avalue w]? := fun w hw =>
    hstorage _ (hacts.place hcount hw)
  constructor
  · rintro ⟨hback, hshared⟩
    exact ⟨hback, fun w hw j t hj hne hlow hhigh =>
      (hbyte w hw).symm.trans (hshared w hw j t hj hne hlow hhigh)⟩
  · rintro ⟨hback, hshared⟩
    exact ⟨hback, fun w hw j t hj hne hlow hhigh =>
      (hbyte w hw).trans (hshared w hw j t hj hne hlow hhigh)⟩

end Results

section Runs

def structType : ArgType := ⟨.struct, 4, 4, fun h => (nomatch h), fun h => (nomatch h)⟩

theorem held_low {cif : FfiCif} {avalue : List ℕ} {len : ℕ}
    (hcount : avalue.length = cif.argTypes.length) (hlen : len ≤ 2 ^ 32)
    (h : ∀ a ∈ cif.argTypes.zip avalue, 1520 ≤ a.2 ∧ a.2 + a.1.size < len) :
    Held cif lowLocals avalue (zeroStore len).memory := by
  refine ⟨hcount, fun a ha => ?_, ?_⟩
  · obtain ⟨-, hhigh⟩ := h a ha
    rw [zeroStore_length]
    omega
  · rintro q ⟨a, ha, hlow, hhigh⟩
    exact lowLocals_clear (n := a.1.size) (h a ha).1 q hlow hhigh

/-- Two structures in one place, the second of them variadic, and a structure to return. -/
def twiceStruct : FfiCif := ⟨.struct, [structType, byteType, structType], 2, by decide⟩

/-- A store of what is there. -/
def idleWrite : List (Action Unit) := [.write ⟨2, 1, 0⟩]

theorem discreet_idleWrite : Discreet twiceStruct [1520, 1524, 1520] idleWrite := by
  refine ⟨fun w hw => ?_, fun g hg => ?_⟩
  · cases hw with
    | head => exact ⟨structType, ⟨rfl, rfl⟩, by decide⟩
    | tail _ hw => cases hw
  · cases hg with
    | tail _ hg => cases hg

theorem aggregates_twiceStruct :
    ∃ (σ' : Store Unit) (vs : List Value) (σ₁ : Store Unit),
      params twiceStruct lowLocals 1600 [1520, 1524, 1520] (zeroStore 2000).memory = some vs ∧
      (((∀ q, InArg twiceStruct [1520, 1524, 1520] q →
          σ'.memory[q]? = (zeroStore 2000).memory[q]?) ∧
        Independent twiceStruct (received twiceStruct vs σ₁.memory) idleWrite σ₁) ↔
        Restored twiceStruct [1520, 1524, 1520] idleWrite (zeroStore 2000).memory) := by
  have hfits : lowLocals.Fits (zeroStore 2000).memory.length := by
    rw [zeroStore_length]
    exact lowLocals_fits (by decide) (by decide)
  have hheld : Held twiceStruct lowLocals [1520, 1524, 1520] (zeroStore 2000).memory :=
    held_low rfl (by decide) (by decide)
  have hlowerable : Lowerable twiceStruct [1520, 1524, 1520] :=
    ⟨by unfold Passable; decide, by decide, by unfold VarFits; decide⟩
  have hreach : Reaches (fun _ => some (target twiceStruct idleWrite [] rfl).entry)
      (fun _ => false) 7 (target twiceStruct idleWrite [] rfl) := Or.inl ⟨rfl, rfl⟩
  obtain ⟨vs, σ₁, -, -, hreturn⟩ := ffiCall_lowerable hfits (show 1600 < 2 ^ 32 by decide) hheld
    (k := 0) (t := structType) ⟨rfl, rfl⟩ hlowerable idleWrite rfl hreach 0
  obtain ⟨vs', σ₁', hparams, -, hiff⟩ := aggregates_by_value_iff twiceStruct lowLocals 1600
    [1520, 1524, 1520] (zeroStore 2000) hfits (by decide) hheld ⟨0, structType, rfl, rfl⟩ idleWrite
    discreet_idleWrite [] rfl (fun v hv => (nomatch hv)) _ _ 7 hreach 0 _ hreturn
  exact ⟨_, vs', σ₁', hparams, hiff⟩

/-- A structure of four bytes, by value. -/
def oneStruct : FfiCif := ⟨.void, [structType], 1, by decide⟩

/-- A store to the structure. -/
def firstByte : List (Action Unit) := [.write ⟨0, 0, 7⟩]

/-- The target's store to its parameter is one to the caller's argument. -/
theorem argument_overwritten :
    ∃ σ', ffiCall (fun _ => some (target oneStruct firstByte [] rfl).entry)
        (hostFfiCall (fun _ => some (target oneStruct firstByte [] rfl).entry) (fun _ => false) 0)
        oneStruct lowLocals 7 0 [1520] (zeroStore 2000) = .ok () σ' ∧
      InArg oneStruct [1520] 1520 ∧ σ'.memory[1520]? ≠ (zeroStore 2000).memory[1520]? := by
  have hlen := zeroStore_length 2000
  have hfits : lowLocals.Fits (zeroStore 2000).memory.length := by
    rw [hlen]
    exact lowLocals_fits (by decide) (by decide)
  have hheld : Held oneStruct lowLocals [1520] (zeroStore 2000).memory :=
    held_low rfl (by decide) (by decide)
  have hlowerable : Lowerable oneStruct [1520] :=
    ⟨by unfold Passable; decide, by decide, by unfold VarFits; decide⟩
  have hreach : Reaches (fun _ => some (target oneStruct firstByte [] rfl).entry)
      (fun _ => false) 7 (target oneStruct firstByte [] rfl) := Or.inl ⟨rfl, rfl⟩
  obtain ⟨vs, σ₁, hparams, hdescribed, hreturn⟩ := ffiCall_lowerable hfits
    (show 0 < 2 ^ 32 by decide) hheld (k := 0) (t := structType) ⟨rfl, rfl⟩ hlowerable firstByte
    rfl hreach 0
  have hptr : received oneStruct vs σ₁.memory 0 = 1520 :=
    received_eq hfits rfl hparams hdescribed (a := (structType, 1520)) rfl rfl (by decide)
  refine ⟨_, hreturn, ⟨(structType, 1520), List.mem_cons_self .., by decide, by decide⟩, ?_⟩
  have hin : 1520 + 0 + [(7 : UInt8)].length ≤ σ₁.memory.length := by
    rw [hdescribed.lowered.same.length, hlen]
    decide
  have hnow : (runActs (received oneStruct vs σ₁.memory) firstByte σ₁).memory =
      splice σ₁.memory (1520 + 0) [7] := by
    rw [← hptr]
    rfl
  have hbefore : (zeroStore 2000).memory[1520]? = some 0 :=
    List.getElem?_replicate_of_lt (by decide)
  rw [hnow, getElem?_splice_inside hin (by decide) (by decide), hbefore]
  decide

end Runs

end NixWasm.RawFfi
