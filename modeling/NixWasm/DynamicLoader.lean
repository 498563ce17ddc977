import Mathlib.Algebra.Group.Nat.Defs
import Mathlib.Algebra.Group.Int.Defs
import NixWasm.Dylink

/-!
The runtime loader of dynamically linked modules: `load` instantiates a side module
into a running process, `dlsym` turns a symbol into an address, and a snapshot of the
log of table operations is replayed in the worker of a forked child. A call is a
function from loader states that may throw; a throw keeps the state reached so far.

What the loader asks of the WebAssembly engine is an `Engine`: which bytes compile,
link and initialise, and what an exported number is. How an instance gets its exports
and writes its element segment is defined here, after the engine's own reading of the
module.
-/
namespace NixWasm.DynamicLoader

open Dylink Unicode

/-- What a call of the loader may throw. -/
inductive Exn where
  | typeError
  | rangeError
  | compileError
  | trap
  | error
  deriving DecidableEq

/-- The instance a function belongs to. A side module is known by the place of its
load in the operation log, which no two loads of one loader share. -/
inductive Owner where
  | main
  | side (logIndex : ℕ)
  deriving DecidableEq

/-- Function references, up to identity. -/
inductive Fn where
  | defined (owner : Owner) (index : ℕ) (type : Option FuncType)
  | faultBridge
  | thunk (sig : FfiSignature) (target : Fn)
  deriving DecidableEq

/-- What an export or an entry of an import object can be. The number of a global is
`none` when reading it as an integer throws. -/
inductive Value where
  | func (f : Fn)
  | host
  | global (number : Option ℤ)
  | other
  deriving DecidableEq

structure Instance where
  exports : List (Utf16 × Value)

def Instance.get (i : Instance) (name : Utf16) : Option Value :=
  (i.exports.find? fun e => e.1 = name).map Prod.snd

structure DlModule where
  handle : ℕ
  name : Utf16
  bytes : Option (List UInt8)
  memoryBase : ℕ
  tableBase : ℕ
  tableCount : ℕ
  global : Bool
  inst : Option Instance
  elemSlots : JsMap Utf16 ℕ
  dynSlots : JsMap Utf16 ℕ
  fpcast : Bool
  sigOf : Utf16 → Option FfiSignature

/-- An operation that changed the layout of the table. -/
inductive DlOp where
  | load (module : ℕ)
  | install (module : ℕ) (name : Utf16)
  | grow (count : ℕ)
  deriving DecidableEq

structure Loader where
  table : List (Option Fn)
  modules : List DlModule
  opLog : List DlOp
  thunkedSlots : List ℕ

/-- The objects handed to an instance. -/
structure Imports where
  env : JsMap Utf16 Value
  memoryBase : ℕ
  tableBase : ℕ
  gotMem : JsMap Utf16 ℤ
  gotFunc : JsMap Utf16 ℕ

/-- The engine's answers. `compiles` covers the soft-MMU instrumentation as well,
`links` the checks of import types, `initialises` the data segments and the start
function, and `mmuStart` the publication of the page-table root with the start function
of an instrumented module. -/
structure Engine where
  tableMax : ℕ
  compiles : List UInt8 → Bool
  links : List UInt8 → Imports → Bool
  globalNumber : List UInt8 → Imports → ℕ → Option ℤ
  initialises : List UInt8 → Imports → Bool
  mmuStart : List UInt8 → Imports → Bool

/-- The main module as the worker instantiated it, with the table it left. -/
structure Main where
  bytes : List UInt8
  memoryBase : ℕ
  tableBase : ℕ
  inst : Instance
  table : List (Option Fn)

/-- What a parent and its forked child share. -/
structure Process where
  engine : Engine
  baseEnv : Utf16 → Option Value
  mmu : Bool
  main : Main

section Engine

/-- Names as the engine decodes them: no byte order mark is dropped. -/
def engineName (bs : List UInt8) : Utf16 := (decodeFrom none bs).flatMap toUnits

/-- The engine's reading of a module. -/
def image (bytes : List UInt8) : Info :=
  match parseWith engineName bytes with
  | .ok info => info
  | .error _ => .initial

variable (E : Engine) (bytes : List UInt8) (imports : Imports) (owner : Owner)

def importValue (i : Import) : Option Value :=
  if i.module = ascii "env" then imports.env.get i.name else none

/-- The function that fills the `k`th function import. A plain host function becomes a
function of the instance, of the type the module declares. -/
def funcImport (k : ℕ) : Option Fn :=
  match ((image bytes).imports.filter fun i => i.kind = kindFunc)[k]? with
  | none => none
  | some i =>
    match importValue imports i with
    | some (.func f) => some f
    | some .host => some (.defined owner k ((image bytes).typeOf k))
    | _ => none

def funcAt (index : ℕ) : Option Fn :=
  if index < (image bytes).funcImportCount then funcImport bytes imports owner index
  else some (.defined owner index ((image bytes).typeOf index))

def exportValue (e : Export) : Value :=
  if e.kind = kindFunc then
    match funcAt bytes imports owner e.index with
    | some f => .func f
    | none => .other
  else if e.kind = kindGlobal then .global (E.globalNumber bytes imports e.index)
  else .other

def newInstance : Instance where
  exports := (image bytes).exports.map fun e => (e.name, exportValue E bytes imports owner e)

/-- Number that an imported or defined global has in a constant expression. -/
def globalAt (index : ℕ) : Option ℤ :=
  match ((image bytes).imports.filter fun i => i.kind = kindGlobal)[index]? with
  | none => E.globalNumber bytes imports index
  | some i =>
    if i.module ≠ ascii "env" then none
    else if i.name = ascii "__table_base" ∨ i.name = ascii "__table_base32" then
      some imports.tableBase
    else if i.name = ascii "__memory_base" then some imports.memoryBase
    else
      match imports.env.get i.name with
      | some (.global number) => number
      | _ => none

/-- First table index an element segment writes. -/
def elemStart : Offset → Option ℕ
  | .const value => some (value % 2 ^ 32).toNat
  | .global index => (globalAt E bytes imports index).map fun v => (v % 2 ^ 32).toNat

/-- Whether table 0 of the module is the process's table. -/
def sharesTable : Bool :=
  match (image bytes).imports.find? fun i => i.kind = kindTable with
  | some i => i.module = ascii "env" ∧ i.name = ascii "__indirect_function_table"
  | none => false

def overwrite (table : List (Option Fn)) (start : ℕ) (fns : List (Option Fn)) :
    List (Option Fn) :=
  table.take start ++ fns ++ table.drop (start + fns.length)

/-- The table after the element segment; `none` when the segment is out of bounds. -/
def initElements (table : List (Option Fn)) : Option (List (Option Fn)) :=
  match (image bytes).elem with
  | none => some table
  | some elem =>
    if sharesTable bytes then
      match elemStart E bytes imports elem.offset with
      | none => none
      | some start =>
        if start + elem.funcIndices.length ≤ table.length then
          some (overwrite table start (elem.funcIndices.map (funcAt bytes imports owner)))
        else none
    else some table

def functionsLink : Bool :=
  (List.range (image bytes).funcImportCount).all fun k =>
    (funcImport bytes imports owner k).isSome

/-- `new WebAssembly.Instance`. A failure after the element segment leaves the entries
it wrote. -/
def instantiate (table : List (Option Fn)) : Option Instance × List (Option Fn) :=
  if functionsLink bytes imports owner && E.links bytes imports then
    match initElements E bytes imports owner table with
    | none => (none, table)
    | some table =>
      if E.initialises bytes imports then (some (newInstance E bytes imports owner), table)
      else (none, table)
  else (none, table)

end Engine

/-- Main first, then the global side modules in load order. A record without an
instance on the way throws. -/
def resolveFrom (name : Utf16) : ℕ → List DlModule → Except Exn (Option (ℕ × Value))
  | _, [] => .ok none
  | k, m :: rest =>
    if m.global then
      match m.inst with
      | none => .error .typeError
      | some i =>
        match i.get name with
        | some v => .ok (some (k, v))
        | none => resolveFrom name (k + 1) rest
    else resolveFrom name (k + 1) rest

def resolveExport (s : Loader) (name : Utf16) : Except Exn (Option (ℕ × Value)) :=
  resolveFrom name 0 s.modules

def fpcastWorld (s : Loader) : Bool :=
  match s.modules.head? with
  | some main => main.fpcast
  | none => false

/-- An adapter to the canonical ABI. The generated module reads every raw parameter out
of a canonical one, so it has no valid code beyond `canonicalParams` of them. -/
def canonicalThunk (sig : FfiSignature) (fn : Fn) : Except Exn Fn :=
  if sig.params.length ≤ canonicalParams then .ok (.thunk sig fn) else .error .compileError

/-- What a dynamic slot gets, and whether that is a thunk. -/
def toInstall (s : Loader) (m : DlModule) (name : Utf16) (fn : Fn) : Except Exn (Fn × Bool) :=
  if fpcastWorld s then
    match m.sigOf name with
    | some sig => (canonicalThunk sig fn).map fun f => (f, true)
    | none => .ok (fn, false)
  else .ok (fn, false)

def install (s : Loader) (k : ℕ) (name : Utf16) (entry : Fn × Bool) (logged : Bool) : Loader where
  table := s.table ++ [some entry.1]
  modules := s.modules.modify k fun m =>
    { m with dynSlots := m.dynSlots.set name s.table.length }
  opLog := if logged then s.opLog ++ [.install k name] else s.opLog
  thunkedSlots :=
    if entry.2 then s.thunkedSlots.insert s.table.length else s.thunkedSlots

/-- Room in the table for `count` more slots. -/
def Room (P : Process) (s : Loader) (count : ℕ) : Prop :=
  count = 0 ∨ s.table.length + count ≤ P.engine.tableMax

instance (P : Process) (s : Loader) (count : ℕ) : Decidable (Room P s count) :=
  inferInstanceAs (Decidable (_ ∨ _))

/-- A function symbol's table index: its element slot, the slot it was given before, or
a new one. -/
def functionAddress (P : Process) (k : ℕ) (name : Utf16) (fn : Fn) (logged : Bool)
    (s : Loader) : Except Exn ℕ × Loader :=
  match s.modules[k]? with
  | none => (.error .typeError, s)
  | some m =>
    match m.elemSlots.get name with
    | some slot => (.ok (m.tableBase + slot), s)
    | none =>
      match m.dynSlots.get name with
      | some index => (.ok index, s)
      | none =>
        match toInstall s m name fn with
        | .error e => (.error e, s)
        | .ok entry =>
          if Room P s 1 then
            (.ok s.table.length, install s k name entry logged)
          else (.error .rangeError, s)

/-- Whether the runtime call path takes the slot for a canonical thunk. -/
def isCanonicalSlot (s : Loader) (index : ℕ) : Bool :=
  if s.modules.any fun m => m.dynSlots.values.any fun slot => slot = index then
    decide (index ∈ s.thunkedSlots)
  else
    match s.modules.find? fun m =>
        m.tableBase ≤ index ∧ index < m.tableBase + m.tableCount with
    | some m => m.fpcast
    | none => fpcastWorld s

/-- How phase 1 of a load ends early. -/
inductive Refusal where
  | errno (e : ℕ)
  | thrown (e : Exn)
  deriving DecidableEq

def einval : ℕ := 22
def enoexec : ℕ := 8

/-- Names of `env` the loader wires itself. -/
def prewired : List Utf16 :=
  [ascii "memory", ascii "__indirect_function_table", ascii "__memory_base",
    ascii "__table_base", ascii "__table_base32", ascii "__stack_pointer"]

/-- The value of a direct import: a loaded module's export, or the worker's own. -/
def envImport (P : Process) (s : Loader) (i : Import) : Except Refusal (Option Value) :=
  if i.kind = kindFunc then
    match resolveExport s i.name with
    | .error e => .error (.thrown e)
    | .ok (some (_, .func f)) => .ok (some (.func f))
    | .ok _ =>
      match P.baseEnv i.name with
      | some v => .ok (some v)
      | none => .error (.errno enoexec)
  else if i.kind = kindGlobal then
    match resolveExport s i.name with
    | .error e => .error (.thrown e)
    | .ok (some (_, .global number)) => .ok (some (.global number))
    | .ok _ =>
      match P.baseEnv i.name with
      | some (.global number) => .ok (some (.global number))
      | _ => .error (.errno enoexec)
  else if i.kind = kindTag then
    match P.baseEnv i.name with
    | some v => .ok (some v)
    | none => .error (.errno enoexec)
  else .ok none

def resolveEnv (P : Process) (s : Loader) :
    List Import → JsMap Utf16 Value → Except Refusal (JsMap Utf16 Value)
  | [], env => .ok env
  | i :: rest, env =>
    if i.module ≠ ascii "env" ∨ i.name ∈ prewired then resolveEnv P s rest env
    else
      match envImport P s i with
      | .error r => .error r
      | .ok none => resolveEnv P s rest env
      | .ok (some v) => resolveEnv P s rest (env.set i.name v)

/-- What phase 1 hands to phase 2. -/
structure Plan where
  info : Info
  tableCount : ℕ
  env : JsMap Utf16 Value

/-- Phase 1: everything that can refuse a module before anything changes. -/
def prepare (P : Process) (s : Loader) (bytes : List UInt8) : Except Refusal Plan :=
  match parseDylinkModule bytes with
  | .error _ => .error (.errno einval)
  | .ok info =>
    match info.dylink with
    | none => .error (.errno enoexec)
    | some dylink =>
      if P.engine.compiles bytes then
        match resolveEnv P s info.imports JsMap.empty with
        | .error r => .error r
        | .ok env => .ok ⟨info, max dylink.tableSize info.elemCount, env⟩
      else .error (.errno enoexec)

/-- The two global offset tables of a module. -/
structure Got where
  mem : JsMap Utf16 ℤ
  func : JsMap Utf16 ℕ

def gotMemEntry (s : Loader) (name : Utf16) : Except Exn ℤ :=
  match resolveExport s name with
  | .error e => .error e
  | .ok (some (k, .global number)) =>
    match s.modules[k]?, number with
    | some m, some v => .ok (m.memoryBase + v)
    | _, _ => .error .typeError
  | .ok _ => .ok 0

def gotFuncEntry (P : Process) (name : Utf16) (s : Loader) : Except Exn ℕ × Loader :=
  match resolveExport s name with
  | .error e => (.error e, s)
  | .ok (some (k, .func f)) => functionAddress P k name f false s
  | .ok _ => (.ok 0, s)

def resolveGot (P : Process) : List Import → Got → Loader → Except Exn Got × Loader
  | [], got, s => (.ok got, s)
  | i :: rest, got, s =>
    if i.module = ascii "GOT.mem" then
      match gotMemEntry s i.name with
      | .error e => (.error e, s)
      | .ok v => resolveGot P rest { got with mem := got.mem.set i.name v } s
    else if i.module = ascii "GOT.func" then
      match gotFuncEntry P i.name s with
      | (.error e, s) => (.error e, s)
      | (.ok v, s) => resolveGot P rest { got with func := got.func.set i.name v } s
    else resolveGot P rest got s

/-- A call of `load`. `initThrows` says whether the module's relocations or
constructors throw; constructors that call the loader again do so after everything
this call changes, and are later calls of the history. -/
structure LoadCall where
  bytes : List UInt8
  memoryBase : ℕ
  name : Utf16
  global : Bool
  initThrows : Bool

/-- The record of a module that is not instantiated yet. -/
def newRecord (c : LoadCall) (plan : Plan) (s : Loader) : DlModule where
  handle := s.modules.length + 1
  name := c.name
  bytes := some c.bytes
  memoryBase := c.memoryBase
  tableBase := s.table.length
  tableCount := plan.tableCount
  global := c.global
  inst := none
  elemSlots := exportedElemSlots plan.info
  dynSlots := JsMap.empty
  fpcast := plan.info.fpcast
  sigOf := buildSigLookup plan.info

/-- The log entry, the reserved table range and the published record of a load. -/
def publish (c : LoadCall) (plan : Plan) (s : Loader) : Loader where
  table := s.table ++ List.replicate plan.tableCount none
  modules := s.modules ++ [newRecord c plan s]
  opLog := s.opLog ++ [.load s.modules.length]
  thunkedSlots := s.thunkedSlots

def importsOf (c : LoadCall) (plan : Plan) (s : Loader) (got : Got) : Imports where
  env := plan.env
  memoryBase := c.memoryBase
  tableBase := s.table.length
  gotMem := got.mem
  gotFunc := got.func

/-- The undo of a load that failed at instantiate: its log entry becomes a hole. -/
def retract (plan : Plan) (s s' : Loader) (table : List (Option Fn)) : Loader where
  table := table
  modules := s'.modules.dropLast
  opLog := s'.opLog.set s.opLog.length (.grow plan.tableCount)
  thunkedSlots := s'.thunkedSlots

def complete (s s' : Loader) (i : Instance) (table : List (Option Fn)) : Loader where
  table := table
  modules := s'.modules.modify s.modules.length fun m => { m with inst := some i }
  opLog := s'.opLog
  thunkedSlots := s'.thunkedSlots

/-- What runs in the new instance; relocations and constructors not on replay. -/
def start (P : Process) (replay : Bool) (c : LoadCall) (imports : Imports) (handle : ℕ) :
    Except Exn ℤ :=
  if P.mmu && !P.engine.mmuStart c.bytes imports then .error .trap
  else if !replay && c.initThrows then .error .trap
  else .ok handle

/-- The end of phase 2, from the state `s'` with the offset tables built; `s` is the
state before the load. -/
def link (P : Process) (replay : Bool) (c : LoadCall) (plan : Plan) (s : Loader) (got : Got)
    (s' : Loader) : Except Exn ℤ × Loader :=
  match instantiate P.engine c.bytes (importsOf c plan s got) (.side s.opLog.length) s'.table with
  | (none, table) => (.ok (-enoexec), retract plan s s' table)
  | (some i, table) =>
    (start P replay c (importsOf c plan s got) (s.modules.length + 1), complete s s' i table)

/-- Phase 2: the table range, the record, the offset tables and the instance. -/
def commit (P : Process) (replay : Bool) (c : LoadCall) (plan : Plan) (s : Loader) :
    Except Exn ℤ × Loader :=
  if Room P s plan.tableCount then
    match resolveGot P plan.info.imports ⟨JsMap.empty, JsMap.empty⟩ (publish c plan s) with
    | (.error e, s') => (.error e, s')
    | (.ok got, s') => link P replay c plan s got s'
  else (.error .rangeError, { s with opLog := s.opLog ++ [.load s.modules.length] })

/-- `load`: the handle of the new module or a negated errno. -/
def load (P : Process) (replay : Bool) (c : LoadCall) (s : Loader) : Except Exn ℤ × Loader :=
  match prepare P s c.bytes with
  | .error (.errno e) => (.ok (-e), s)
  | .error (.thrown e) => (.error e, s)
  | .ok plan => commit P replay c plan s

/-- The first function or global called `name` in the searched modules. -/
def dlsymIn (P : Process) (name : Utf16) :
    List (ℕ × DlModule) → Loader → Except Exn ℤ × Loader
  | [], s => (.ok 0, s)
  | (k, m) :: rest, s =>
    match m.inst with
    | none => (.error .typeError, s)
    | some i =>
      match i.get name with
      | some (.func f) =>
        match functionAddress P k name f true s with
        | (.error e, s) => (.error e, s)
        | (.ok index, s) => (.ok index, s)
      | some (.global (some v)) => (.ok (m.memoryBase + v), s)
      | some (.global none) => (.error .typeError, s)
      | _ => dlsymIn P name rest s

/-- Modules with their places, from place `k` on. -/
def numbered : ℕ → List DlModule → List (ℕ × DlModule)
  | _, [] => []
  | k, m :: rest => (k, m) :: numbered (k + 1) rest

/-- Where `dlsym` looks: handle 0 is the global scope. -/
def searchList (s : Loader) (handle : ℤ) : List (ℕ × DlModule) :=
  if handle = 0 then (numbered 0 s.modules).filter fun e => e.2.global
  else if 0 < handle then
    ((numbered 0 s.modules).drop (handle - 1).toNat).take 1
  else []

def dlsym (P : Process) (handle : ℤ) (name : Utf16) (s : Loader) : Except Exn ℤ × Loader :=
  dlsymIn P name (searchList s handle) s

structure SnapModule where
  name : Utf16
  bytes : List UInt8
  memoryBase : ℕ
  global : Bool

structure Snapshot where
  modules : List SnapModule
  opLog : List DlOp

def snapModule (m : DlModule) : Except Exn SnapModule :=
  match m.bytes with
  | none => .error .typeError
  | some bytes => .ok ⟨m.name, bytes, m.memoryBase, m.global⟩

def snapshot (s : Loader) : Except Exn Snapshot := do
  let modules ← (s.modules.filter fun m => m.handle ≠ 1).mapM snapModule
  return ⟨modules, s.opLog⟩

/-- The replay of a tombstone. -/
def growHole (P : Process) (count : ℕ) (s : Loader) : Except Exn Unit × Loader :=
  if Room P s count then
    (.ok (), { s with
      table := s.table ++ List.replicate count none
      opLog := s.opLog ++ [.grow count] })
  else (.error .rangeError, s)

/-- The replay of a dynamic install, at a fresh slot. -/
def reinstall (P : Process) (k : ℕ) (name : Utf16) (s : Loader) : Except Exn Unit × Loader :=
  match s.modules[k]? with
  | none => (.error .typeError, s)
  | some m =>
    match m.inst with
    | none => (.error .typeError, s)
    | some i =>
      match i.get name with
      | some (.func f) =>
        match functionAddress P k name f true { s with
            modules := s.modules.modify k fun m =>
              { m with dynSlots := m.dynSlots.delete name } } with
        | (.error e, s) => (.error e, s)
        | (.ok _, s) => (.ok (), s)
      | _ => (.error .error, s)

/-- One entry of a replayed log; the result counts the side modules used so far. -/
def replayEntry (P : Process) (modules : List SnapModule) (next : ℕ) (entry : DlOp)
    (s : Loader) : Except Exn ℕ × Loader :=
  match entry with
  | .load _ =>
    match modules[next]? with
    | none => (.error .typeError, s)
    | some m =>
      match load P true ⟨m.bytes, m.memoryBase, m.name, m.global, false⟩ s with
      | (.error e, s) => (.error e, s)
      | (.ok handle, s) => if handle < 0 then (.error .error, s) else (.ok (next + 1), s)
  | .grow count =>
    match growHole P count s with
    | (.error e, s) => (.error e, s)
    | (.ok _, s) => (.ok next, s)
  | .install k name =>
    match reinstall P k name s with
    | (.error e, s) => (.error e, s)
    | (.ok _, s) => (.ok next, s)

def replayFrom (P : Process) (modules : List SnapModule) :
    List DlOp → ℕ → Loader → Except Exn ℕ × Loader
  | [], next, s => (.ok next, s)
  | entry :: rest, next, s =>
    match replayEntry P modules next entry s with
    | (.error e, s) => (.error e, s)
    | (.ok next, s) => replayFrom P modules rest next s

def replay (P : Process) (snap : Snapshot) (s : Loader) : Except Exn ℕ × Loader :=
  replayFrom P snap.modules snap.opLog 0 s

/-- The record of the main module. -/
def mainRecord (main : Main) (info : Info) : DlModule where
  handle := 1
  name := ascii "<main>"
  bytes := none
  memoryBase := main.memoryBase
  tableBase := main.tableBase
  tableCount := info.elemCount
  global := true
  inst := some main.inst
  elemSlots := exportedElemSlots info
  dynSlots := JsMap.empty
  fpcast := info.fpcast
  sigOf := buildSigLookup info

/-- A new loader with its main module registered, as the worker makes one. With the
soft MMU the constructor installs the fault bridge in the table first. -/
def boot (P : Process) : Except ParseError Loader := do
  let info ← parseDylinkModule P.main.bytes
  return {
    table := if P.mmu then P.main.table ++ [some .faultBridge] else P.main.table
    modules := [mainRecord P.main info]
    opLog := []
    thunkedSlots := [] }

end NixWasm.DynamicLoader
