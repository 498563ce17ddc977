import Mathlib.Data.List.Nodup
import Mathlib.Data.Nat.Bitwise
import Mathlib.Data.Nat.Digits.Lemmas

/-!
The raw wasm32 backend of libffi: the trampolines gen-trampolines.py writes, and the
dispatch of ffi_call in wasm32-raw-ffi.c over them. A call is looked up by a key that
packs its return class, its argument count and two bits for the class of each
argument. The key has 32 bits for the arguments, room for sixteen of them; from the
seventeenth on their classes are or-ed into the count and the return class.
-/
namespace NixWasm.Trampolines

section Generator

def maxArgsAllI32 : ℕ := 24
def maxArgsMixed : ℕ := 10
def maxNonI32 : ℕ := 2

/-- The keys of RET: void, u32, uint64_t, float and double. -/
def retClasses : List ℕ := [0, 1, 2, 3, 4]

variable {α : Type}

/-- itertools.combinations: the sublists of length `k`, in order. -/
def combinations : ℕ → List α → List (List α)
  | 0, _ => [[]]
  | _ + 1, [] => []
  | k + 1, x :: xs => (combinations k xs).map (x :: ·) ++ combinations (k + 1) xs

/-- itertools.product(l, repeat=k). -/
def productRepeat (l : List α) : ℕ → List (List α)
  | 0 => [[]]
  | k + 1 => l.flatMap fun x => (productRepeat l k).map (x :: ·)

/-- A vector of `n` i32 arguments with other kinds at some positions. -/
def place (n : ℕ) (positions kinds : List ℕ) : List ℕ :=
  (positions.zip kinds).foldl (fun vec p => vec.set p.1 p.2) (List.replicate n 0)

/-- The mixed vectors of `n` arguments. -/
def mixedVecs (n : ℕ) : List (List ℕ) :=
  ((List.range' 1 maxNonI32).flatMap fun k => combinations k (List.range n)).flatMap
    fun positions => (productRepeat [1, 2, 3] positions.length).map (place n positions)

/-- Argument classes: 0 is i32, 1 is i64, 2 is f32 and 3 is f64. -/
def argvecs : List (List ℕ) :=
  (List.range (maxArgsAllI32 + 1)).map (fun n => List.replicate n 0) ++
    (List.range' 1 maxArgsMixed).flatMap mixedVecs

/-- Two bits for each argument. -/
def packed (vec : List ℕ) : ℕ := vec.zipIdx.foldl (fun av c => av ||| c.1 <<< (2 * c.2)) 0

def key (rc : ℕ) (vec : List ℕ) : ℕ := rc <<< 40 ||| vec.length <<< 32 ||| packed vec

/-- Every return class with every argument vector. -/
def signatures : List (ℕ × List ℕ) := retClasses.flatMap fun rc => argvecs.map (rc, ·)

/-- The loop of emit(): a signature whose key was seen is skipped. -/
def emitFrom (seen : List ℕ) : List (ℕ × List ℕ) → List (ℕ × List ℕ)
  | [] => []
  | s :: rest =>
    if key s.1 s.2 ∈ seen then emitFrom seen rest
    else s :: emitFrom (key s.1 s.2 :: seen) rest

/-- The signatures of the trampolines in the generated switch. -/
def trampolines : List (ℕ × List ℕ) := emitFrom [] signatures

end Generator

section Dispatch

inductive FfiType
  | void | int | float | double | longdouble | uint8 | sint8 | uint16 | sint16 | uint32 | sint32
  | uint64 | sint64 | struct | pointer | complex
deriving DecidableEq

/-- The class of an argument; `none` is an abort. -/
def argClass : FfiType → Option ℕ
  | .int | .uint8 | .sint8 | .uint16 | .sint16 | .uint32 | .sint32 | .pointer => some 0
  | .uint64 | .sint64 => some 1
  | .float => some 2
  | .double => some 3
  | .void | .longdouble | .struct | .complex => none

def retClass : FfiType → Option ℕ
  | .void => some 0
  | .int | .uint8 | .sint8 | .uint16 | .sint16 | .uint32 | .sint32 | .pointer => some 1
  | .uint64 | .sint64 => some 2
  | .float => some 3
  | .double => some 4
  | .longdouble | .struct | .complex => none

def isScalar : FfiType → Bool
  | .int | .uint8 | .sint8 | .uint16 | .sint16 | .uint32 | .sint32 | .pointer => true
  | .uint64 | .sint64 | .float | .double => true
  | .void | .longdouble | .struct | .complex => false

structure Cif where
  rtype : FfiType
  argTypes : List FfiType
  nfixedargs : ℕ

def wasmFfiMaxArgs : ℕ := 24

/-- Does this call need the runtime path? -/
def needsRuntime (cif : Cif) : Bool :=
  cif.nfixedargs != cif.argTypes.length || wasmFfiMaxArgs < cif.argTypes.length ||
    (!isScalar cif.rtype && cif.rtype != .void) || cif.argTypes.any fun t => !isScalar t

/-- Where ffi_call goes: the runtime fallback, or the trampoline of a signature. -/
inductive Target
  | runtime
  | trampoline (rc : ℕ) (vec : List ℕ)
  | abort
deriving DecidableEq

/-- The key as ffi_call computes it. -/
def callKey (rc : ℕ) (vec : List ℕ) : ℕ :=
  vec.zipIdx.foldl (fun k c => k ||| c.1 <<< (2 * c.2)) (rc <<< 40 ||| vec.length <<< 32)

/-- The return class and the argument classes of a call. -/
def signature (cif : Cif) : Option (ℕ × List ℕ) := do
  let rc ← retClass cif.rtype
  let vec ← cif.argTypes.mapM argClass
  return (rc, vec)

def ffiCall (cif : Cif) : Target :=
  if needsRuntime cif then .runtime
  else
    match signature cif with
    | none => .abort
    | some (rc, vec) =>
      match trampolines.find? fun s => key s.1 s.2 = callKey rc vec with
      | some s => .trampoline s.1 s.2
      | none => .runtime

end Dispatch

end NixWasm.Trampolines
