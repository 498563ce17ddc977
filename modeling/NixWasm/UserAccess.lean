import NixWasm.ByteStore
import NixWasm.Unicode

/-!
The host's access to user memory of mmu-uaccess.ts. Numbers that cross a host import are
integers of either sign and `>>> 0` takes them to 32 bits. The memory is the buffer's bytes; a
write that throws keeps what was already written.
-/
namespace NixWasm.UserAccess

open ByteStore Unicode

inductive AccessKind
  | load | store
deriving DecidableEq

inductive Failure
  | userFault (va : ℕ) (kind : AccessKind) (detail : String)
  /-- A view or a copy that leaves the buffer. -/
  | rangeError
deriving DecidableEq

/-- `x >>> 0`. -/
def toUint32 (x : ℤ) : ℕ := (x % 2 ^ 32).toNat

def page : ℕ := 0x1000

/-- `x & ~PAGE_MASK`, unsigned. -/
def frameOf (x : ℕ) : ℕ := x &&& 0xfffff000

def pageMask : ℕ := 0xfff

def getUint32 (memory : List UInt8) (off : ℕ) : Except Failure ℕ :=
  match field memory off 4 with
  | some v => .ok v
  | none => .error .rangeError

def translateUser (memory : List UInt8) (ptBase va : ℤ) (write : Bool) : Except Failure ℕ := do
  let va := toUint32 va
  let ptBase := toUint32 ptBase
  if ptBase = 0 then return va
  let kind := if write then .store else .load
  let pgdOff := ptBase + (va >>> 22) <<< 2
  if pgdOff + 4 > memory.length then
    throw (.userFault va kind "pgd entry out of memory bounds")
  let pgdE ← getUint32 memory pgdOff
  if pgdE = 0 then throw (.userFault va kind "pgd entry not present")
  let pteOff := frameOf pgdE + ((va >>> 12) &&& 0x3ff) <<< 2
  if pteOff + 4 > memory.length then
    throw (.userFault va kind "pte entry out of memory bounds")
  let pte ← getUint32 memory pteOff
  if pte &&& 1 = 0 then throw (.userFault va kind "pte not present")
  if write ∧ pte &&& 2 = 0 then throw (.userFault va kind "pte not writable (COW/RO page)")
  return frameOf pte + (va &&& pageMask)

/-- `u8.subarray(from, to)`: the part of the range that is there. -/
def subarray (memory : List UInt8) (start stop : ℕ) : List UInt8 :=
  (memory.drop start).take (stop - start)

/-- Bytes up to the end of the page or of the range. -/
def chunkAt (cur remaining : ℕ) : ℕ := min remaining (page - (cur &&& pageMask))

/-- Bytes before the first NUL, if there is one. -/
def beforeNul (bytes : List UInt8) : List UInt8 := bytes.takeWhile (· ≠ 0)

/-- The rounds of `readUserCString`, with the parts joined so far. -/
def scanPages (memory : List UInt8) (ptBase : ℤ) (va max : ℕ) :
    ℕ → ℕ → List UInt8 → Except Failure (List UInt8)
  | 0, _, parts => .ok parts
  | rounds + 1, scanned, parts =>
    if scanned < max then do
      let cur := va + scanned
      let chunk := chunkAt cur (max - scanned)
      let phys ← translateUser memory ptBase cur false
      let bytes := subarray memory phys (phys + chunk)
      if 0 ∈ bytes then return parts ++ beforeNul bytes
      scanPages memory ptBase va max rounds (scanned + chunk) (parts ++ bytes)
    else .ok parts

/-- The bytes that `readUserCString` decodes. -/
def userCStringBytes (memory : List UInt8) (ptBase va : ℤ) (max : ℕ) :
    Except Failure (List UInt8) :=
  let va := toUint32 va
  if ptBase = 0 then .ok (beforeNul (subarray memory va (min memory.length (va + max))))
  else scanPages memory ptBase va max max 0 []

def readUserCString (memory : List UInt8) (ptBase va : ℤ) (max : ℕ) : Except Failure Utf16 :=
  utf8Decode <$> userCStringBytes memory ptBase va max

end NixWasm.UserAccess
