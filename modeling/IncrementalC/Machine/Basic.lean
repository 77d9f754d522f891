import IncrementalC.Machine.Fault
import IncrementalC.NameMap
import IncrementalC.Text.Lossy

/-!
# The machine and its memory

A `Machine` runs code on an operand stack. Its memory has two regions: objects and string literals
of the program lie in `globals`, the frames of active functions in `stack`.

* `Machine.read`, `Machine.write`: one slot of memory.
* `Machine.text`: the string that a pointer points to.
* `Machine.reserve`: room for a text.
-/
namespace IncrementalC
set_option autoImplicit false

/-- A value that was printed, with its text. -/
structure PrintedValue where
  text : String
  value : Value
deriving Repr

/-- An active function. -/
structure Frame where
  function : CodeFunction
  /-- The next instruction. -/
  ip : Nat
  /-- The first slot of the frame. -/
  base : Nat
  /-- The height of the operand stack below the function. -/
  operandBase : Nat

/-- Where an object of the program lies. -/
structure GlobalSlot where
  base : Nat
  slots : Nat
deriving DecidableEq, Repr

structure Machine where
  globals : Array Value := #[]
  objects : NameMap GlobalSlot := {}
  /-- Addresses of the string literals. -/
  strings : NameMap UInt64 := {}
  functions : NameMap CodeFunction := {}
  stack : Array Value := #[]
  /-- The operand stack, top first. -/
  operands : List Value := []
  /-- The active functions, innermost last. -/
  frames : Array Frame := #[]
  /-- Values that evaluated templates handed over. -/
  results : Array Value := #[]
  printed : Array PrintedValue := #[]
  output : String := ""
  maxDepth : Nat := 512
  maxInstructions : Nat := 100000000
  /-- Instructions run since the outermost call. -/
  instructionCount : Nat := 0
  /-- The most slots that objects and string literals may take. -/
  maxGlobals : Nat := 16777216

namespace Machine

/-- The address of an object. -/
def objectAddress? (m : Machine) (name : String) : Option UInt64 :=
  (m.objects.get? name).map fun g => (Address.global g.base).encode

def hasFunction (m : Machine) (name : String) : Bool := m.functions.contains name

def removeFunction (m : Machine) (name : String) : Machine :=
  { m with functions := m.functions.erase name }

/-! ## Memory -/

def badAddress (bits : UInt64) : Fault :=
  if bits = 0 then .nullDereference else .invalidAddress bits

def read? (m : Machine) (bits : UInt64) : Option Value :=
  let a := Address.decode bits
  match a.region with
  | .global => m.globals[a.index.toNat]?
  | .stack => m.stack[a.index.toNat]?
  | .raw => none

def read (m : Machine) (bits : UInt64) : Except Fault Value :=
  match m.read? bits with
  | some v => .ok v
  | none => .error (badAddress bits)

/-- Memory lies at the address. -/
def isMapped (m : Machine) (bits : UInt64) : Bool := (m.read? bits).isSome

/-- Replaces the value at an address. Nothing happens where no memory lies. -/
def put (m : Machine) (bits : UInt64) (v : Value) : Machine :=
  let a := Address.decode bits
  match a.region with
  | .global => { m with globals := m.globals.setIfInBounds a.index.toNat v }
  | .stack => { m with stack := m.stack.setIfInBounds a.index.toNat v }
  | .raw => m

def write (m : Machine) (bits : UInt64) (v : Value) : Except Fault Machine :=
  if m.isMapped bits then .ok (m.put bits v) else .error (badAddress bits)

/-- The values of `count` slots from an address on, after those in `found`, which come last first. -/
def slotsFrom (m : Machine) : Nat → Address → List Value → Except Fault (List Value)
  | 0, _, found => .ok found.reverse
  | count + 1, a, found => do
    let v ← m.read a.encode
    m.slotsFrom count (a.offset 1) (v :: found)

/-- The bytes from an address up to a zero, after those in `found`, which come last first. The zero
has to lie within `count` slots. -/
def bytesFrom (m : Machine) : Nat → Address → List UInt8 → Except Fault (List UInt8)
  | 0, a, _ => .error (badAddress a.encode)
  | count + 1, a, found => do
    let c := (← m.read a.encode).word
    if c = 0 then return found.reverse
    m.bytesFrom count (a.offset 1) (c.toUInt64.toUInt8 :: found)

/-- The string that a pointer points to. It ends inside the memory, if at all. -/
def text (m : Machine) (p : Value) : Except Fault String :=
  (Text.ofBytes ·) <$>
    m.bytesFrom (m.globals.size + m.stack.size + 1) (Address.decode p.bits) []

/-! ## Buffers -/

/-- The most bytes that a buffer can have. -/
def bufferLimit : Nat := 9223372036854775807

/-- Asks for a buffer of so many bytes. Whether there is as much memory plays no part. -/
def reserve (bytes : Nat) : Except Fault Unit :=
  if bufferLimit < bytes then .error .capacity else .ok ()

def emit (m : Machine) (text : String) : Machine := { m with output := m.output ++ text }

/-- The output since the last call. -/
def takeOutput (m : Machine) : String × Machine := (m.output, { m with output := "" })

/-- The values printed since the last call. -/
def takePrinted (m : Machine) : Array PrintedValue × Machine :=
  (m.printed, { m with printed := #[] })

end Machine

end IncrementalC
