import IncrementalC.Code.Scalar
import IncrementalC.Double

/-!
# Code of the stack machine

* `Instr`: the instructions. They work on an operand stack and on memory in slots.
* `CodeFunction`, `CodeGlobal`, `CodeModule`: what one piece of source contributes to a program.
* `Builtin`: functions that the machine provides.
* `PrintShape`: how a printed value lies in memory.
-/
namespace IncrementalC
set_option autoImplicit false

inductive Builtin where
  | printf | puts | putchar
  | abs | labs | fabs | sqrt | pow | floor | ceil
  | strlen
  /-- Evaluates an expression whose names were unknown at compile time. -/
  | eval
  | printValue
  | setResult
deriving DecidableEq, Repr

namespace Builtin

def name : Builtin → String
  | .printf => "printf" | .puts => "puts" | .putchar => "putchar" | .abs => "abs"
  | .labs => "labs" | .fabs => "fabs" | .sqrt => "sqrt" | .pow => "pow" | .floor => "floor"
  | .ceil => "ceil" | .strlen => "strlen" | .eval => "__cinder_eval"
  | .printValue => "__cinder_print_value" | .setResult => "__cinder_set_result"

def all : List Builtin :=
  [.printf, .puts, .putchar, .abs, .labs, .fabs, .sqrt, .pow, .floor, .ceil, .strlen, .eval,
   .printValue, .setResult]

def ofName? (name : String) : Option Builtin := all.find? (·.name == name)

/-- Builtins that exist in an interactive session only. -/
def isHook : Builtin → Bool
  | .eval | .printValue | .setResult => true
  | _ => false

end Builtin

namespace Code

inductive BinaryOp where
  | add | sub | mul | div | rem | shl | shr | bitAnd | bitOr | bitXor
  | lt | le | gt | ge | eq | ne
deriving DecidableEq, Repr

def BinaryOp.all : List BinaryOp :=
  [.add, .sub, .mul, .div, .rem, .shl, .shr, .bitAnd, .bitOr, .bitXor, .lt, .le, .gt, .ge, .eq, .ne]

def BinaryOp.name : BinaryOp → String
  | .add => "Add" | .sub => "Sub" | .mul => "Mul" | .div => "Div" | .rem => "Rem"
  | .shl => "Shl" | .shr => "Shr" | .bitAnd => "BitAnd" | .bitOr => "BitOr"
  | .bitXor => "BitXor" | .lt => "Lt" | .le => "Le" | .gt => "Gt" | .ge => "Ge" | .eq => "Eq"
  | .ne => "Ne"

def BinaryOp.isComparison : BinaryOp → Bool
  | .lt | .le | .gt | .ge | .eq | .ne => true
  | _ => false

inductive UnaryOp where
  | neg | not | bitNot
deriving DecidableEq, Repr

def UnaryOp.all : List UnaryOp := [.neg, .not, .bitNot]

def UnaryOp.name : UnaryOp → String
  | .neg => "Neg"
  | .not => "Not"
  | .bitNot => "BitNot"

end Code

/-- The layout of a printed value, with the type names to print. -/
inductive PrintShape where
  | scalar (label : String) (kind : Scalar)
  | char (label : String) (kind : Scalar)
  | cString (label : String)
  | pointer (label : String)
  | array (label : String) (elem : PrintShape) (length stride : Nat)
  /-- Fields with their names and offsets. -/
  | record (label : String) (fields : List (String × Nat × PrintShape))
  | enum (label : String)
  | dynamic
deriving Repr, Inhabited

/-- The value is read through its address. -/
def PrintShape.isAggregate : PrintShape → Bool
  | .array .. | .record .. => true
  | _ => false

inductive Instr where
  | pushInt (v : Int64)
  | pushFloat (x : Double)
  | pushPtr (p : UInt64)
  /-- The address of a string literal of the module. -/
  | pushStr (index : Nat)
  /-- The address of a slot of the frame. -/
  | localAddr (slot : Nat)
  | globalAddr (name : String)
  | load (kind : Scalar)
  /-- Pops a value and an address, stores, and pushes the value. -/
  | store (kind : Scalar)
  /-- Pops a source and a destination, copies, and pushes the destination. -/
  | copySlots (count : Nat)
  | dup
  | pop
  | convert (source target : Scalar)
  | binary (op : Code.BinaryOp) (kind : Scalar)
  | unary (op : Code.UnaryOp) (kind : Scalar)
  /-- Pops a count and a pointer and moves the pointer by `stride` slots per unit. -/
  | ptrAdd (stride : Int64)
  | ptrDiff (stride : Int64)
  /-- Pops an address, adds to the value there, and pushes the old value if `post`, else the new
  one. -/
  | incDec (kind : Scalar) (amount : Int64) (post : Bool)
  | jump (target : Nat)
  | jumpIfFalse (target : Nat)
  | jumpIfTrue (target : Nat)
  | call (name : String) (argc : Nat)
  | builtin (b : Builtin) (argc : Nat)
  | printValue (shape : PrintShape)
  /-- Returns the popped value. -/
  | «return»
  | returnVoid
deriving Repr

structure CodeFunction where
  name : String
  params : List Scalar
  /-- `none` if no value is returned. -/
  ret : Option Scalar
  frameSlots : Nat
  code : Array Instr
deriving Repr

/-- The initial value of a slot. -/
inductive CodeConst where
  | int (v : Int64)
  | float (x : Double)
  | ptr (p : UInt64)
  /-- The address of a string literal of the module. -/
  | str (index : Nat)
deriving DecidableEq, Repr

structure CodeGlobal where
  name : String
  slots : Nat
  init : List (Nat × CodeConst)
deriving DecidableEq, Repr

structure CodeModule where
  globals : Array CodeGlobal := #[]
  functions : Array CodeFunction := #[]
  strings : Array String := #[]
  /-- Functions to call once after linking, in order. -/
  initializers : Array String := #[]
deriving Repr, Inhabited

namespace CodeModule

/-- The index of `s` among the string literals, added if it is new. -/
def intern (m : CodeModule) (s : String) : CodeModule × Nat :=
  match m.strings.idxOf? s with
  | some i => (m, i)
  | none => ({ m with strings := m.strings.push s }, m.strings.size)

def addGlobal (m : CodeModule) (g : CodeGlobal) : CodeModule := { m with globals := m.globals.push g }

def addFunction (m : CodeModule) (f : CodeFunction) : CodeModule :=
  { m with functions := m.functions.push f }

end CodeModule

end IncrementalC
