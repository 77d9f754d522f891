import IncrementalC.Analysis.State

/-!
# Producing code

Lowering turns analysed trees into instructions. Code is made in pieces; a piece learns the position
of its first instruction, so jump targets are final at once. Loops alone need marks for jumps that
leave their body.

* `LoweringError`: why no code is produced.
* `Gen`: production of code for a module that grows by string literals, globals and functions.
* `Piece`: a piece of code, `p ++ q` being `p` followed by `q`.
-/
namespace IncrementalC
set_option autoImplicit false

/-! ## Errors -/

inductive LoweringProblem where
  -- parts of the language without code
  | structArgument | structResult | functionPointer
  -- trees that the analysis does not yield
  | jumpOutsideLoop (word : String)
  | nonScalarInitializer
  | notAddressable
  | loadOfType (ty : String)
  | memberOfNonRecord
  | unknownMember (field : String)
  | unresolvedName (name : String)
  | unaryOperand | incrementOperand | binaryOperand | compoundOperand
  | logicalCompound
  | structCompound
  | assignmentTarget
  | noSignature (name : String)
  | nothingToPrint
  | noResult
  | unresolvedFunction (name : String)
deriving DecidableEq, Repr

namespace LoweringProblem

/-- The name of a part of the language without code. -/
def unsupported? : LoweringProblem → Option String
  | structArgument => some "passing structures by value"
  | structResult => some "returning structures by value"
  | functionPointer => some "calling through a function pointer"
  | _ => none

def describe : LoweringProblem → String
  | structArgument => "passing structures by value"
  | structResult => "returning structures by value"
  | functionPointer => "calling through a function pointer"
  | jumpOutsideLoop word => s!"'{word}' outside of a loop"
  | nonScalarInitializer => "initializer of non-scalar type"
  | notAddressable => "expression is not addressable"
  | loadOfType ty => s!"load of type '{ty}'"
  | memberOfNonRecord => "member access on a non-record"
  | unknownMember field => s!"unknown member '{field}'"
  | unresolvedName name => s!"unresolved name '{name}'"
  | unaryOperand => "unary operand"
  | incrementOperand => "increment operand"
  | binaryOperand => "binary operand"
  | compoundOperand => "compound operand"
  | logicalCompound => "logical compound assignment"
  | structCompound => "compound assignment to a structure"
  | assignmentTarget => "assignment target"
  | noSignature name => s!"no signature for '{name}'"
  | nothingToPrint => "value printing without a value"
  | noResult => "result hook without a value"
  | unresolvedFunction name => s!"call to unresolved function '{name}'"

end LoweringProblem

structure LoweringError where
  problem : LoweringProblem
  span : Span
deriving DecidableEq, Repr

def LoweringError.message (e : LoweringError) : String :=
  match e.problem.unsupported? with
  | some what => s!"{what} is not supported"
  | none => s!"cannot generate code: {e.problem.describe}"

/-! ## Steps -/

abbrev Gen := StateT CodeModule (Except LoweringError)

namespace Lowering

def fail {α : Type} (problem : LoweringProblem) (span : Span) : Gen α :=
  throw ⟨problem, span⟩

/-- The value of an option that the analysis makes sure of. -/
def need {α : Type} (x : Option α) (problem : LoweringProblem) (span : Span) : Gen α :=
  match x with
  | some x => return x
  | none => fail problem span

/-- The number of a string literal of the module. -/
def intern (s : String) : Gen Nat := fun m =>
  let (m, i) := m.intern s
  .ok (i, m)

/-! ## Pieces of code -/

/-- Code whose first instruction stands at the given position. -/
def Piece := Nat → Gen (List Instr)

namespace Piece

/-- Code that does not depend on its position. -/
def gen (code : Gen (List Instr)) : Piece := fun _ => code

def code (instrs : List Instr) : Piece := gen (return instrs)

def append (p q : Piece) : Piece := fun start => do
  let first ← p start
  return first ++ (← q (start + first.length))

instance : Append Piece := ⟨append⟩

instance : Inhabited Piece := ⟨code []⟩

end Piece

/-! ## Types and code -/

/-- The machine kind of a value of the type, arrays being pointers. -/
def kindOf? (ty : Ty) : Option Scalar := ty.decay.scalar?

/-- The conversion of a value, if its kind changes. -/
def convert (source target : Ty) : List Instr :=
  match kindOf? source, kindOf? target with
  | some s, some t => if s = t then [] else [.convert s t]
  | _, _ => []

/-- The distance of objects of a type, in slots. -/
def strideOf (types : TypeTable) (ty : Ty) : Int64 := Int64.ofNat (types.stride ty)

/-- The distance of the objects that a pointer runs over. -/
def pointeeStride (types : TypeTable) (ty : Ty) : Int64 :=
  match ty.pointee? with
  | some ty => strideOf types ty
  | none => 1

/-- Slot counts in code have 32 bits. -/
def slotWord (n : Nat) : Nat := n % UInt32.size

/-- The load from an address on the stack; aggregates stay addresses. -/
def load (types : TypeTable) (ty : Ty) (span : Span) : Piece := .gen do
  if ty.isAggregate then return []
  return [.load (← need (kindOf? ty) (.loadOfType (types.name ty)) span)]

def machineOp? : BinaryOp → Option Code.BinaryOp
  | .add => some .add | .sub => some .sub | .mul => some .mul | .div => some .div
  | .rem => some .rem | .shl => some .shl | .shr => some .shr | .bitAnd => some .bitAnd
  | .bitOr => some .bitOr | .bitXor => some .bitXor | .lt => some .lt | .le => some .le
  | .gt => some .gt | .ge => some .ge | .eq => some .eq | .ne => some .ne
  | .and | .or => none

/-! ## Layout of printed values -/

def shapeWith (types : TypeTable) (ofRecord : RecordId → List (String × Nat × PrintShape)) :
    Ty → PrintShape
  | .dynamic | .dependent | .void => .dynamic
  | .enum name => .enum name
  | .pointer inner =>
    let label := types.name (.pointer inner)
    if inner.isChar then .cString label else .pointer label
  | .array elem length =>
    .array (types.name (.array elem length)) (shapeWith types ofRecord elem) (length.getD 0)
      (types.slots elem)
  | .record id => .record (types.name (.record id)) (ofRecord id)
  | ty =>
    if ty.isChar then .char (types.name ty) (ty.scalar?.getD .i8)
    else .scalar (types.name ty) (ty.scalar?.getD .i64)

/-- The fields of a record in which records nest at most `depth` deep. -/
def recordShape (types : TypeTable) : Nat → RecordId → List (String × Nat × PrintShape)
  | 0, _ => []
  | depth + 1, id =>
    match types.record? id with
    | some r => r.fields.map fun f => (f.name, f.slot, shapeWith types (recordShape types depth) f.ty)
    | none => []

/-- How a printed value of a type lies in memory. -/
def printShape (types : TypeTable) (ty : Ty) : PrintShape :=
  shapeWith types (recordShape types types.size) ty

end Lowering

end IncrementalC
