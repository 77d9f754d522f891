import IncrementalC.Code.Instr
import IncrementalC.Machine.Value

/-!
# What can go wrong at run time

A `Fault` is a cause. A `MachineError` is a fault with the functions that were active.
-/
namespace IncrementalC
set_option autoImplicit false

inductive Fault where
  -- code that does not fit together
  | operandUnderflow
  | argumentCount (name : String) (expected given : Nat)
  | ranPastEnd (name : String)
  | unlinkedString (index : Nat)
  | missingString (index : Nat)
  | initialValueRange (name : String)
  | notLibrary (b : Builtin)
  | missingArgument (b : Builtin)
  | invalidOperands (op : Code.BinaryOp) (kind : Scalar)
  | invalidOperand (op : Code.UnaryOp) (kind : Scalar)
  -- formatted output
  | formatArguments
  | unsupportedConversion (c : Char)
  -- evaluation of templates
  | unknownHandle (handle : UInt64)
  | tooFewAddresses (template : String)
  | tooManyAddresses (template : String)
  | unresolved (message : String)
  | noHost
  -- the program
  | stackOverflow (depth : Nat)
  | undefinedFunction (name : String)
  | undefinedSymbol (name : String)
  | duplicateFunction (name : String)
  | divisionByZero
  | nullDereference
  | invalidAddress (bits : UInt64)
  | instructionLimit (limit : Nat)
  | globalMemory (requested limit : Nat)
  -- the process
  /-- A buffer would have more bytes than any buffer can have. -/
  | capacity
deriving DecidableEq, Repr

namespace Fault

/-- The description of a fault without a heading of its own. -/
def detail? : Fault → Option String
  | operandUnderflow => some "operand stack underflow"
  | argumentCount name expected given =>
    some s!"function '{name}' expects {expected} arguments, got {given}"
  | ranPastEnd name => some s!"function '{name}' ran past its end"
  | unlinkedString i => some s!"unlinked string literal #{i}"
  | missingString i => some s!"string literal #{i} is missing"
  | initialValueRange name => some s!"initializer of '{name}' is out of range"
  | notLibrary b => some s!"'{b.name}' is not a library function"
  | missingArgument b => some s!"too few arguments to '{b.name}'"
  | invalidOperands op kind => some s!"invalid operands to {op.name} on {kind.name}"
  | invalidOperand op kind => some s!"invalid operand to {op.name} on {kind.name}"
  | formatArguments => some "too few arguments for format string"
  | unsupportedConversion c => some s!"unsupported conversion '%{c}' in format string"
  | unknownHandle handle => some s!"unknown session handle {hexText handle}"
  | tooFewAddresses template =>
    some s!"template '{template}' has more captures than addresses"
  | tooManyAddresses template =>
    some s!"template '{template}' has fewer captures than addresses"
  | _ => none

def message (f : Fault) : String :=
  match f with
  | unresolved message => s!"cannot resolve at run time: {message}"
  | noHost => "no runtime host is installed for dynamic evaluation"
  | stackOverflow depth => s!"stack overflow: call depth exceeded {depth}"
  | undefinedFunction name => s!"undefined function '{name}'"
  | undefinedSymbol name => s!"undefined symbol '{name}'"
  | duplicateFunction name => s!"function '{name}' is already defined"
  | divisionByZero => "division by zero"
  | nullDereference => "null pointer dereference"
  | invalidAddress bits => s!"invalid memory access at {hexText bits}"
  | instructionLimit limit => s!"instruction limit exceeded: {limit}"
  | globalMemory requested limit =>
    s!"out of global memory: {requested} more slots requested, limit is {limit}"
  | capacity => "capacity overflow"
  | f => "runtime error: " ++ f.detail?.getD ""

/-- The whole process ends with the fault. What is done for errors on the way out is seen by nobody, and
there is no answer. -/
def endsProcess : Fault → Bool
  | capacity => true
  | _ => false

/-- A name could not be found. -/
def isUnresolved : Fault → Bool
  | unresolved _ | undefinedSymbol _ => true
  | _ => false

end Fault

/-- A function that is active, and the instruction that it is at. -/
structure TraceEntry where
  function : String
  ip : Nat
deriving DecidableEq, Repr

structure MachineError where
  fault : Fault
  /-- The active functions, outermost first; empty if none was entered. -/
  trace : List TraceEntry := []
deriving DecidableEq, Repr

namespace MachineError

/-- Adds the active functions unless an inner call has done so. -/
def withTrace (e : MachineError) (trace : List TraceEntry) : MachineError :=
  if e.trace.isEmpty then { e with trace } else e

theorem fault_withTrace (e : MachineError) (trace : List TraceEntry) : (e.withTrace trace).fault = e.fault := by
  unfold withTrace
  split <;> rfl

def traceText (trace : List TraceEntry) : String :=
  String.join <| trace.reverse.zipIdx.map fun (entry, i) =>
    s!"\n  #{i}: {entry.function} (instruction {entry.ip})"

/-- The fault, and the active functions, innermost first. -/
def message (e : MachineError) : String :=
  if e.trace.isEmpty then e.fault.message
  else s!"{e.fault.message}\nStack trace (most recent call last):{traceText e.trace}"

end MachineError

end IncrementalC
