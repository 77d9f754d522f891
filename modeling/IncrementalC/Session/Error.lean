import IncrementalC.Input.Nesting
import IncrementalC.Machine.Fault
import IncrementalC.Unit.Basic

/-!
# What a session reports

`SessionError` gathers what can go wrong with an input. A fatal error means that the session itself
is broken: it answers every later input with the same error.
-/
namespace IncrementalC
set_option autoImplicit false

/-- Why a file cannot be loaded. -/
inductive LoadProblem where
  | notFound | sharedLibrary | noStem
  | unreadable (e : FileError)
deriving DecidableEq, Repr

def LoadProblem.message : LoadProblem → String
  | .notFound => "file not found"
  | .sharedLibrary => "loading shared libraries is not supported"
  | .noStem => "file name has no stem"
  | .unreadable e => e.message

inductive SessionError where
  /-- The text is no program. -/
  | rejected (r : Rejection) (diagnostics : List Diagnostic)
  /-- Brackets or literals are not closed. -/
  | malformed (v : Input.Verdict)
  /-- A call of a file lacks its closing parenthesis. -/
  | openCall (spec : String)
  | machine (e : MachineError)
  | load (path : String) (problem : LoadProblem)
  -- broken invariants
  | collision (function : String)
  | buffer (e : Source.BufferError)
  | missingSource (span : Span)

namespace SessionError

/-- A kind of errors. -/
inductive Kind where
  | grammar | malformed | unresolved | code | machine | fatal | load
deriving DecidableEq, Repr

def Kind.name : Kind → String
  | .grammar => "syntax"
  | .malformed => "invalid-input"
  | .unresolved => "unresolved-symbol"
  | .code => "codegen"
  | .machine => "runtime"
  | .fatal => "internal"
  | .load => "io"

def isLowering : CompileError → Bool
  | .lowering _ => true
  | _ => false

def kind : SessionError → Kind
  | .rejected r _ => if r.errors.any isLowering then .code else .grammar
  | .malformed _ | .openCall _ => .malformed
  | .machine e => if e.fault.isUnresolved then .unresolved else .machine
  | .load .. => .load
  | .collision _ | .buffer _ | .missingSource _ => .fatal

def isFatal (e : SessionError) : Bool := e.kind == .fatal

/-- The process ends with the error. -/
def endsProcess : SessionError → Bool
  | .machine e => e.fault.endsProcess
  | _ => false

/-- The status of a process that stops at the error. -/
def status (e : SessionError) : Nat := if e.endsProcess then 101 else 1

/-- The code of the complaint about an input that is no complete text. -/
def code? : SessionError → Option Nat
  | .malformed v => some v.code
  | .openCall _ => some Input.Verdict.incomplete.code
  | _ => none

def diagnostics : SessionError → List Diagnostic
  | .rejected _ ds => ds
  | _ => []

def malformedMessage (text : String) (code : Nat) : String :=
  s!"invalid input: {text} (code {code})"

def message (e : SessionError) : String :=
  match e with
  | .rejected r _ => r.message
  | .malformed v => malformedMessage v.describe v.code
  | .openCall spec => malformedMessage s!"missing ')' in '{spec}'" Input.Verdict.incomplete.code
  | .machine m => if m.fault.isUnresolved then s!"unresolved symbol: {m.fault.message}" else m.message
  | .load path problem => s!"cannot load '{path}': {problem.message}"
  | .collision name => s!"internal error: symbol collision: '{name}' is already defined"
  | .buffer b => s!"internal error: {b.message}"
  | .missingSource span => s!"internal error: {(CompileError.missingSource span).message}"

/-- What a rejected fragment means for the session. -/
def ofRejection (r : Rejection) (sources : SourceMap) : SessionError :=
  let buffer? := r.errors.findSome? fun e => match e with
    | .buffer b => some b
    | _ => none
  let unreadable? := r.errors.findSome? fun e => match e with
    | .unreadable path f => some (path, f)
    | _ => none
  match buffer?, unreadable? with
  | some b, _ => .buffer b
  | none, some (path, f) => .load path (.unreadable f)
  | none, none => .rejected r (r.errors.flatMap (·.diagnostics sources))

end SessionError

end IncrementalC
