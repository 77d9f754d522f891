import IncrementalC.Input.Wrapping
import IncrementalC.Session.Template

/-!
# Sessions

A `Session` evaluates inputs one after the other against a program that grows. An input of
statements is parsed inside a function first and transformed, so that its declarations become global
and the rest runs in a function of its own. Declarations, included files and definitions of
functions are taken as they are.

* `Session.evaluate`, `Session.compileText`, `Session.loadFile`, `Session.executeFile`.
* `Session.dump`, `Session.addressOf?` and the settings.
-/
namespace IncrementalC
set_option autoImplicit false

structure CompilationOptions where
  /-- Declarations of statement inputs become global. -/
  declarationExtraction : Bool := true
  valuePrinting : ValuePrinting := .auto
  /-- Unknown names are left to run time. -/
  dynamicScoping : Bool := true
  debug : Bool := false
  /-- Inputs are run, not only checked. -/
  codegen : Bool := true
deriving DecidableEq, Repr

structure SessionOptions where
  compilation : CompilationOptions := {}
  includePaths : List String := []
  instructionLimit : Option Nat := none
  globalMemoryLimit : Option Nat := none
deriving DecidableEq, Repr

/-- What an input came to. -/
structure Evaluation where
  /-- The value of the last expression, if it was printed. -/
  value : Option PrintedValue := none
  output : String := ""
  /-- The function that ran. -/
  entry : Option String := none

/-- One evaluation after another. -/
def Evaluation.append (a b : Evaluation) : Evaluation :=
  { value := b.value.or a.value, output := a.output ++ b.output, entry := b.entry.or a.entry }

structure Session where
  execution : Execution Evaluator
  options : SessionOptions
  inputCount : Nat := 0
  /-- The output of all inputs that came to an end. -/
  transcript : String := ""
  /-- All output, also that of inputs that failed. -/
  echo : String := ""
  poisoned : Option SessionError := none

namespace Session

abbrev Steps := EStateM SessionError Session

/-! ## Parts of the state -/

def evaluator (s : Session) : Evaluator := s.execution.world.host

def machine (s : Session) : Machine := s.execution.world.machine

def history (s : Session) : History := s.execution.history

def unit (s : Session) : GrowingUnit := s.evaluator.unit

def mapEvaluator (s : Session) (f : Evaluator → Evaluator) : Session :=
  { s with execution := { s.execution with
      world := { s.execution.world with host := f s.execution.world.host } } }

def mapMachine (s : Session) (f : Machine → Machine) : Session :=
  { s with execution := { s.execution with
      world := { s.execution.world with machine := f s.execution.world.machine } } }

def mapUnit (s : Session) (f : GrowingUnit → GrowingUnit) : Session :=
  s.mapEvaluator fun e => { e with unit := f e.unit }

def mapHistory (s : Session) (f : History → History) : Session :=
  { s with execution := { s.execution with history := f s.execution.history } }

/-- Sets the files that inputs can see. -/
def withFiles (s : Session) (files : FileTree) : Session := s.mapEvaluator ({ · with files })

/-! ## Compiling and running -/

/-- The declarations of a fragment, without the function that was made for the input. -/
def declRecords (p : ParsedFragment) (sources : SourceMap) (entry : Option String) :
    List DeclRecord :=
  p.groups.flatMap fun t =>
    let text := Text.trimString ((sources.slice? t.group.span).getD "")
    t.group.decls.filterMap fun d =>
      match d.name? with
      | some name =>
        if some name = entry then none
        else some { name, category := d.category, text, fragment := p.name }
      | none => none

/-- Parses a text and commits what it declares. Without `codegen` it has no code. -/
def compile (text : String) (entry : Option String) (codegen : Bool) : Steps CompiledFragment := do
  let e := (← get).evaluator
  let ((result, module), unit) :=
    if codegen then e.unit.parse e.files text .code {}
    else
      let ((result, _), unit) := e.unit.parse e.files text .none ()
      ((result, {}), unit)
  modify (·.mapUnit fun _ => unit)
  match result with
  | .error r => throw (.ofRejection r unit.sources)
  | .ok p =>
    modify (·.mapUnit (·.commit))
    return { module, decls := declRecords p unit.sources entry,
             entry := if codegen then entry else none }

/-- Links and runs a fragment. -/
def execute (f : CompiledFragment) : Running Evaluator (Option String) := do
  let host := some Evaluator.host
  let entry ← Execution.start host f
  if let some name := entry then
    let _ ← Execution.enter host name
  return entry

/-- Runs a fragment and collects its output. -/
def run (f : CompiledFragment) : Steps Evaluation := fun s =>
  let finish (execution : Execution Evaluator) : String × Option PrintedValue × Session :=
    let (output, m) := execution.world.machine.takeOutput
    let (printed, m) := m.takePrinted
    let world := { execution.world with machine := m }
    (output, printed.back?,
      { s with execution := { execution with world }, echo := s.echo ++ output })
  match execute f s.execution with
  | .ok entry execution =>
    let (output, value, s) := finish execution
    .ok { value, output, entry } s
  | .error e execution => .error e (finish execution).2.2

/-! ## Inputs -/

def compileText (text : String) : Steps Evaluation := do
  run (← compile text none (← get).options.compilation.codegen)

/-- An input that defines a function belongs outside of functions. -/
def definesFunction (r : Rejection) : Bool :=
  r.errors.any fun e => match e with
    | .grammar (.nestedFunction ..) => true
    | _ => false

/-- The function around the statements of an input, which tells statements from declarations. -/
def scaffold (name input : String) : String := s!"void {name}() \x7b\n{input}\n;\x7d"

/-- Transforms the statements of an input, or says that it belongs outside of functions. -/
def wrapInput (input : String) (id : Nat) (entry : String) (printing : ValuePrinting) :
    Steps (Option WrappedInput) := do
  let e := (← get).evaluator
  let name := s!"__cinder_stmt_vs_decl_{id}"
  let ((result, body), unit) := e.unit.quietly fun u =>
    u.parse e.files (scaffold name input) (.body name) none
  modify (·.mapUnit fun _ => unit)
  match result with
  | .error r => if definesFunction r then return none else throw (.ofRejection r unit.sources)
  | .ok p =>
    let context : Wrapping.Context :=
      { sources := unit.sources, types := unit.analysis.types, dirty := p.dirty, printing
        hasSemicolon := (Text.trimEnd input.toList).getLast? == some ';', entryName := entry }
    modify (·.mapUnit (·.rollback))
    match wrap context (body.getD []) with
    | .ok w => return some w
    | .error span => throw (.missingSource span)

/-- The number of an input, from one. -/
def nextInput : Steps Nat := modifyGet fun s =>
  (s.inputCount + 1, { s with inputCount := s.inputCount + 1 })

/-- Evaluates the statements of an input. -/
def evaluateStatements (input : String) : Steps Evaluation := do
  let options := (← get).options.compilation
  let id ← nextInput
  let entry := s!"__cinder_input_line_{id}"
  let wrapped ←
    if options.declarationExtraction then wrapInput input id entry options.valuePrinting
    else pure (some { body := [input, ";"], entry := some entry })
  match wrapped with
  | none => compileText input
  | some w => run (← compile w.source w.entry options.codegen)

def evaluateInput (input : String) : Steps Evaluation := do
  let trimmed := Text.trim input.toList
  if trimmed.isEmpty then return {}
  else if "#include".toList.isPrefixOf trimmed then compileText input
  else
    let verdict := Input.verdict input
    if verdict ≠ .valid then throw (.malformed verdict)
    else evaluateStatements input

/-! ## Files -/

/-- An include directive for a path. -/
def includeText (path : String) : String :=
  let escaped := path.toList.flatMap fun c => if c = '\\' ∨ c = '"' then ['\\', c] else [c]
  s!"#include \"{String.ofList escaped}\"\n"

/-- Files that the program cannot take in. -/
def isSharedLibrary (path : String) : Bool :=
  match Path.extension? path with
  | some ext => ext = "so" || ext = "dylib" || ext = "dll"
  | none => false

def loadPath (path : String) : Steps Evaluation := do
  if isSharedLibrary path then throw (.load path .sharedLibrary)
  let e := (← get).evaluator
  let onSearchPath := !Path.isAbsolute path &&
    e.unit.includePaths.any fun dir => e.files.isFile (Path.join dir path)
  if e.files.isFile path || onSearchPath then compileText (includeText path)
  else throw (.load path .notFound)

/-- Splits `file(arguments)`. The parentheses may be missing. -/
def splitCall (spec : String) : Except SessionError (String × String) :=
  let s := Text.trim spec.toList
  let file := s.takeWhile (· != '(')
  match s.dropWhile (· != '(') with
  | [] => .ok (String.ofList s, "")
  | _ :: rest =>
    if rest.getLast? = some ')' then
      .ok (String.ofList (Text.trimEnd file), String.ofList rest.dropLast)
    else .error (.openCall (String.ofList s))

/-- Loads a file and calls the function that is named like it. -/
def callFile (file stem arguments : String) : Steps Evaluation := do
  let loaded ← loadPath file
  return loaded.append (← evaluateInput s!"{stem}({arguments});")

/-! ## The interface -/

/-- Keeps the output of an input, and a fatal error. -/
def guarded (steps : Steps Evaluation) : Steps Evaluation := fun s =>
  match s.poisoned with
  | some e => .error e s
  | none =>
    match steps s with
    | .ok r s =>
      let s := s.mapUnit (·.clearDeferrals)
      .ok r { s with transcript := s.transcript ++ r.output }
    | .error e s =>
      let s := s.mapUnit (·.clearDeferrals)
      .error e (if e.isFatal then { s with poisoned := some e } else s)

def evaluate (input : String) : Steps Evaluation := guarded (evaluateInput input)

/-- Compiles and runs a text outside of functions, as it is. -/
def evaluateText (text : String) : Steps Evaluation := guarded (compileText text)

def loadFile (path : String) : Steps Evaluation := guarded (loadPath path)

def executeFile (spec : String) : Steps Evaluation := do
  match splitCall spec with
  | .error e => throw e
  | .ok (file, arguments) =>
    match Path.stem? file with
    | none => throw (.load file .noStem)
    | some stem => guarded (callFile file stem arguments)

/-! ## Settings and views -/

def setDynamic (s : Session) (on : Bool) : Session :=
  let s := s.mapUnit (·.setDynamic on)
  { s with options := { s.options with
      compilation := { s.options.compilation with dynamicScoping := on } } }

def isDynamic (s : Session) : Bool := s.unit.isDynamic

def setOptions (s : Session) (compilation : CompilationOptions) : Session :=
  let s := s.mapUnit (·.setDynamic compilation.dynamicScoping)
  { s with options := { s.options with compilation } }

/-- A new client starts with an empty log. -/
def setClient (s : Session) (client : Option Client) : Session :=
  s.mapEvaluator ({ · with client, log := #[] })

/-- The templates that the client was told of since the last call. -/
def takeLog (s : Session) : Array (String × List UInt64) × Session :=
  (s.evaluator.log, s.mapEvaluator ({ · with log := #[] }))

def addIncludePath (s : Session) (path : String) : Session :=
  let s := s.mapUnit (·.addIncludePath path)
  { s with options := { s.options with includePaths := s.options.includePaths ++ [path] } }

/-- The declarations of a range. -/
def decls (s : Session) (range : DumpRange) : List DeclRecord × Session :=
  let (records, history) := s.history.dump range
  (records, s.mapHistory fun _ => history)

/-- The source text of the declarations of a range. -/
def dump (s : Session) (range : DumpRange) : String × Session :=
  let (records, s) := s.decls range
  (String.join (records.map (·.text ++ "\n")), s)

def addressOf? (s : Session) (name : String) : Option UInt64 := s.machine.objectAddress? name

/-- A session with a handle, before it has compiled anything. -/
def initial (options : SessionOptions) (handle : UInt64) (files : FileTree) : Session :=
  let unit := options.includePaths.foldl GrowingUnit.addIncludePath
    ({} : GrowingUnit).installHooks
  let machine : Machine := {}
  let machine := { machine with
    maxInstructions := options.instructionLimit.getD machine.maxInstructions
    maxGlobals := options.globalMemoryLimit.getD machine.maxGlobals }
  { execution := { world := { machine, host := { unit, files, handle } } }, options }

/-- A new session. Its handle is the first object of the program. -/
def create (options : SessionOptions) (handle : UInt64) (files : FileTree) :
    Except SessionError Session :=
  let declaration := s!"void *{sessionGlobal} = (void *){hexText handle};"
  match evaluateText declaration (initial options handle files) with
  | .ok _ s => .ok (s.mapUnit (·.setDynamic options.compilation.dynamicScoping))
  | .error e _ => .error e

end Session

end IncrementalC
