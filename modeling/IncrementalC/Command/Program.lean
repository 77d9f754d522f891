import IncrementalC.Code.Document
import IncrementalC.Command.Arguments
import IncrementalC.Command.Line
import IncrementalC.Command.Prompt
import IncrementalC.Unit.Basic

/-!
# The program

`Program.run` is a whole run: from the arguments, the input and the files to the output, the files
afterwards and the exit status.
-/
namespace IncrementalC
set_option autoImplicit false

/-! ## Checking a file without running it -/

/-- The code of a file called `name`. Nothing will run, so unknown names are errors. -/
def check (files : FileTree) (name text : String) (includePaths : List String) :
    Except (List Diagnostic) CodeModule :=
  let u := includePaths.foldl GrowingUnit.addIncludePath ({} : GrowingUnit).installHooks
  let ((result, m), u) := u.parseNamed files name text .code {}
  match result with
  | .ok _ => .ok m
  | .error r => .error (r.errors.flatMap (·.diagnostics u.sources))

/-- The text of an emitted module. -/
def CodeModule.emit (m : CodeModule) : String := m.document.pretty

/-! ## Runs -/

/-- What a program finds when it starts. -/
structure Surroundings where
  /-- The words behind the program name. -/
  arguments : List String
  input : String := ""
  files : FileTree := {}
  home : Option String := none
  /-- Where the search for a configuration begins. -/
  start : String := ""
  /-- Tells this session from others. -/
  handle : UInt64 := 1

/-- What a run leaves behind. -/
structure Outcome where
  output : Output
  files : FileTree
  status : Nat := 0

namespace Program

/-! ## Configuration -/

/-- The configuration that applies, the directory it lies in, and complaints. -/
def configuration (s : Surroundings) : Config × Option String × Output :=
  match Config.find? s.files s.start s.home with
  | none => ({}, none, [])
  | some path =>
    match Config.load s.files path with
    | .ok c => (c, Path.parent? path, [])
    | .error e => ({}, none, Output.warning s!"ignoring configuration: {e.message}")

def sessionOptions (a : Arguments) (c : Config) (base : Option String) : SessionOptions :=
  let o := c.sessionOptions base
  { o with
    includePaths := o.includePaths ++ a.includePaths
    compilation := { o.compilation with
      dynamicScoping := o.compilation.dynamicScoping && !a.noDynamic } }

/-! ## Subcommands -/

def evaluationDocument (r : Evaluation) : Document :=
  let value : Value → Document
    | .void => .str "Void"
    | .int v => .tagged "Int" (.int v.toInt)
    | .float x => .tagged "Float" (.float x)
    | .ptr p => .tagged "Ptr" (.int p.toNat)
  .object
    [("value", .ofOption (fun p : PrintedValue => .object
      [("text", .str p.text), ("value", value p.value)]) r.value),
     ("output", .str r.output), ("entry", .ofOption .str r.entry)]

/-- Evaluates inputs up to the first that fails. Returns the exit status. -/
def evaluateInputs (json : Bool) (s : Session) : List String → Output × Nat
  | [] => ([], 0)
  | input :: rest =>
    match Session.evaluate input s with
    | .error e _ => (Prompt.report e, e.status)
    | .ok r s =>
      let written := if json then Output.line (evaluationDocument r).compact else [.out r.output]
      let (more, status) := evaluateInputs json s rest
      (written ++ more, status)

/-- Loads a file, and calls its function if the name has arguments behind it. -/
def runFile (s : Session) (file : String) : Output × Nat :=
  let input := if (Text.trimEnd file.toList).getLast? = some ')' then Session.executeFile file
    else Session.loadFile file
  match input s with
  | .ok _ s => ([.out s.echo], 0)
  | .error e s => (.out s.echo :: Prompt.report e, e.status)

def checkFile (files : FileTree) (includePaths : List String) (file : String) (emit : Bool)
    (output : Option String) : Outcome :=
  let failed (written : Output) : Outcome := { output := written, files, status := 1 }
  match files.readText file with
  | .error e => failed (Output.complaint s!"cannot read file '{file}': {e.message}")
  | .ok text =>
    match check files file text includePaths with
    | .error ds => failed (ds.map fun d => .err d.renderPlain)
    | .ok m =>
      if !emit then { output := Output.line s!"ok {file} no errors found", files } else
      match output with
      | none => { output := Output.line m.emit, files }
      | some path =>
        let announced := Output.line s!"    Emitting bytecode to {path}"
        match files.writeText path m.emit with
        | .ok files => { output := announced, files }
        | .error e => failed (announced ++ Output.complaint s!"writing to '{path}': {e.message}")

/-! ## Runs -/

/-- A new session, or how a run without one ends. -/
def startSession (s : Surroundings) (options : SessionOptions) : Except Outcome Session :=
  match Session.create options s.handle s.files with
  | .ok session => .ok session
  | .error e => .error
    { output := Output.complaint "cannot start interpreter session" ++ Prompt.report e
      files := s.files, status := 1 }

/-- Starts a session and goes on with it. -/
def withSession (s : Surroundings) (options : SessionOptions) (next : Session → Output × Nat) :
    Outcome :=
  match startSession s options with
  | .error outcome => outcome
  | .ok session =>
    let (output, status) := next session
    { output, files := s.files, status }

/-- Greets and takes all lines of the input. -/
def runPrompt (config : Config) (input : String) (session : Session) : Output × Nat :=
  let (p, written) := Prompt.start session config.prompt.startup
  let (p, more) := p.lines (TypedLine.lines input)
  (written ++ more, p.status)

def runArguments (s : Surroundings) (a : Arguments) : Outcome :=
  let (config, base, warnings) := configuration s
  let options := sessionOptions a config base
  let outcome := match a.subcommand with
    | .prompt => withSession s options (runPrompt config s.input)
    | .evaluate inputs json => withSession s options fun session => evaluateInputs json session inputs
    | .run file => withSession s options fun session => runFile session file
    | .check file emit output => checkFile s.files options.includePaths file emit output
  { outcome with output := warnings ++ outcome.output }

def run (s : Surroundings) : Outcome :=
  match Arguments.parse s.arguments with
  | .version => { output := Output.line s!"cinder {Prompt.version}", files := s.files }
  | .misuse message => { output := Output.complaint message, files := s.files, status := 2 }
  | .run a => runArguments s a

end Program

end IncrementalC
