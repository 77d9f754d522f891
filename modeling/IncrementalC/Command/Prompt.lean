import IncrementalC.Command.Line
import IncrementalC.Config.Basic

/-!
# The prompt

A `Prompt` takes lines and writes output. Lines are kept until the brackets of the input are closed.

* `Prompt.start`: greeting and startup inputs.
* `Prompt.line`: one line.
* `Prompt.lines`: lines until the prompt is left.

An `Output` lists what a program writes, in order. `Output.out` and `Output.err` are what arrives at
either end.
-/
namespace IncrementalC
set_option autoImplicit false

/-! ## What a program writes -/

/-- A piece of text on its way out. -/
inductive Written where
  | out (text : String)
  | err (text : String)
deriving DecidableEq, Repr

abbrev Output := List Written

namespace Output

/-- A line of output. -/
def line (text : String) : Output := [.out (text ++ "\n")]

/-- A complaint in a line of its own. -/
def complaint (text : String) : Output := [.err s!"error: {text}\n"]

def warning (text : String) : Output := [.err s!"warning: {text}\n"]

/-- The text on the standard output. -/
def out (o : Output) : String := String.join <| o.map fun w =>
  match w with
  | .out text => text
  | .err _ => ""

/-- The text on the standard error output. -/
def err (o : Output) : String := String.join <| o.map fun w =>
  match w with
  | .out _ => ""
  | .err text => text

end Output

/-! ## The state -/

structure Prompt where
  session : Session
  /-- The declarations of each input are shown. -/
  showsDeclarations : Bool := false
  /-- The lines of an input that goes on. -/
  pending : String := ""
  /-- The prompt is left. -/
  isDone : Bool := false
  /-- The status of the process then. -/
  status : Nat := 0

namespace Prompt

def version : String := "0.3.0"

/-- The message for an error of a session, if there is anyone left to write it. -/
def report (e : SessionError) : Output :=
  if e.endsProcess then [] else
  match e.diagnostics with
  | [] => Output.complaint e.message
  | ds => ds.map fun d => .err d.renderPlain

/-! ## Inputs -/

/-- Runs an input. Its output comes first, then the error, then what was declared. -/
def runInput (p : Prompt) (input : Session.Steps Evaluation) : Prompt × Output :=
  let known := p.session.history.size
  let (p, failure) := match input { p.session with echo := "" } with
    | .ok _ session => ({ p with session }, [])
    | .error e session =>
      (if e.endsProcess then { p with session, isDone := true, status := e.status } else { p with session }, report e)
  let fresh := if p.showsDeclarations && !p.isDone then p.session.history.toList.drop known else []
  (p, .out p.session.echo :: failure ++ fresh.flatMap fun d => Output.line s!"[{d.category.name}] {d.text}")

def evaluate (p : Prompt) (input : String) : Prompt × Output := p.runInput (Session.evaluate input)

/-! ## Commands -/

def helpText : String :=
  "Commands:\n" ++
  "  .q  Exit\n" ++
  "  .help  Show this help\n" ++
  "  .L <file>  Load a source file\n" ++
  "  .x <file>(args)  Load a file and call the function named after it\n" ++
  "  .I [dir]  Add an include path, or list them\n" ++
  "  .dump [all|new|N]  Print committed declarations\n" ++
  "  .dynamic [on|off]  Resolve unknown names at run time\n" ++
  "  .printAST [on|off]  Print the declarations each input adds\n" ++
  "\n" ++
  "An expression without a trailing ';' prints its value.\n" ++
  s!"History location can be set with ${Config.historyVariable}.\n"

def onOff (b : Bool) : String := if b then "on" else "off"

def command (p : Prompt) : PromptCommand → Prompt × Output
  | .quit => ({ p with isDone := true }, [])
  | .help => (p, [.out helpText])
  | .load path => p.runInput (Session.loadFile path)
  | .execute spec => p.runInput (Session.executeFile spec)
  | .include (some path) => ({ p with session := p.session.addIncludePath path }, [])
  | .include none => (p, p.session.options.includePaths.flatMap fun path => Output.line s!"  {path}")
  | .dump range =>
    let (text, session) := p.session.dump range
    ({ p with session }, [.out text])
  | .dynamic (some on) => ({ p with session := p.session.setDynamic on }, [])
  | .dynamic none => (p, Output.line s!"dynamic lookup: {onOff p.session.isDynamic}")
  | .showDeclarations choice =>
    let on := choice.getD (!p.showsDeclarations)
    ({ p with showsDeclarations := on }, Output.line s!"printAST: {onOff on}")

/-! ## Lines -/

/-- Adds a line to the pending ones and evaluates them once they are complete. -/
def inputLine (p : Prompt) (line : String) : Prompt × Output :=
  let input := if p.pending.isEmpty then line else s!"{p.pending}\n{line}"
  if Input.verdict input = .incomplete then ({ p with pending := input }, [])
  else { p with pending := "" }.evaluate (Text.trimString input)

/-- Takes one line. Commands are read only between inputs. -/
def line (p : Prompt) (line : String) : Prompt × Output :=
  if !p.pending.isEmpty then p.inputLine line
  else if (Text.trim line.toList).isEmpty then (p, [])
  else match PromptLine.parse line with
    | .input => p.inputLine line
    | .unknown name => (p, Output.complaint s!"unknown command '{name}'. Type .help for usage.")
    | .misuse usage => (p, Output.complaint usage)
    | .command c => p.command c

/-- What is shown where a line is expected. -/
def invitation (p : Prompt) : Output :=
  [.out (if p.pending.isEmpty then "[cinder] " else "      ... ")]

/-- Takes lines until the prompt is left. -/
def lines (p : Prompt) : List String → Prompt × Output
  | [] => (p, if p.isDone then [] else p.invitation)
  | first :: rest =>
    if p.isDone then (p, []) else
    let (next, written) := p.line first
    let (last, more) := next.lines rest
    (last, p.invitation ++ written ++ more)

/-! ## Sessions -/

def greeting : Output :=
  [.out s!"cinder {version}\n",
   .out "Type C statements or declarations. .help for commands, .q to exit.\n\n"]

/-- Evaluates inputs one after the other. -/
def evaluateAll (p : Prompt) : List String → Prompt × Output
  | [] => (p, [])
  | input :: rest =>
    if p.isDone then (p, []) else
    let (next, written) := p.evaluate input
    let (last, more) := next.evaluateAll rest
    (last, written ++ more)

def start (session : Session) (startup : List String) : Prompt × Output :=
  let (p, written) := evaluateAll { session } startup
  (p, greeting ++ written)

end Prompt

end IncrementalC
