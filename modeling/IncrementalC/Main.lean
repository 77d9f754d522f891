import IncrementalC.Command.Program

/-!
# The command line

The program around the library: it reads the files that a run may ask for, runs it, and writes what
the run leaves behind.

Evaluation sees only the files that it is given. `Arguments.reach` and `Prompt.reach` list the paths
that command lines and lines at the prompt mention; `includeReach` lists those that a text includes.
-/
namespace IncrementalC
set_option autoImplicit false

/-! ## Files that a run may ask for -/

/-- Where a name may lie. -/
def searchReach (dirs : List String) (name : String) : List String :=
  if Path.isAbsolute name then [name] else name :: dirs.map (Path.join · name)

/-- The files that the directives of a text may mean. -/
def includeReach (dirs : List String) (text : String) : List String :=
  match tokenize text 0 0 with
  | .error _ => []
  | .ok tokens => tokens.toList.flatMap fun t =>
    match t.kind with
    | .directive (.include name _) => searchReach dirs name
    | _ => []

/-- The file of a call `file(arguments)`. -/
def callReach (dirs : List String) (spec : String) : List String :=
  match Session.splitCall spec with
  | .ok (file, _) => searchReach dirs file
  | .error _ => []

def Arguments.reach (a : Arguments) (dirs : List String) : List String :=
  match a.subcommand with
  | .prompt => []
  | .evaluate inputs _ => inputs.flatMap (includeReach dirs)
  | .run file => searchReach dirs file ++ callReach dirs file
  | .check file _ output =>
    file :: (output.map fun path => path :: (Path.parent? path).toList).getD []

def Prompt.reach (p : Prompt) (line : String) : List String :=
  let dirs := p.session.options.includePaths
  let input := includeReach dirs s!"{p.pending}\n{line}"
  match PromptLine.parse line with
  | .command (.load path) => searchReach dirs path ++ input
  | .command (.execute spec) => callReach dirs spec ++ input
  | _ => input

/-- Where a configuration may lie. -/
def Config.reach (start : String) (home : Option String) : List String :=
  (Path.chain start).map (Path.join · Config.fileName) ++
    home.toList.map fun home => [".config", "cinder", Config.fileName].foldl Path.join home

/-! ## The command line -/

namespace CommandLine

/-- Reads files, and the files that these include. -/
partial def gather (dirs : List String) (files : FileTree) : List String → IO FileTree
  | [] => return files
  | path :: rest => do
    if files.knows path then gather dirs files rest
    else match ← (IO.FS.readBinFile (if path.isEmpty then "." else path)).toBaseIO with
      | .ok content =>
        let dir := (Path.parent? path).getD ""
        let more := match String.fromUTF8? content with
          | some text => includeReach (dir :: dirs) text
          | none => []
        gather dirs (files.addFile path content |>.addDirectory dir) (more ++ rest)
      | .error (.inappropriateType _ 21 _) => gather dirs (files.addDirectory path) rest
      | .error _ => gather dirs files rest

def write (output : Output) : IO Unit := do
  for w in output do
    match w with
    | .out text =>
      let out ← IO.getStdout
      out.putStr text
      out.flush
    | .err text =>
      let err ← IO.getStderr
      err.putStr text
      err.flush

/-- Writes the output of a run and the files that it changed. -/
def finish (before : FileTree) (outcome : Outcome) : IO UInt32 := do
  write outcome.output
  for (parts, content) in outcome.files.files do
    unless before.files.contains (parts, content) do
      IO.FS.writeBinFile ("/" ++ "/".intercalate parts) content
  return UInt32.ofNat outcome.status

/-- Takes lines from the standard input. -/
partial def takeLines (p : Prompt) : IO UInt32 := do
  if p.isDone then return UInt32.ofNat p.status
  write p.invitation
  let text ← (← IO.getStdin).getLine
  match TypedLine.lines text with
  | [] => return 0
  | line :: _ =>
    let empty : FileTree := { here := p.session.evaluator.files.here }
    let files ← gather p.session.options.includePaths empty (p.reach line)
    let (p, output) := { p with session := p.session.withFiles files }.line line
    write output
    takeLines p

def start (arguments : List String) : IO UInt32 := do
  let home := (← IO.getEnv "HOME").filter (!·.isEmpty)
  let cwd := (← IO.currentDir).toString
  let here := ({} : FileTree).place cwd
  let s : Surroundings := { arguments, home, start := cwd, files := { here } }
  let files ← gather [] s.files (Config.reach cwd home)
  let s := { s with files }
  match Arguments.parse arguments with
  | .run a =>
    let (config, base, warnings) := Program.configuration s
    let options := Program.sessionOptions a config base
    let mentioned := a.reach options.includePaths ++
      config.prompt.startup.flatMap (includeReach options.includePaths)
    let files ← gather options.includePaths s.files mentioned
    let s := { s with files }
    match a.subcommand with
    | .prompt =>
      write warnings
      match Program.startSession s options with
      | .error outcome => finish files outcome
      | .ok session =>
        let (p, greeting) := Prompt.start session config.prompt.startup
        write greeting
        takeLines p
    | _ => finish files (Program.run s)
  | _ => finish files (Program.run s)

end CommandLine

end IncrementalC

def main (arguments : List String) : IO UInt32 := IncrementalC.CommandLine.start arguments
