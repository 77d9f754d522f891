import IncrementalC.Decimal.Reading
import IncrementalC.Session.History
import IncrementalC.Text.CharClass
import IncrementalC.Text.Cluster

/-!
# Lines of input

A line ends with a newline, and a carriage return in front of that belongs to the line end. A
backspace in a line takes the last cluster of characters back.

* `TypedLine.read`: a line without its backspaces.
* `TypedLine.lines`: the lines of a text.

A line that begins with a point and a letter is a command to the prompt; every other line is input (`PromptLine`).
-/
namespace IncrementalC
set_option autoImplicit false

/-! ## Lines as they are typed -/

/-- A line as far as it was typed. -/
structure TypedLine where
  /-- The characters, last first. -/
  text : List Char := []
  /-- The bytes to take back for each cluster, last first. -/
  sizes : List Nat := []

namespace TypedLine

def utf8Size (cs : List Char) : Nat := cs.foldl (fun n c => n + c.utf8Size) 0

/-- Drops characters in front that take `n` bytes. -/
def dropBytes : Nat → List Char → List Char
  | _, [] => []
  | n, c :: cs => if n = 0 then c :: cs else dropBytes (n - c.utf8Size) cs

/-- Takes a cluster of characters in. The size of a cluster is kept in a byte. -/
def add (l : TypedLine) (cluster : List Char) : TypedLine :=
  if cluster = ['\x08'] then
    match l.sizes with
    | [] => l
    | n :: sizes => { text := dropBytes n l.text, sizes }
  else { text := cluster.reverse ++ l.text, sizes := utf8Size cluster % 256 :: l.sizes }

/-- A line without its backspaces. -/
def read (line : String) : String :=
  let l : TypedLine := (Text.clusters line.toList).foldl add {}
  String.ofList l.text.reverse

/-- A line without the carriage return in front of its end. -/
def dropReturn (line : String) : String :=
  if line.endsWith "\r" then (line.dropEnd 1).toString else line

/-- The lines of a text. The last one may lack its end. -/
def lines (text : String) : List String :=
  match (text.splitOn "\n").reverse with
  | [] => []
  | last :: ended =>
    let ended := ended.reverse.map fun line => read (dropReturn line)
    if last.isEmpty then ended else ended ++ [read last]

end TypedLine

/-! ## Lines at the prompt -/

inductive PromptCommand where
  | quit
  | help
  | load (path : String)
  /-- Load a file and call the function that is named like it. -/
  | execute (spec : String)
  /-- Add a search path, or list them. -/
  | include (path : Option String)
  | dump (range : DumpRange)
  /-- Set or show whether unknown names wait until run time. -/
  | dynamic (on : Option Bool)
  /-- Set or turn whether new declarations are shown. -/
  | showDeclarations (on : Option Bool)
deriving DecidableEq, Repr

inductive PromptLine where
  | input
  | unknown (name : String)
  /-- A command with a wrong argument, and how to use it. -/
  | misuse (usage : String)
  | command (c : PromptCommand)
deriving DecidableEq, Repr

namespace PromptLine

/-- An argument that turns something on or off. -/
def switch? : String → Option Bool
  | "on" | "1" | "true" => some true
  | "off" | "0" | "false" => some false
  | _ => none

/-- A count of 64 bits. A plus may stand in front. -/
def count? (s : String) : Option Nat :=
  let ds := match s.toList with
    | '+' :: ds => ds
    | ds => ds
  let n := Decimal.digitsValue ds
  if ds.isEmpty || !ds.all Char.isDigit || UInt64.size ≤ n then none else some n

def dumpRange? : Option String → Option DumpRange
  | none | some "new" => some .sincePrevious
  | some "all" => some .all
  | some n => (count? n).map .last

/-- A command that takes a switch or nothing. -/
def switching (usage : String) (command : Option Bool → PromptCommand) : Option String → PromptLine
  | none => .command (command none)
  | some arg =>
    match switch? arg with
    | some on => .command (command (some on))
    | none => .misuse usage

/-- The meaning of a command and its argument. -/
def ofParts (name : String) (arg : Option String) : PromptLine :=
  match name, arg with
  | ".q", _ | ".quit", _ => .command .quit
  | ".help", _ | ".h", _ => .command .help
  | ".L", some path => .command (.load path)
  | ".L", none => .misuse "Usage: .L <file>"
  | ".x", some spec | ".X", some spec => .command (.execute spec)
  | ".x", none | ".X", none => .misuse "Usage: .x <file>[(args)]"
  | ".I", path => .command (.include path)
  | ".dump", range =>
    match dumpRange? range with
    | some range => .command (.dump range)
    | none => .misuse "Usage: .dump [all|new|<count>]"
  | ".dynamic", arg => switching "Usage: .dynamic [on|off]" .dynamic arg
  | ".printAST", arg => switching "Usage: .printAST [on|off]" .showDeclarations arg
  | name, _ => .unknown name

/-- What a line asks for. The argument is the rest of the line behind the first blank. -/
def parse (line : String) : PromptLine :=
  match Text.trim line.toList with
  | '.' :: letter :: rest =>
    if letter.isAlpha then
      let name := '.' :: letter :: rest.takeWhile (!Text.isBlank ·)
      let arg := Text.trim (rest.dropWhile (!Text.isBlank ·))
      ofParts (String.ofList name) (if arg.isEmpty then none else some (String.ofList arg))
    else .input
  | _ => .input

end PromptLine

end IncrementalC
