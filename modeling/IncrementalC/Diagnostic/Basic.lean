import IncrementalC.Source.SourceMap

/-!
# Diagnostics

A `Diagnostic` is a message about the input with whatever is known of its place. `renderPlain` and
`renderColored` write it as text: a heading, the place, the source line with the offending part
underlined, and hints.
-/
namespace IncrementalC
set_option autoImplicit false

inductive Severity where
  | error | warning | note
deriving DecidableEq, Repr

structure Diagnostic where
  severity : Severity := .error
  code : Option String := none
  message : String := ""
  file : Option String := none
  line : Option Nat := none
  col : Option Nat := none
  sourceLine : Option String := none
  underline : Option String := none
  suggestions : List String := []
deriving DecidableEq, Repr

namespace Diagnostic

def error (code message : String) : Diagnostic := { code := some code, message }

/-- Carets under `len` characters, at least one, from column `col` on. -/
def makeUnderline (col len : Nat) : String :=
  String.ofList (List.replicate (col - 1) ' ' ++ List.replicate (max len 1) '^')

/-- Adds the fragment, position and source line of `span`, as far as they are known. -/
def locate (d : Diagnostic) (span : Span) (sources : SourceMap) : Diagnostic :=
  if span.isNone then d else
  let d := match sources.fragmentAt? span with
    | some f => { d with file := some f.name }
    | none => d
  let d := { d with line := some span.line, col := some span.col }
  match sources.lineText? span with
  | none => d
  | some text =>
    let len := min (span.stop - span.start) (text.length - (span.col - 1))
    { d with underline := some (makeUnderline span.col len), sourceLine := some text }

/-! ## Rendering -/

inductive Color where
  | red | yellow | cyan | bold

/-- The number that selects the color on a terminal. -/
def Color.code : Color → String
  | .red => "31"
  | .yellow => "33"
  | .cyan => "36"
  | .bold => "1"

/-- Text in a color, as a terminal takes it. -/
def Color.paint (c : Color) (text : String) : String := s!"\x1b[{c.code}m{text}\x1b[0m"

def padLeft (width : Nat) (s : String) : String :=
  String.ofList (List.replicate (width - s.length) ' ') ++ s

/-- The lines of the diagnostic, with `paint` applied to the parts that have a color. -/
def lines (d : Diagnostic) (paint : Color → String → String) : List String :=
  let (label, color) := match d.severity with
    | .error => ("error", Color.red)
    | .warning => ("warning", .yellow)
    | .note => ("note", .cyan)
  let head := match d.code with
    | some code => s!"{paint color label}[{paint .bold code}]"
    | none => paint color label
  let arrow := paint .cyan "-->"
  let gutter := paint .cyan "|"
  let place := match d.file, d.line, d.col with
    | some file, some line, some col => [s!"  {arrow} {file}:{line}:{col}"]
    | _, _, _ => []
  let excerpt := match d.line, d.sourceLine, d.underline with
    | some line, some text, some underline =>
      [s!"   {gutter}",
       s!"{paint .cyan (padLeft 3 (toString line))} {gutter} {text}",
       s!"   {gutter} {paint .red underline}"]
    | _, _, _ => []
  let equals := paint .cyan "="
  let help := paint .cyan "help"
  let hints := d.suggestions.map fun s => s!"   {equals} {help}: {s}"
  let hints := if hints.isEmpty then [] else s!"   {gutter}" :: hints
  s!"{head}: {paint .bold d.message}" :: place ++ excerpt ++ hints

def render (d : Diagnostic) (paint : Color → String → String) : String :=
  String.join ((d.lines paint).map (· ++ "\n"))

def renderPlain (d : Diagnostic) : String := d.render fun _ text => text

def renderColored (d : Diagnostic) : String := d.render Color.paint

end Diagnostic

end IncrementalC
