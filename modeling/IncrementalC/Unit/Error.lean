import IncrementalC.Analysis.Problem
import IncrementalC.Diagnostic.Basic
import IncrementalC.Files.Tree
import IncrementalC.Lowering.Basic
import IncrementalC.Syntax.Cursor
import IncrementalC.Token.Lexer

/-!
# What can be wrong with a piece of source

`CompileError` gathers the errors of all stages. `CompileError.diagnostics` describes one for the
reader, with its place and with hints.

`Similar.distance a b` is the least number of characters to insert, delete or replace that turns `a`
into `b`. `Similar.similar` lists the candidates near to a misspelt name.
-/
namespace IncrementalC
set_option autoImplicit false

/-! ## Similar names -/

namespace Similar

/-- Two rows of the table of distances. Their entries belong to the growing beginnings of the second
text. -/
structure Rows where
  last : Array Nat
  /-- The row before the last one. The next row is written over it. -/
  spare : Array Nat

/-- Writes the entries behind entry `j` of the row of `c`, one for each character that is left of the
second text. `above` is the row above. -/
def fill (c : Char) (above row : Array Nat) (j : Nat) : List Char → Array Nat
  | [] => row
  | d :: ds =>
    let replaced := above.getD j 0 + if c = d then 0 else 1
    let entry := min (min replaced (above.getD (j + 1) 0 + 1)) (row.getD j 0 + 1)
    fill c above (row.setIfInBounds (j + 1) entry) (j + 1) ds

/-- Adds the row of a character, which stands at place `i` of the first text. -/
def Rows.next (b : List Char) (rows : Rows) (c : Char) (i : Nat) : Rows :=
  { last := fill c rows.last (rows.spare.setIfInBounds 0 (i + 1)) 0 b, spare := rows.last }

def distance (a b : String) : Nat :=
  let b := b.toList
  let first : Rows := ⟨Array.range (b.length + 1), Array.replicate (b.length + 1) 0⟩
  (a.toList.zipIdx.foldl (fun rows (c, i) => rows.next b c i) first).last.getD b.length 0

/-- The order of hints: by distance, then by text. -/
def before (x y : Nat × String) : Bool := x.1 < y.1 || (x.1 == y.1 && x.2 ≤ y.2)

/-- At most three candidates other than `name` within `bound`, nearest first. -/
def similar (name : String) (candidates : List String) (bound : Nat) : List String :=
  let ranked := candidates.filterMap fun c =>
    let d := distance name c
    if c ≠ name ∧ d ≤ bound then some (d, c) else none
  ((ranked.mergeSort before).take 3).map Prod.snd

end Similar

/-! ## Errors -/

inductive CompileError where
  | lexical (e : LexError)
  | grammar (e : Syntax.ParseError)
  | analysis (es : List AnalysisError)
  | lowering (e : LoweringError)
  /-- A statement was to be copied from its text, which is not there. -/
  | missingSource (span : Span)
  | buffer (e : Source.BufferError)
  | missingInclude (path : String) (span : Span)
  | unreadable (path : String) (e : FileError)
deriving Repr

namespace CompileError

def message : CompileError → String
  | .lexical e => e.message
  | .grammar e => e.message
  | .analysis es => "; ".intercalate (es.map (·.message))
  | .lowering e => e.message
  | .missingSource span => s!"no source text for statement at line {span.line}"
  | .buffer e => e.message
  | .missingInclude path _ => s!"'{path}' file not found"
  | .unreadable path e => s!"cannot read '{path}': {e.message}"

/-- The places that the error points at, the main one first. -/
def spans : CompileError → List Span
  | .lexical e => [e.span]
  | .grammar e => [e.span]
  | .analysis es => es.map (·.span)
  | .lowering e => [e.span]
  | .missingSource span => [span]
  | .missingInclude _ span => [span]
  | .buffer _ | .unreadable .. => []

/-- The fault does not lie with the input. -/
def isInternal : CompileError → Bool
  | .buffer _ => true
  | _ => false

/-! ## Diagnostics -/

def lexicalCode : LexFault → String
  | .unexpectedChar .. => "E0001"
  | .unterminatedString | .unterminatedChar => "E0002"
  | .unterminatedComment => "E0003"
  | .invalidNumber .. | .invalidEscape .. => "E0004"
  | .unsupportedDirective .. | .malformedInclude => "E0005"

def grammarCode : Syntax.ParseError → String
  | .unexpected .. => "E0010"
  | .nestedFunction .. => "E0011"
  | .unsupported .. => "E0012"
  | .malformed .. => "E0013"

def grammarHints : Syntax.ParseError → List String
  | .unexpected _ .eof _ => ["check for a missing '\x7d' or ';'"]
  | .nestedFunction name _ => [s!"define '{name}' in its own input"]
  | _ => []

/-- Names that a misspelt one may have meant. -/
def knownWords : List String :=
  ["void", "bool", "char", "short", "int", "long", "unsigned", "signed", "float", "double", "auto",
   "struct", "class", "enum", "typedef", "static", "extern", "const", "if", "else", "while", "do",
   "for", "break", "continue", "return", "sizeof", "true", "false", "nullptr",
   "printf", "puts", "putchar", "abs", "labs", "fabs", "sqrt", "pow", "floor", "ceil", "strlen"]

def problemHints : Problem → List String
  | .undeclared name => (Similar.similar name knownWords 2).map fun w => s!"did you mean '{w}'?"
  | _ => []

def diagnostics (e : CompileError) (sources : SourceMap) : List Diagnostic :=
  match e with
  | .lexical l => [(Diagnostic.error (lexicalCode l.fault) e.message).locate l.span sources]
  | .grammar p =>
    [{ Diagnostic.error (grammarCode p) e.message with suggestions := grammarHints p }.locate p.span
      sources]
  | .analysis es => es.map fun a =>
    { (Diagnostic.error "E0200" a.message).locate a.span sources with
      suggestions := problemHints a.problem }
  | .lowering l => [(Diagnostic.error "E0300" e.message).locate l.span sources]
  | .missingInclude _ span => [(Diagnostic.error "E0020" e.message).locate span sources]
  | .missingSource _ => [Diagnostic.error "E0400" e.message]
  | .unreadable .. => [Diagnostic.error "E0500" e.message]
  | .buffer _ => [Diagnostic.error "E0900" e.message]

end CompileError

end IncrementalC
