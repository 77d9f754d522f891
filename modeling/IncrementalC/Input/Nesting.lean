import IncrementalC.Token.Lexer

/-!
# Is an input complete?

`verdict s` looks at brackets, literals and comments only. An input whose brackets are still open
may be continued on the next line; one with a stray closing bracket or a broken literal may not.
-/
namespace IncrementalC.Input
set_option autoImplicit false

inductive Verdict where
  | valid
  /-- A bracket or a block comment is still open. -/
  | incomplete
  /-- A closing bracket does not match the innermost open one. -/
  | mismatch
  /-- A string or character literal runs to the end of a line. -/
  | unterminatedLiteral
deriving DecidableEq, Repr

def Verdict.code : Verdict → Nat
  | .valid => 0
  | .incomplete => 1
  | .mismatch => 2
  | .unterminatedLiteral => 3

def Verdict.describe : Verdict → String
  | .valid => "valid input"
  | .incomplete => "input is incomplete"
  | .mismatch => "mismatched delimiter"
  | .unterminatedLiteral => "unterminated literal"

/-- The bracket that a closing bracket closes. -/
def opener? : Char → Option Char
  | ')' => some '('
  | ']' => some '['
  | '}' => some '{'
  | _ => none

def isOpener (c : Char) : Bool := c == '(' || c == '[' || c == '{'

/-- The length of the inside of a literal and its closing quote. A backslash hides the character
behind it. -/
def literalLength? (quote : Char) : List Char → Option Nat
  | [] => none
  | '\\' :: _ :: r => (literalLength? quote r).map (· + 2)
  | c :: r =>
    if c == '\n' || c == '\\' then none
    else if c == quote then some 1
    else (literalLength? quote r).map (· + 1)

/-- The verdict on the rest of an input of which the brackets in `stack` are open, innermost
first. -/
def verdictFrom (stack : List Char) : List Char → Verdict
  | [] => if stack.isEmpty then .valid else .incomplete
  | '/' :: '/' :: r => verdictFrom stack (r.drop (Lexer.lineLength r))
  | '/' :: '*' :: r =>
    match Lexer.commentLength? r with
    | some n => verdictFrom stack (r.drop n)
    | none => .incomplete
  | c :: r =>
    if c == '"' || c == '\'' then
      match literalLength? c r with
      | some n => verdictFrom stack (r.drop n)
      | none => .unterminatedLiteral
    else if isOpener c then verdictFrom (c :: stack) r
    else match opener? c with
      | none => verdictFrom stack r
      | some o =>
        match stack with
        | top :: stack => if top == o then verdictFrom stack r else .mismatch
        | [] => .mismatch
termination_by s => s.length
decreasing_by all_goals simp only [List.length_cons, List.length_drop]; omega

def verdict (text : String) : Verdict := verdictFrom [] text.toList

end IncrementalC.Input
