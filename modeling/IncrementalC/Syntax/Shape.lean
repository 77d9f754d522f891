import IncrementalC.Source.Span

/-!
# Operators, statements and initial values

What written and analysed trees have in common. `BinaryOp.precedence` orders the binary operators; the higher number binds
tighter. Statements and initial values have a type of expressions `ε` and a type of declaration groups `γ`. The parser and the
analysis put different types there.
-/
namespace IncrementalC
set_option autoImplicit false

/-! ## Operators -/

inductive UnaryOp where
  | neg | plus | not | bitNot | deref | addrOf | preInc | preDec | postInc | postDec
deriving DecidableEq, Repr

inductive BinaryOp where
  | add | sub | mul | div | rem | shl | shr
  | lt | gt | le | ge | eq | ne
  | bitAnd | bitOr | bitXor
  | and | or
deriving DecidableEq, Repr

namespace BinaryOp

def symbol : BinaryOp → String
  | .add => "+" | .sub => "-" | .mul => "*" | .div => "/" | .rem => "%" | .shl => "<<"
  | .shr => ">>" | .lt => "<" | .gt => ">" | .le => "<=" | .ge => ">=" | .eq => "==" | .ne => "!="
  | .bitAnd => "&" | .bitOr => "|" | .bitXor => "^" | .and => "&&" | .or => "||"

def precedence : BinaryOp → Nat
  | .or => 3
  | .and => 4
  | .bitOr => 5
  | .bitXor => 6
  | .bitAnd => 7
  | .eq | .ne => 8
  | .lt | .gt | .le | .ge => 9
  | .shl | .shr => 10
  | .add | .sub => 11
  | .mul | .div | .rem => 12

def isComparison : BinaryOp → Bool
  | .lt | .gt | .le | .ge | .eq | .ne => true
  | _ => false

def isLogical : BinaryOp → Bool
  | .and | .or => true
  | _ => false

end BinaryOp

/-! ## Statements -/

/-- The number and place of a statement. -/
structure Node where
  id : Nat
  span : Span
deriving DecidableEq, Repr

/-- The first part of the head of a `for` loop. -/
inductive ForInit (ε γ : Type) where
  | none
  | decl (node : Node) (group : γ)
  | expr (node : Node) (e : ε)

inductive Statement (ε γ : Type) where
  | null (node : Node)
  | expr (node : Node) (e : ε)
  | decl (node : Node) (group : γ)
  | compound (node : Node) (stmts : List (Statement ε γ))
  | ifThen (node : Node) (cond : ε) (yes : Statement ε γ)
  | ifElse (node : Node) (cond : ε) (yes no : Statement ε γ)
  | «while» (node : Node) (cond : ε) (body : Statement ε γ)
  | doWhile (node : Node) (body : Statement ε γ) (cond : ε)
  | «for» (node : Node) (init : ForInit ε γ) (cond step : Option ε) (body : Statement ε γ)
  | «break» (node : Node)
  | «continue» (node : Node)
  | «return» (node : Node) (value : Option ε)

def Statement.node {ε γ : Type} : Statement ε γ → Node
  | .null n | .expr n .. | .decl n .. | .compound n .. | .ifThen n .. | .ifElse n .. | .while n ..
  | .doWhile n .. | .for n .. | .break n | .continue n | .return n .. => n

inductive InitialValue (ε : Type) where
  | expr (e : ε)
  | list (items : List (InitialValue ε)) (span : Span)
  /-- Arguments in parentheses behind the name. -/
  | construct (args : List ε) (span : Span)

end IncrementalC
