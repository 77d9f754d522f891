import IncrementalC.Syntax.Tree

/-!
# Reading tokens

A `Parser` moves a `Cursor` over the tokens that are left. `advance` is the only step, and it drops
one token, so what a parser leaves is a tail of what it found.
-/
namespace IncrementalC.Syntax
set_option autoImplicit false

/-! ## Errors -/

/-- What should have stood where something else was found. -/
inductive Expected where
  | punct (p : Punct)
  | keyword (k : Keyword)
  | identifier | typeSpecifier | declarator | fieldName | expression
deriving DecidableEq, Repr

def Expected.describe : Expected → String
  | .punct p => (TokenKind.punct p).describe
  | .keyword k => (TokenKind.keyword k).describe
  | .identifier => "identifier"
  | .typeSpecifier => "type specifier"
  | .declarator => "declarator"
  | .fieldName => "field name"
  | .expression => "expression"

/-- Parts of the language that are recognised and refused. -/
inductive Unsupported where
  | union | anonymousStruct | nestedTypes | memberFunctions | functionPointers
  | typesInParams | typesInCasts
  | statement (k : Keyword)
  /-- More nested calls of the parser than it was given. -/
  | nesting
deriving DecidableEq, Repr

def Unsupported.describe : Unsupported → String
  | .union => "'union'"
  | .anonymousStruct => "anonymous struct outside of a typedef"
  | .nestedTypes => "nested type definitions"
  | .memberFunctions => "member functions"
  | .functionPointers => "function pointers"
  | .typesInParams => "type definitions in parameters"
  | .typesInCasts => "type definitions in casts"
  | .statement k => s!"{(TokenKind.keyword k).describe} statement"
  | .nesting => "nesting this deep"

inductive Malformed where
  | misplacedInclude | includeInFunction | emptyDeclaration | specifiers | nameInType
deriving DecidableEq, Repr

def Malformed.message : Malformed → String
  | .misplacedInclude => "#include is only allowed at the start of a line outside of functions"
  | .includeInFunction => "#include is not allowed inside a function"
  | .emptyDeclaration => "declaration does not declare anything"
  | .specifiers => "invalid combination of type specifiers"
  | .nameInType => "unexpected name in type"

inductive ParseError where
  | unexpected (expected : Expected) (found : TokenKind) (span : Span)
  | nestedFunction (name : String) (span : Span)
  | unsupported (what : Unsupported) (span : Span)
  | malformed (what : Malformed) (span : Span)
deriving Repr

namespace ParseError

def message : ParseError → String
  | .unexpected expected found _ => s!"expected {expected.describe}, found {found.describe}"
  | .nestedFunction _ _ => "function definition is not allowed here"
  | .unsupported what _ => s!"{what.describe} is not supported"
  | .malformed what _ => what.message

def span : ParseError → Span
  | .unexpected _ _ s | .nestedFunction _ s | .unsupported _ s | .malformed _ s => s

end ParseError

/-! ## The cursor -/

structure Cursor where
  /-- The tokens that are left, without the end mark. -/
  rest : List Token
  /-- Where the input ends. -/
  stop : Span
  /-- The place of the last token read. -/
  prev : Span := .none
  /-- The number of the next statement. -/
  nextId : Nat := 0
  /-- Identifiers that name types. -/
  typeNames : List String := []
  /-- Linkage blocks that are open. -/
  openBlocks : Nat := 0
  /-- Types without a name of their own that have been named. -/
  unnamed : Nat := 0

abbrev Parser := StateT Cursor (Except ParseError)

namespace Cursor

/-- A cursor at the start of `tokens`; an end mark among them gives the place of the end. -/
def ofTokens (tokens : List Token) (typeNames : List String) (nextId : Nat) : Cursor :=
  { rest := tokens.filter (!·.kind.isEof)
    stop := ((tokens.find? (·.kind.isEof)).map (·.span)).getD .none
    typeNames
    nextId }

def current (c : Cursor) : Token := c.rest.headD ⟨.eof, c.stop⟩

def kind (c : Cursor) : TokenKind := c.current.kind

/-- The token that follows the current one. -/
def second (c : Cursor) : TokenKind := ((c.rest[1]?).map (·.kind)).getD .eof

def third (c : Cursor) : TokenKind := ((c.rest[2]?).map (·.kind)).getD .eof

def advance (c : Cursor) : Cursor :=
  match c.rest with
  | t :: r => { c with rest := r, prev := t.span }
  | [] => c

def isTypeName (c : Cursor) (name : String) : Bool := c.typeNames.contains name

/-- A type may begin with a token of this kind. -/
def startsType (c : Cursor) : TokenKind → Bool
  | .ident name => c.isTypeName name
  | k => k.startsType

/-- A declaration begins here. A type name in front of a member access or an assignment is an
object of that name. -/
def startsDeclaration (c : Cursor) : Bool :=
  match c.kind with
  | .ident name => c.isTypeName name && !(match c.second with
    | .punct .dot | .punct .arrow | .punct .assign => true
    | _ => false)
  | k => k.startsType

end Cursor

/-! ## Steps -/

namespace Parser

def kind : Parser TokenKind := return (← get).kind

/-- The place of the current token. -/
def here : Parser Span := return (← get).current.span

def prev : Parser Span := return (← get).prev

/-- Reads one token. -/
def advance : Parser Token := fun c => .ok (c.current, c.advance)

def isAtPunct (p : Punct) : Parser Bool := return (← get).kind.isPunct p

/-- Reads the token if it is `p`. -/
def eat (p : Punct) : Parser Bool := fun c =>
  if c.kind.isPunct p then .ok (true, c.advance) else .ok (false, c)

def unexpected {α : Type} (what : Expected) : Parser α := fun c =>
  .error (.unexpected what c.kind c.current.span)

/-- The rules do this when the bound on nested calls is used up. -/
def tooDeep {α : Type} : Parser α := fun c => .error (.unsupported .nesting c.current.span)

/-- Reads `p`, which has to stand here, and returns its place. -/
def expect (p : Punct) : Parser Span := fun c =>
  if c.kind.isPunct p then .ok (c.current.span, c.advance)
  else .error (.unexpected (.punct p) c.kind c.current.span)

def expectKeyword (k : Keyword) : Parser Unit := fun c =>
  if c.kind.isKeyword k then .ok ((), c.advance)
  else .error (.unexpected (.keyword k) c.kind c.current.span)

/-- Reads an identifier, if there is one. -/
def ident? : Parser (Option String) := fun c =>
  match c.kind with
  | .ident name => .ok (some name, c.advance)
  | _ => .ok (none, c)

def expectIdent : Parser (String × Span) := fun c =>
  match c.kind with
  | .ident name => .ok ((name, c.current.span), c.advance)
  | k => .error (.unexpected .identifier k c.current.span)

def addTypeName (name : String) : Parser Unit :=
  modify fun c => { c with typeNames := name :: c.typeNames }

def freshId : Parser Nat := fun c => .ok (c.nextId, { c with nextId := c.nextId + 1 })

/-- Reads pointer stars, each with the qualifiers behind it, and counts the stars. -/
def pointers : Parser Nat := fun c =>
  let (n, prev, rest) := go 0 c.prev c.rest
  .ok (n, { c with prev, rest })
where
  go (n : Nat) (prev : Span) : List Token → Nat × Span × List Token
    | [] => (n, prev, [])
    | t :: r =>
      if t.kind.isPunct .star then go (n + 1) t.span r
      else if 0 < n && (t.kind.isKeyword .const || t.kind.isKeyword .volatile) then go n t.span r
      else (n, prev, t :: r)

end Parser

end IncrementalC.Syntax
