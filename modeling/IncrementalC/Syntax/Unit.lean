import IncrementalC.Syntax.Expression

/-!
# Parsing declarations and statements

* `declGroup`: the declarations that share one list of specifiers, inside a function or, with
  `atTop`, outside of one; there the body of a function may follow.
* `stmt`, `block`: statements.
* `topLevel?`: the next group of the input, or `none` at its end.
-/
namespace IncrementalC.Syntax
set_option autoImplicit false

/-! ## Initializers -/

mutual

def initializer : Nat → Parser Initializer
  | 0 => Parser.tooDeep
  | depth + 1 => do
    if ← Parser.isAtPunct .lbrace then
      let start ← Parser.here
      let _ ← Parser.advance
      let items ← initializers depth
      let close ← Parser.expect .rbrace
      return .list items (start.merge close)
    else return .expr (← assignment depth)

/-- Initializers up to the closing brace. A comma may stand behind the last one. -/
def initializers : Nat → Parser (List Initializer)
  | 0 => Parser.tooDeep
  | depth + 1 => do
    if ← Parser.isAtPunct .rbrace then return []
    let i ← initializer depth
    if ← Parser.eat .comma then return i :: (← initializers depth) else return [i]

end

/-- The initial value behind the declarator of a variable. -/
def initialValue? (depth : Nat) : Parser (Option Initializer) := do
  if ← Parser.eat .assign then return some (← initializer depth)
  else if ← Parser.isAtPunct .lparen then
    let start ← Parser.here
    let _ ← Parser.advance
    let args ← arguments depth
    let close ← Parser.expect .rparen
    return some (.construct args (start.merge close))
  else return none

/-! ## Declarations -/

/-- A group of declarations, or the head of a function whose body comes next. -/
inductive GroupOrHead where
  | group (g : DeclGroup)
  | head (start : Span) (g : DeclGroup)

/-- The declaration of `name`, which is neither a typedef nor a function head. -/
def plainDecl (depth : Nat) (spec : DeclSpec) (name : String) (d : Declarator) : Parser DeclKind := do
  if spec.storage = .typedef then
    Parser.addTypeName name
    return .typedef name d
  else if d.isFunction then return .function name d spec.externC
  else return .var name d (← initialValue? depth)

/-- Declarators with commas between them, up to a semicolon. `start` is where the group began and
`before` what it declares so far, latest first. -/
def declarators (atTop : Bool) (start : Span) (spec : DeclSpec) :
    Nat → Bool → List Decl → Parser GroupOrHead
  | 0, _, _ => Parser.tooDeep
  | depth + 1, first, before => do
    let d ← declarator depth false
    let name := d.name.getD ""
    let declStart := if first then start else d.span
    if d.isFunction && (← Parser.isAtPunct .lbrace) then
      if !atTop then throw (.nestedFunction name d.span)
      if !first || spec.storage = .typedef then Parser.unexpected (.punct .semi)
      let head : Decl := ⟨.function name d spec.externC, declStart⟩
      return .head start { spec, decls := (head :: before).reverse, span := start }
    let kind ← plainDecl depth spec name d
    let decls := ⟨kind, declStart.merge (← Parser.prev)⟩ :: before
    if ← Parser.eat .comma then declarators atTop start spec depth false decls
    else
      let _ ← Parser.expect .semi
      return .group { spec, decls := decls.reverse, span := start.merge (← Parser.prev) }

def groupOrHead (atTop : Bool) (depth : Nat) : Parser GroupOrHead := do
  let start ← Parser.here
  let (spec, definition) ← declSpec depth
  if ← Parser.eat .semi then
    match definition with
    | none => throw (.malformed .emptyDeclaration start)
    | some d => return .group { spec, decls := [d], span := start.merge (← Parser.prev) }
  else declarators atTop start spec depth true definition.toList

/-- A group inside a function. -/
def localGroup (depth : Nat) : Parser DeclGroup := do
  match ← groupOrHead false depth with
  | .group g | .head _ g => return g

/-! ## Statements -/

/-- Numbers a statement that began at `start` and ends here. -/
def Parser.node (start : Span) : Parser Node := do
  let span := start.merge (← Parser.prev)
  return ⟨← Parser.freshId, span⟩

/-- The first part of the head of a `for` loop, with the semicolon behind it. -/
def forInit (depth : Nat) : Parser (ForInit Expr DeclGroup) := do
  if ← Parser.eat .semi then return .none
  else if (← get).startsDeclaration then
    let g ← localGroup depth
    return .decl ⟨← Parser.freshId, g.span⟩ g
  else
    let e ← expr depth
    let _ ← Parser.expect .semi
    let span := e.span.merge (← Parser.prev)
    return .expr ⟨← Parser.freshId, span⟩ e

/-- An expression, unless `p` stands here. -/
def exprUnless (p : Punct) (depth : Nat) : Parser (Option Expr) := do
  if ← Parser.isAtPunct p then return none else return some (← expr depth)

/-- An expression in parentheses. -/
def condition (depth : Nat) : Parser Expr := do
  let _ ← Parser.expect .lparen
  let e ← expr depth
  let _ ← Parser.expect .rparen
  return e

mutual

def block : Nat → Parser Stmt
  | 0 => Parser.tooDeep
  | depth + 1 => do
    let start ← Parser.expect .lbrace
    let stmts ← stmts depth
    let close ← Parser.expect .rbrace
    return .compound ⟨← Parser.freshId, start.merge close⟩ stmts

/-- Statements up to the closing brace. -/
def stmts : Nat → Parser (List Stmt)
  | 0 => Parser.tooDeep
  | depth + 1 => do
    match ← Parser.kind with
    | .punct .rbrace => return []
    | .eof => Parser.unexpected (.punct .rbrace)
    | _ =>
      let s ← stmt depth
      return s :: (← stmts depth)

def stmt : Nat → Parser Stmt
  | 0 => Parser.tooDeep
  | depth + 1 => do
    let start ← Parser.here
    match ← Parser.kind with
    | .punct .lbrace => block depth
    | .punct .semi | .directive (.pragma _) =>
      let _ ← Parser.advance
      return .null (← Parser.node start)
    | .keyword .if =>
      let _ ← Parser.advance
      let cond ← condition depth
      let yes ← stmt depth
      if (← Parser.kind).isKeyword .else then
        let _ ← Parser.advance
        let no ← stmt depth
        return .ifElse (← Parser.node start) cond yes no
      else return .ifThen (← Parser.node start) cond yes
    | .keyword .while =>
      let _ ← Parser.advance
      let cond ← condition depth
      let body ← stmt depth
      return .while (← Parser.node start) cond body
    | .keyword .do =>
      let _ ← Parser.advance
      let body ← stmt depth
      Parser.expectKeyword .while
      let cond ← condition depth
      let _ ← Parser.expect .semi
      return .doWhile (← Parser.node start) body cond
    | .keyword .for =>
      let _ ← Parser.advance
      let _ ← Parser.expect .lparen
      let init ← forInit depth
      let cond ← exprUnless .semi depth
      let _ ← Parser.expect .semi
      let step ← exprUnless .rparen depth
      let _ ← Parser.expect .rparen
      let body ← stmt depth
      return .for (← Parser.node start) init cond step body
    | .keyword .break =>
      let _ ← Parser.advance
      let _ ← Parser.expect .semi
      return .break (← Parser.node start)
    | .keyword .continue =>
      let _ ← Parser.advance
      let _ ← Parser.expect .semi
      return .continue (← Parser.node start)
    | .keyword .return =>
      let _ ← Parser.advance
      let value ← exprUnless .semi depth
      let _ ← Parser.expect .semi
      return .return (← Parser.node start) value
    | .keyword .switch => throw (.unsupported (.statement .switch) start)
    | .keyword .case => throw (.unsupported (.statement .case) start)
    | .keyword .default => throw (.unsupported (.statement .default) start)
    | .keyword .goto => throw (.unsupported (.statement .goto) start)
    | .directive (.include ..) => throw (.malformed .includeInFunction start)
    | _ =>
      if (← get).startsDeclaration then
        let g ← localGroup depth
        return .decl (← Parser.node start) g
      else
        let e ← expr depth
        let _ ← Parser.expect .semi
        return .expr (← Parser.node start) e

end

/-! ## Top level -/

/-- A failed parse, with the function in whose body it failed. -/
structure ParseFailure where
  error : ParseError
  function : Option String := none
deriving Repr

/-- Declarations inside a linkage block have that linkage. -/
def DeclGroup.markExternC (g : DeclGroup) : DeclGroup :=
  { g with
    spec := { g.spec with externC := true }
    decls := g.decls.map fun d => match d.kind with
      | .function name declarator _ => { d with kind := .function name declarator true }
      | _ => d }

/-- Closes the group of a function definition whose body has been read. -/
def DeclGroup.withBody (g : DeclGroup) (start bodySpan : Span) : DeclGroup :=
  { g with
    decls := g.decls.modify (g.decls.length - 1) fun d => { d with span := d.span.merge bodySpan }
    span := start.merge (match g.decls.getLast? with
      | some d => d.span.merge bodySpan
      | none => bodySpan) }

/-- Moves over separators and the marks of linkage blocks. `false` says that the input ends. -/
def Cursor.skipMarks (c : Cursor) : Nat → Except ParseError (Cursor × Bool)
  | 0 => .error (.unsupported .nesting c.current.span)
  | n + 1 =>
    match c.kind with
    | .eof =>
      if 0 < c.openBlocks then .error (.unexpected (.punct .rbrace) .eof c.current.span)
      else .ok (c, false)
    | .punct .semi | .directive (.pragma _) => c.advance.skipMarks n
    | .directive (.include ..) => .error (.malformed .misplacedInclude c.current.span)
    | .punct .rbrace =>
      if 0 < c.openBlocks then
        { c.advance with openBlocks := c.openBlocks - 1 }.skipMarks n
      else .ok (c, true)
    | .keyword .external =>
      match c.second, c.third with
      | .str "C", .punct .lbrace =>
        { c.advance.advance.advance with openBlocks := c.openBlocks + 1 }.skipMarks n
      | _, _ => .ok (c, true)
    | _ => .ok (c, true)

/-- The next top-level group, or `none` at the end of the input. -/
def topLevel? (c : Cursor) : Except ParseFailure (Option TopLevel × Cursor) :=
  let mark (c : Cursor) (g : DeclGroup) := if 0 < c.openBlocks then g.markExternC else g
  match c.skipMarks (c.rest.length + 1) with
  | .error e => .error ⟨e, none⟩
  | .ok (c, false) => .ok (none, c)
  | .ok (c, true) =>
    match groupOrHead true c.depthFor c with
    | .error e => .error ⟨e, none⟩
    | .ok (.group g, c') => .ok (some ⟨mark c g, none⟩, c')
    | .ok (.head start g, c') =>
      match block c'.depthFor c' with
      | .ok (body, c'') => .ok (some ⟨mark c (g.withBody start body.node.span), some body⟩, c'')
      | .error e =>
        let name? := match g.decls.getLast? with
          | some ⟨.function name .., _⟩ => some name
          | _ => none
        .error ⟨e, match e with
          | .nestedFunction .. => none
          | _ => name?⟩

end IncrementalC.Syntax
