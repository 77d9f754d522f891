import IncrementalC.Syntax.Cursor

/-!
# Parsing expressions, specifiers and declarators

These depend on each other: a cast names a type, and an array declarator holds an expression. Every
rule takes a bound on the depth of calls. Each token is read after at most a fixed number of nested
calls, so `depthFor`, a multiple of the number of tokens, is enough for any input; a rule that
reaches the bound fails with an error of its own, `Parser.tooDeep`.

* `expr`: a comma expression; `assignment`, `conditional`, `binary`, `unary`, `postfixTail`.
* `declSpec`: declaration specifiers, with the record or enumeration that they define.
* `declarator`: pointers, name and suffixes.
-/
namespace IncrementalC.Syntax
set_option autoImplicit false

/-- More nested calls than parsing `c` can need. -/
def Cursor.depthFor (c : Cursor) : Nat := 40 * (c.rest.length + 1)

/-! ## Tables -/

def assignOp? : Punct → Option (Option BinaryOp)
  | .assign => some none
  | .plusAssign => some (some .add)
  | .minusAssign => some (some .sub)
  | .starAssign => some (some .mul)
  | .slashAssign => some (some .div)
  | .percentAssign => some (some .rem)
  | .ampAssign => some (some .bitAnd)
  | .pipeAssign => some (some .bitOr)
  | .caretAssign => some (some .bitXor)
  | .shlAssign => some (some .shl)
  | .shrAssign => some (some .shr)
  | _ => none

def binaryOp? : Punct → Option BinaryOp
  | .orOr => some .or | .andAnd => some .and | .pipe => some .bitOr | .caret => some .bitXor
  | .amp => some .bitAnd | .eqEq => some .eq | .notEq => some .ne | .lt => some .lt
  | .gt => some .gt | .ltEq => some .le | .gtEq => some .ge | .shl => some .shl | .shr => some .shr
  | .plus => some .add | .minus => some .sub | .star => some .mul | .slash => some .div
  | .percent => some .rem
  | _ => none

def leadingOp? : Punct → Option UnaryOp
  | .minus => some .neg | .plus => some .plus | .bang => some .not | .tilde => some .bitNot
  | .star => some .deref | .amp => some .addrOf | .plusPlus => some .preInc
  | .minusMinus => some .preDec
  | _ => none

/-- An operand of one token. -/
def atom? (span : Span) : TokenKind → Option Expr
  | .int v suffix => some (.int span v suffix)
  | .float v single => some (.float span v single)
  | .char code => some (.char span code)
  | .str text => some (.str span text)
  | .ident name => some (.ident span name)
  | .keyword .true => some (.bool span true)
  | .keyword .false => some (.bool span false)
  | .keyword .nullptr => some (.null span)
  | _ => none

/-! ## Specifier words -/

/-- The type that a list of type words means. -/
def wordsType? (words : List Keyword) : Option BaseType :=
  let longs := words.count .long
  let isSigned := words.contains .signed
  let isUnsigned := words.contains .unsigned
  let hasInt := words.contains .int
  let single := words.length = 1
  let others := words.filter fun w => !(w matches .long | .signed | .unsigned | .int)
  let int rank : Option BaseType := some (.int ⟨rank, !isUnsigned⟩)
  if isSigned && isUnsigned then none else
  match others with
  | [] =>
    match longs with
    | 0 => int .int
    | 1 => int .long
    | 2 => int .longLong
    | _ => none
  | [.void] => if single then some .void else none
  | [.bool] => if single then some .bool else none
  | [.float] => if single then some .float else none
  | [.auto] => if single then some .auto else none
  | [.double] => if longs ≤ 1 && !isSigned && !isUnsigned && !hasInt then some .double else none
  | [.char] => if longs = 0 && !hasInt then int .char else none
  | [.short] => if longs = 0 then int .short else none
  | _ => none

/-- The specifiers read so far. -/
structure Specifiers where
  storage : Storage := .none
  isConst : Bool := false
  isInline : Bool := false
  externC : Bool := false
  words : List Keyword := []
  base : Option BaseType := none
  /-- The record or enumeration that was defined on the way. -/
  definition : Option Decl := none

/-- The specifiers are complete but for their type: no word and no tag has been read. -/
def Specifiers.untyped (s : Specifiers) : Bool := s.base.isNone && s.words.isEmpty

def isTypeWord : Keyword → Bool
  | .void | .bool | .char | .short | .int | .long | .float | .double | .signed | .unsigned
  | .auto => true
  | _ => false

/-- Finishes a list of specifiers that began at `start`. -/
def Specifiers.finish (s : Specifiers) (start : Span) : Parser (DeclSpec × Option Decl) := do
  let base ← match s.base with
    | some b => pure b
    | none =>
      if s.words.isEmpty then Parser.unexpected .typeSpecifier
      else match wordsType? s.words with
        | some b => pure b
        | none => throw (.malformed .specifiers start)
  let span := start.merge (← Parser.prev)
  return ({ base, storage := s.storage, isConst := s.isConst, isInline := s.isInline,
            externC := s.externC, span }, s.definition)

/-! ## Tags without a name -/

def unnamedEnum : String := "__cinder_anon_enum_"

/-- The identifier behind the bracket that closes the first one, if it stands there. -/
def nameBehindBody? (depth : Nat) : List Token → Option String
  | [] => none
  | t :: r =>
    if t.kind.isPunct .lbrace then nameBehindBody? (depth + 1) r
    else if t.kind.isPunct .rbrace then
      if depth ≤ 1 then
        match r with
        | ⟨.ident name, _⟩ :: _ => some name
        | _ => none
      else nameBehindBody? (depth - 1) r
    else nameBehindBody? depth r

/-- A fresh name that begins with `stem`. -/
def freshName (stem : String) : Parser String := fun c =>
  .ok (s!"{stem}{c.unnamed + 1}", { c with unnamed := c.unnamed + 1 })

/-- In a typedef a record takes the name of the type that is defined. -/
def typedefName : Parser String := do
  match nameBehindBody? 0 (← get).rest with
  | some name => return name
  | none => freshName "__cinder_anon_"

/-! ## Records and enumerations -/

/-- The kind of a record, or `none` for an enumeration. -/
def tagKind (kw : Token) : Parser (Option RecordKind) :=
  match kw.kind with
  | .keyword .struct => return some .struct
  | .keyword .class => return some .class
  | .keyword .union => throw (.unsupported .union kw.span)
  | _ => return none

/-- The name of a record or an enumeration, made up if it has none. -/
def tagName (kw : Token) (record? : Option RecordKind) (name? : Option String)
    (hasBody inTypedef : Bool) : Parser String :=
  match name? with
  | some name => return name
  | none =>
    if hasBody && inTypedef then typedefName
    else if hasBody && record?.isNone then freshName unnamedEnum
    else throw (.unsupported .anonymousStruct kw.span)

/-- A record behind its name; `body` reads its fields. -/
def recordTag (kw : Token) (kind : RecordKind) (name : String) (hasBody : Bool)
    (body : Parser (List FieldDecl)) : Parser (BaseType × Option Decl) := do
  Parser.addTypeName name
  if hasBody then
    let fields ← body
    let span := kw.span.merge (← Parser.prev)
    return (.record kind name, some ⟨.record kind name (some fields), span⟩)
  else if ← Parser.isAtPunct .semi then
    let span := kw.span.merge (← Parser.prev)
    return (.record kind name, some ⟨.record kind name none, span⟩)
  else return (.record kind name, none)

/-- An enumeration behind its name; `values` reads its enumerators. -/
def enumTag (kw : Token) (name : String) (hasBody : Bool) (values : Parser (List Enumerator)) :
    Parser (BaseType × Option Decl) := do
  let unnamed := name.startsWith unnamedEnum
  if !unnamed then Parser.addTypeName name
  let base := if unnamed then BaseType.int ⟨.int, true⟩ else .enum name
  if hasBody then
    let _ ← Parser.advance
    let variants ← values
    let _ ← Parser.expect .rbrace
    let span := kw.span.merge (← Parser.prev)
    return (base, some ⟨.enum (if unnamed then none else some name) variants, span⟩)
  else return (base, none)

/-- Whether parentheses behind a declared name hold parameters rather than an initial value. -/
def Cursor.looksLikeParams (c : Cursor) : Bool :=
  match c.second with
  | .punct .rparen | .punct .ellipsis => true
  | k => c.startsType k

/-! ## The rules -/

mutual

def expr : Nat → Parser Expr
  | 0 => Parser.tooDeep
  | depth + 1 => do commaTail depth (← assignment depth)

def commaTail : Nat → Expr → Parser Expr
  | 0, _ => Parser.tooDeep
  | depth + 1, lhs => do
    if ← Parser.eat .comma then
      let rhs ← assignment depth
      commaTail depth (.comma (lhs.span.merge rhs.span) lhs rhs)
    else return lhs

def assignment : Nat → Parser Expr
  | 0 => Parser.tooDeep
  | depth + 1 => do
    let lhs ← conditional depth
    let op? := match ← Parser.kind with
      | .punct p => assignOp? p
      | _ => none
    match op? with
    | none => return lhs
    | some op =>
      let _ ← Parser.advance
      let rhs ← assignment depth
      return .assign (lhs.span.merge rhs.span) op lhs rhs

def conditional : Nat → Parser Expr
  | 0 => Parser.tooDeep
  | depth + 1 => do
    let cond ← binary depth 0
    if ← Parser.eat .question then
      let yes ← expr depth
      let _ ← Parser.expect .colon
      let no ← conditional depth
      return .conditional (cond.span.merge no.span) cond yes no
    else return cond

/-- Operators of precedence at least `min`. -/
def binary : Nat → Nat → Parser Expr
  | 0, _ => Parser.tooDeep
  | depth + 1, min => do binaryTail depth min (← unary depth)

def binaryTail : Nat → Nat → Expr → Parser Expr
  | 0, _, _ => Parser.tooDeep
  | depth + 1, min, lhs => do
    let op? := match ← Parser.kind with
      | .punct p => binaryOp? p
      | _ => none
    match op? with
    | none => return lhs
    | some op =>
      if op.precedence < min then return lhs else
      let _ ← Parser.advance
      let rhs ← binary depth (op.precedence + 1)
      binaryTail depth min (.binary (lhs.span.merge rhs.span) op lhs rhs)

def unary : Nat → Parser Expr
  | 0 => Parser.tooDeep
  | depth + 1 => do
    let start ← Parser.here
    let c ← get
    let atType := c.kind.isPunct .lparen && c.startsType c.second
    match c.kind with
    | .keyword .sizeof =>
      let _ ← Parser.advance
      let c ← get
      if c.kind.isPunct .lparen && c.startsType c.second then
        let _ ← Parser.advance
        let (spec, declarator) ← typeName depth
        let close ← Parser.expect .rparen
        return .sizeofType (start.merge close) spec declarator
      else
        let e ← unary depth
        return .sizeofExpr (start.merge e.span) e
    | .punct p =>
      match leadingOp? p with
      | some op =>
        let _ ← Parser.advance
        let e ← unary depth
        return .unary (start.merge e.span) op e
      | none =>
        if atType then
          let _ ← Parser.advance
          let (spec, declarator) ← typeName depth
          let _ ← Parser.expect .rparen
          let e ← unary depth
          return .cast (start.merge e.span) spec declarator e
        else postfixTail depth (← primary depth)
    | _ => postfixTail depth (← primary depth)

def primary : Nat → Parser Expr
  | 0 => Parser.tooDeep
  | depth + 1 => do
    let start ← Parser.here
    if ← Parser.eat .lparen then
      let e ← expr depth
      let close ← Parser.expect .rparen
      return e.withSpan (start.merge close)
    else match atom? start (← Parser.kind) with
      | some e =>
        let _ ← Parser.advance
        return e
      | none => Parser.unexpected .expression

def postfixTail : Nat → Expr → Parser Expr
  | 0, _ => Parser.tooDeep
  | depth + 1, e => do
    match ← Parser.kind with
    | .punct .lbracket =>
      let _ ← Parser.advance
      let index ← expr depth
      let close ← Parser.expect .rbracket
      postfixTail depth (.index (e.span.merge close) e index)
    | .punct .lparen =>
      let _ ← Parser.advance
      let args ← arguments depth
      let close ← Parser.expect .rparen
      postfixTail depth (.call (e.span.merge close) e args)
    | .punct .dot =>
      let _ ← Parser.advance
      let (field, span) ← Parser.expectIdent
      postfixTail depth (.member (e.span.merge span) e field false)
    | .punct .arrow =>
      let _ ← Parser.advance
      let (field, span) ← Parser.expectIdent
      postfixTail depth (.member (e.span.merge span) e field true)
    | .punct .plusPlus =>
      let t ← Parser.advance
      postfixTail depth (.unary (e.span.merge t.span) .postInc e)
    | .punct .minusMinus =>
      let t ← Parser.advance
      postfixTail depth (.unary (e.span.merge t.span) .postDec e)
    | _ => return e

/-- Arguments up to a closing parenthesis. -/
def arguments : Nat → Parser (List Expr)
  | 0 => Parser.tooDeep
  | depth + 1 => do
    if ← Parser.isAtPunct .rparen then return [] else argumentList depth

/-- One argument or more, with commas between them. -/
def argumentList : Nat → Parser (List Expr)
  | 0 => Parser.tooDeep
  | depth + 1 => do
    let e ← assignment depth
    if ← Parser.eat .comma then return e :: (← argumentList depth) else return [e]

/-- A type without a name, as in a cast. -/
def typeName : Nat → Parser (DeclSpec × Declarator)
  | 0 => Parser.tooDeep
  | depth + 1 => do
    let start ← Parser.here
    let (spec, definition) ← declSpec depth
    if definition.isSome then throw (.unsupported .typesInCasts start)
    let d ← declarator depth true
    if d.name.isSome then throw (.malformed .nameInType d.span)
    return (spec, d)

def declSpec : Nat → Parser (DeclSpec × Option Decl)
  | 0 => Parser.tooDeep
  | depth + 1 => do
    let start ← Parser.here
    (← specifiers depth {}).finish start

/-- Reads specifiers as long as there are any. -/
def specifiers : Nat → Specifiers → Parser Specifiers
  | 0, _ => Parser.tooDeep
  | depth + 1, s => do
    let again (s : Specifiers) : Parser Specifiers := do
      let _ ← Parser.advance
      specifiers depth s
    match ← Parser.kind with
    | .keyword .typedef => again { s with storage := .typedef }
    | .keyword .static => again { s with storage := .static }
    | .keyword .external =>
      let _ ← Parser.advance
      match ← Parser.kind with
      | .str "C" => again { s with externC := true }
      | _ => specifiers depth { s with storage := .external }
    | .keyword .inline => again { s with isInline := true }
    | .keyword .register | .keyword .volatile => again s
    | .keyword .const => again { s with isConst := true }
    | .keyword .struct | .keyword .class | .keyword .union | .keyword .enum =>
      if !s.untyped then Parser.unexpected .declarator
      let (base, definition) ← tagged depth (s.storage == .typedef)
      specifiers depth { s with base := some base, definition }
    | .keyword k =>
      if isTypeWord k then
        if s.base.isSome then Parser.unexpected .declarator
        again { s with words := s.words ++ [k] }
      else return s
    | .ident name =>
      if s.untyped && (← get).isTypeName name then again { s with base := some (.named name) }
      else return s
    | _ => return s

/-- A record or an enumeration, from its keyword on. -/
def tagged : Nat → Bool → Parser (BaseType × Option Decl)
  | 0, _ => Parser.tooDeep
  | depth + 1, inTypedef => do
    let kw ← Parser.advance
    let record? ← tagKind kw
    let name? ← Parser.ident?
    let hasBody ← Parser.isAtPunct .lbrace
    let name ← tagName kw record? name? hasBody inTypedef
    match record? with
    | some kind => recordTag kw kind name hasBody (recordBody depth)
    | none => enumTag kw name hasBody (enumerators depth)

/-- Enumerators up to the closing brace. A comma may stand behind the last one. -/
def enumerators : Nat → Parser (List Enumerator)
  | 0 => Parser.tooDeep
  | depth + 1 => do
    if ← Parser.isAtPunct .rbrace then return []
    let (name, start) ← Parser.expectIdent
    let value ← if ← Parser.eat .assign then some <$> conditional depth else pure none
    let e : Enumerator := { name, value, span := start.merge (← Parser.prev) }
    if ← Parser.eat .comma then return e :: (← enumerators depth) else return [e]

def recordBody : Nat → Parser (List FieldDecl)
  | 0 => Parser.tooDeep
  | depth + 1 => do
    let _ ← Parser.expect .lbrace
    let fields ← fieldDecls depth
    let _ ← Parser.expect .rbrace
    return fields

/-- Fields and access labels up to the closing brace. -/
def fieldDecls : Nat → Parser (List FieldDecl)
  | 0 => Parser.tooDeep
  | depth + 1 => do
    match ← Parser.kind with
    | .punct .rbrace => return []
    | .keyword .public | .keyword .private =>
      let _ ← Parser.advance
      let _ ← Parser.expect .colon
      fieldDecls depth
    | .eof => Parser.unexpected (.punct .rbrace)
    | _ =>
      let start ← Parser.here
      let (spec, definition) ← declSpec depth
      if definition.isSome then throw (.unsupported .nestedTypes start)
      let declarators ← fieldDeclarators depth
      let _ ← Parser.expect .semi
      let f : FieldDecl := { spec, declarators, span := start.merge (← Parser.prev) }
      return f :: (← fieldDecls depth)

def fieldDeclarators : Nat → Parser (List Declarator)
  | 0 => Parser.tooDeep
  | depth + 1 => do
    let d ← declarator depth false
    if d.isFunction then throw (.unsupported .memberFunctions d.span)
    if d.name.isNone then Parser.unexpected .fieldName
    if ← Parser.eat .comma then return d :: (← fieldDeclarators depth) else return [d]

/-- A declarator; the name may be left out if it is `abstract`. -/
def declarator : Nat → Bool → Parser Declarator
  | 0, _ => Parser.tooDeep
  | depth + 1, abstract => do
    let start ← Parser.here
    let pointers ← Parser.pointers
    let c ← get
    if c.kind.isPunct .lparen && c.second.isPunct .star then
      throw (.unsupported .functionPointers c.current.span)
    let name ← Parser.ident?
    if name.isNone && !abstract then Parser.unexpected .identifier
    let suffixes ← suffixes depth true
    return .mk name pointers suffixes (start.merge (← Parser.prev))

/-- Array sizes and, as the first suffix only, parameters. -/
def suffixes : Nat → Bool → Parser (List Suffix)
  | 0, _ => Parser.tooDeep
  | depth + 1, first => do
    if ← Parser.eat .lbracket then
      let s ← if ← Parser.isAtPunct .rbracket then pure .unsized
        else Suffix.sized <$> conditional depth
      let _ ← Parser.expect .rbracket
      return s :: (← suffixes depth false)
    else
      let c ← get
      if c.kind.isPunct .lparen && first && c.looksLikeParams then
        let s ← params depth
        return s :: (← suffixes depth false)
      else return []

def params : Nat → Parser Suffix
  | 0 => Parser.tooDeep
  | depth + 1 => do
    let _ ← Parser.expect .lparen
    let c ← get
    let (ps, variadic) ←
      if c.kind.isKeyword .void && c.second.isPunct .rparen then
        let _ ← Parser.advance
        pure ([], false)
      else if c.kind.isPunct .rparen then pure ([], false)
      else paramList depth
    let _ ← Parser.expect .rparen
    return .function ps variadic

/-- Parameters with commas between them; an ellipsis ends the list. -/
def paramList : Nat → Parser (List Param × Bool)
  | 0 => Parser.tooDeep
  | depth + 1 => do
    if ← Parser.eat .ellipsis then return ([], true)
    let start ← Parser.here
    let (spec, definition) ← declSpec depth
    if definition.isSome then throw (.unsupported .typesInParams start)
    let d ← declarator depth true
    let p : Param := .mk spec d (start.merge (← Parser.prev))
    if ← Parser.eat .comma then
      let (ps, variadic) ← paramList depth
      return (p :: ps, variadic)
    else return ([p], false)

end

end IncrementalC.Syntax
