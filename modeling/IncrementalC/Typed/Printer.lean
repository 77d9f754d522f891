import IncrementalC.Text.Literal
import IncrementalC.Types.Table
import IncrementalC.Typed.Tree

/-!
# Analysed trees as source text

Used where a tree no longer matches the text that it came from. Types are written from the type
table, and parentheses are written only where the precedence of an operand asks for them.

* `Printer.expr`, `Printer.initializer`, `Printer.decl`, `Printer.group`, `Printer.stmt`.
* `Printer.ident` may replace the text of an identifier.
-/
namespace IncrementalC.Typed
set_option autoImplicit false

structure Printer where
  types : TypeTable
  /-- The text that stands for an identifier instead of its name. -/
  ident : Info → String → Binding → Option String := fun _ _ _ => none

/-! ## Precedences beside those of the binary operators -/

namespace Prec

def comma : Nat := 0
def assign : Nat := 1
def conditional : Nat := 2
def unary : Nat := 13
def suffix : Nat := 14
def primary : Nat := 15

end Prec

/-- A text that binds with precedence `prec`, in a place that asks for `min`. -/
def parenthesize (min : Nat) (text : String × Nat) : String :=
  if text.2 < min then s!"({text.1})" else text.1

def suffixText : IntSuffix → String
  | .none => ""
  | .u => "u"
  | .l => "l"
  | .ul => "ul"
  | .ll => "ll"
  | .ull => "ull"

def leadingText : UnaryOp → String
  | .neg => "-"
  | .plus => "+"
  | .not => "!"
  | .bitNot => "~"
  | .deref => "*"
  | .addrOf => "&"
  | .preInc | .postInc => "++"
  | .preDec | .postDec => "--"

/-- A leading operator and its operand. A blank keeps two operator signs apart. -/
def leading (op : UnaryOp) (operand : String) : String :=
  let symbol := leadingText op
  let glues := match op with
    | .neg | .plus | .preInc | .preDec | .addrOf => symbol.toList.head? == operand.toList.head?
    | _ => false
  if glues then s!"{symbol} {operand}" else s!"{symbol}{operand}"

def assignText (op : Option BinaryOp) : String :=
  match op with
  | some op => s!"{op.symbol}="
  | none => "="

def commaList (items : List String) : String := ", ".intercalate items

/-- A list of items inside braces. -/
def braced (items : List String) : String :=
  if items.isEmpty then "\x7b\x7d" else "\x7b " ++ commaList items ++ " \x7d"

namespace Printer

mutual

/-- The text of an expression and the precedence with which it binds. -/
def exprText (p : Printer) : Expr → String × Nat
  | .int _ v suffix => (s!"{v}{suffixText suffix}", Prec.primary)
  | .float _ x single =>
    (Decimal.render Decimal.valueNotation x ++ (if single then "f" else ""), Prec.primary)
  | .char _ c => (Text.charLiteral (Int64.ofNat c), Prec.primary)
  | .str _ s => (Text.stringLiteral s, Prec.primary)
  | .bool _ b => (toString b, Prec.primary)
  | .null _ => ("nullptr", Prec.primary)
  | .ident i name binding => ((p.ident i name binding).getD name, Prec.primary)
  | .unary _ .postInc e => (parenthesize Prec.suffix (p.exprText e) ++ "++", Prec.suffix)
  | .unary _ .postDec e => (parenthesize Prec.suffix (p.exprText e) ++ "--", Prec.suffix)
  | .unary _ op e => (leading op (parenthesize Prec.unary (p.exprText e)), Prec.unary)
  | .binary _ op a b =>
    let prec := op.precedence
    (s!"{parenthesize prec (p.exprText a)} {op.symbol} {parenthesize (prec + 1) (p.exprText b)}",
      prec)
  | .assign _ op a b =>
    let a := parenthesize Prec.unary (p.exprText a)
    (s!"{a} {assignText op} {parenthesize Prec.assign (p.exprText b)}", Prec.assign)
  | .conditional _ c a b =>
    let c := parenthesize (Prec.conditional + 1) (p.exprText c)
    let b := parenthesize Prec.conditional (p.exprText b)
    (s!"{c} ? {(p.exprText a).1} : {b}", Prec.conditional)
  | .call _ callee _ args => (s!"{callee}({commaList (p.argTexts args)})", Prec.suffix)
  | .index _ base index =>
    (s!"{parenthesize Prec.suffix (p.exprText base)}[{(p.exprText index).1}]", Prec.suffix)
  | .member _ base field arrow =>
    let op := if arrow then "->" else "."
    (s!"{parenthesize Prec.suffix (p.exprText base)}{op}{field}", Prec.suffix)
  | .cast _ target e =>
    (s!"({p.types.name target}){parenthesize Prec.unary (p.exprText e)}", Prec.unary)
  | .sizeofType _ target => (s!"sizeof({p.types.name target})", Prec.unary)
  | .sizeofExpr _ e => (s!"sizeof({(p.exprText e).1})", Prec.unary)
  | .comma _ a b =>
    (s!"{(p.exprText a).1}, {parenthesize Prec.assign (p.exprText b)}", Prec.comma)
  | .invalid _ => ("", Prec.primary)

def argTexts (p : Printer) : List Expr → List String
  | [] => []
  | e :: es => parenthesize Prec.assign (p.exprText e) :: p.argTexts es

end

def expr (p : Printer) (e : Expr) : String := (p.exprText e).1

/-- An expression where a comma would separate it from the next one. -/
def argument (p : Printer) (e : Expr) : String := parenthesize Prec.assign (p.exprText e)

mutual

def initializer (p : Printer) : Initializer → String
  | .expr e => p.argument e
  | .list items _ => braced (p.initializers items)
  | .construct args _ => s!"({commaList (p.argTexts args)})"

def initializers (p : Printer) : List Initializer → List String
  | [] => []
  | i :: is => p.initializer i :: p.initializers is

end

/-! ## Declarations -/

def param (p : Printer) (x : Param) : String := p.types.declare x.ty (x.name.getD "")

/-- The head of a function. -/
def prototype (p : Printer) (f : FunctionDecl) : String :=
  let params := f.params.map p.param ++ (if f.variadic then ["..."] else [])
  let head := p.types.declare f.ret s!"{f.name}({commaList params})"
  (if f.externC then "extern \"C\" " else "") ++ (if f.isStatic then "static " else "")
    ++ (if f.isInline then "inline " else "") ++ head

def var (p : Printer) (v : VarDecl) : String :=
  let storage := if v.isExtern then "extern " else if v.storage = .static then "static " else ""
  let init := match v.init with
    | none => ""
    | some (.construct args span) => p.initializer (.construct args span)
    | some i => " = " ++ p.initializer i
  storage ++ p.types.declare v.ty v.name ++ init

def record (p : Printer) (isClass : Bool) (name : String) (id : Option RecordId)
    (defines : Bool) : String :=
  let keyword := if isClass then "class" else "struct"
  match id.bind p.types.record?, defines with
  | some r, true =>
    let fields := r.fields.map fun f => p.types.declare f.ty f.name ++ ";"
    let access := if isClass then "public: " else ""
    s!"{keyword} {name} \x7b {access}" ++ " ".intercalate fields ++ " \x7d"
  | _, _ => s!"{keyword} {name}"

/-- One declaration, without the semicolon. -/
def decl (p : Printer) (d : Decl) : String :=
  match d.kind with
  | .var v => p.var v
  | .function f => p.prototype f
  | .record isClass name id defines => p.record isClass name id defines
  | .enum name variants =>
    let variants := commaList (variants.map fun (v, value) => s!"{v} = {value.toInt}")
    match name with
    | some name => s!"enum {name} \x7b {variants} \x7d"
    | none => s!"enum \x7b {variants} \x7d"
  | .typedef name ty => s!"typedef {p.types.declare ty name}"

def group (p : Printer) (g : DeclGroup) : String :=
  " ".intercalate (g.decls.map fun d => p.decl d ++ ";")

/-! ## Statements -/

def indent (depth : Nat) : String := String.ofList (List.replicate (4 * depth) ' ')

def forInit (p : Printer) : ForInit Expr DeclGroup → String
  | .none => ";"
  | .decl _ g => p.group g
  | .expr _ e => p.expr e ++ ";"

mutual

/-- A statement inside `depth` blocks. -/
def stmt (p : Printer) (depth : Nat) : Stmt → String
  | .null _ => ";"
  | .expr _ e => p.expr e ++ ";"
  | .decl _ g => p.group g
  | .compound _ stmts => "\x7b\n" ++ p.lines depth stmts ++ indent depth ++ "\x7d"
  | .ifThen _ c yes => s!"if ({p.expr c}) {p.stmt depth yes}"
  | .ifElse _ c yes no => s!"if ({p.expr c}) {p.stmt depth yes} else {p.stmt depth no}"
  | .while _ c body => s!"while ({p.expr c}) {p.stmt depth body}"
  | .doWhile _ body c => s!"do {p.stmt depth body} while ({p.expr c});"
  | .for _ init c step body =>
    let c := (c.map p.expr).getD ""
    let step := (step.map p.expr).getD ""
    s!"for ({p.forInit init} {c}; {step}) {p.stmt depth body}"
  | .break _ => "break;"
  | .continue _ => "continue;"
  | .return _ (some e) => s!"return {p.expr e};"
  | .return _ none => "return;"

/-- The statements of a block, one on a line. -/
def lines (p : Printer) (depth : Nat) : List Stmt → String
  | [] => ""
  | s :: ss => indent (depth + 1) ++ p.stmt (depth + 1) s ++ "\n" ++ p.lines depth ss

end

/-- A top-level group, with the body of its function. -/
def topLevel (p : Printer) (t : TopLevel) : String :=
  match t.function?, t.body with
  | some f, some body =>
    let before := t.group.decls.dropLast.map fun d => p.decl d ++ ";"
    " ".intercalate (before ++ [s!"{p.prototype f} {p.stmt 0 body}"])
  | _, _ => p.group t.group

end Printer

end IncrementalC.Typed
