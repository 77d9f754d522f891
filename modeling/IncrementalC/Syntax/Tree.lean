import IncrementalC.Syntax.Shape
import IncrementalC.Token.Basic
import IncrementalC.Types.Basic

/-!
# What the parser yields

The tree of one declaration group as written: names are not looked up and types are not worked out.
A function body can only stand at the end of a top-level group, so declarations hold no statements;
`TopLevel` pairs a group with the body of its last declaration.
-/
namespace IncrementalC.Syntax
set_option autoImplicit false

/-! ## Specifiers -/

inductive Storage where
  | none | static | external | typedef
deriving DecidableEq, Repr

inductive RecordKind where
  | struct | «class»
deriving DecidableEq, Repr

inductive BaseType where
  | void | bool
  | int (kind : IntKind)
  | float | double
  | auto
  /-- A typedef name, or the tag of a record or an enumeration. -/
  | named (name : String)
  | record (kind : RecordKind) (name : String)
  | enum (name : String)
deriving DecidableEq, Repr

structure DeclSpec where
  base : BaseType
  storage : Storage := .none
  isConst : Bool := false
  isInline : Bool := false
  externC : Bool := false
  span : Span
deriving DecidableEq, Repr

/-! ## Expressions and declarators -/

mutual

inductive Expr where
  | int (span : Span) (value : Nat) (suffix : IntSuffix)
  | float (span : Span) (value : Double) (single : Bool)
  | char (span : Span) (code : Nat)
  | str (span : Span) (text : String)
  | bool (span : Span) (value : Bool)
  | null (span : Span)
  | ident (span : Span) (name : String)
  | unary (span : Span) (op : UnaryOp) (e : Expr)
  | binary (span : Span) (op : BinaryOp) (a b : Expr)
  /-- An assignment, compound if it has an operator. -/
  | assign (span : Span) (op : Option BinaryOp) (a b : Expr)
  | conditional (span : Span) (c a b : Expr)
  | call (span : Span) (callee : Expr) (args : List Expr)
  | index (span : Span) (base index : Expr)
  | member (span : Span) (base : Expr) (field : String) (arrow : Bool)
  | cast (span : Span) (spec : DeclSpec) (declarator : Declarator) (e : Expr)
  | sizeofType (span : Span) (spec : DeclSpec) (declarator : Declarator)
  | sizeofExpr (span : Span) (e : Expr)
  | comma (span : Span) (a b : Expr)

/-- Pointer stars, a name, and array or parameter suffixes in source order. -/
inductive Declarator where
  | mk (name : Option String) (pointers : Nat) (suffixes : List Suffix) (span : Span)

inductive Suffix where
  | unsized
  | sized (size : Expr)
  | function (params : List Param) (variadic : Bool)

inductive Param where
  | mk (spec : DeclSpec) (declarator : Declarator) (span : Span)

end

instance : Inhabited Expr := ⟨.null .none⟩
instance : Inhabited Declarator := ⟨.mk none 0 [] .none⟩

namespace Expr

def span : Expr → Span
  | .int s .. | .float s .. | .char s .. | .str s .. | .bool s .. | .null s | .ident s ..
  | .unary s .. | .binary s .. | .assign s .. | .conditional s .. | .call s .. | .index s ..
  | .member s .. | .cast s .. | .sizeofType s .. | .sizeofExpr s .. | .comma s .. => s

def withSpan (s : Span) : Expr → Expr
  | .int _ v x => .int s v x
  | .float _ v x => .float s v x
  | .char _ c => .char s c
  | .str _ t => .str s t
  | .bool _ b => .bool s b
  | .null _ => .null s
  | .ident _ n => .ident s n
  | .unary _ op e => .unary s op e
  | .binary _ op a b => .binary s op a b
  | .assign _ op a b => .assign s op a b
  | .conditional _ c a b => .conditional s c a b
  | .call _ f args => .call s f args
  | .index _ a i => .index s a i
  | .member _ a f arrow => .member s a f arrow
  | .cast _ spec d e => .cast s spec d e
  | .sizeofType _ spec d => .sizeofType s spec d
  | .sizeofExpr _ e => .sizeofExpr s e
  | .comma _ a b => .comma s a b

end Expr

namespace Declarator

def name : Declarator → Option String
  | .mk n _ _ _ => n

def pointers : Declarator → Nat
  | .mk _ p _ _ => p

def suffixes : Declarator → List Suffix
  | .mk _ _ s _ => s

def span : Declarator → Span
  | .mk _ _ _ s => s

def isFunction : Declarator → Bool
  | .mk _ _ (.function .. :: _) _ => true
  | _ => false

end Declarator

/-! ## Declarations -/

abbrev Initializer := InitialValue Expr

/-- One specifier list inside a record, with its declarators. -/
structure FieldDecl where
  spec : DeclSpec
  declarators : List Declarator
  span : Span

structure Enumerator where
  name : String
  value : Option Expr
  span : Span

inductive DeclKind where
  | var (name : String) (declarator : Declarator) (init : Option Initializer)
  | function (name : String) (declarator : Declarator) (externC : Bool)
  /-- A forward declaration if there are no fields. -/
  | record (kind : RecordKind) (name : String) (fields : Option (List FieldDecl))
  | enum (name : Option String) (variants : List Enumerator)
  | typedef (name : String) (declarator : Declarator)

structure Decl where
  kind : DeclKind
  span : Span

/-- All declarations that share one list of specifiers. -/
structure DeclGroup where
  spec : DeclSpec
  decls : List Decl
  span : Span

/-! ## Statements -/

abbrev Stmt := Statement Expr DeclGroup

/-- A group at top level. The body, if there is one, belongs to the last declaration. -/
structure TopLevel where
  group : DeclGroup
  body : Option Stmt

end IncrementalC.Syntax
