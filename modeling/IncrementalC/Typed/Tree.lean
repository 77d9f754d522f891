import IncrementalC.Code.Instr
import IncrementalC.Syntax.Shape
import IncrementalC.Token.Basic
import IncrementalC.Typed.Constant

/-!
# What the analysis yields

The tree of one declaration group with every name bound and every type worked out. Type names have
become types, so nothing of declarators and specifiers is left. Expressions whose meaning hangs on
an unknown name have the dependent type.
-/
namespace IncrementalC.Typed
set_option autoImplicit false

/-- What an identifier refers to. -/
inductive Binding where
  | unresolved
  /-- An object in the frame of the function. -/
  | local (slot : Nat)
  /-- An object of the program, by the name that it is linked under. -/
  | global (linkName : String)
  | function
  | enumConst (value : Int64)
  | builtin (b : Builtin)
  /-- A name that will be looked up at run time. -/
  | placeholder
deriving DecidableEq, Repr

def Binding.isVariable : Binding → Bool
  | .local _ | .global _ => true
  | _ => false

/-- The place and the type of an expression. -/
structure Info where
  span : Span
  ty : Ty
deriving DecidableEq, Repr, Inhabited

inductive Expr where
  | int (i : Info) (value : Nat) (suffix : IntSuffix)
  | float (i : Info) (value : Double) (single : Bool)
  | char (i : Info) (code : Nat)
  | str (i : Info) (text : String)
  | bool (i : Info) (value : Bool)
  | null (i : Info)
  | ident (i : Info) (name : String) (binding : Binding)
  | unary (i : Info) (op : UnaryOp) (e : Expr)
  | binary (i : Info) (op : BinaryOp) (a b : Expr)
  | assign (i : Info) (op : Option BinaryOp) (a b : Expr)
  | conditional (i : Info) (c a b : Expr)
  | call (i : Info) (callee : String) (target : Binding) (args : List Expr)
  | index (i : Info) (base index : Expr)
  | member (i : Info) (base : Expr) (field : String) (arrow : Bool)
  | cast (i : Info) (target : Ty) (e : Expr)
  | sizeofType (i : Info) (target : Ty)
  | sizeofExpr (i : Info) (e : Expr)
  | comma (i : Info) (a b : Expr)
  /-- What could not be analysed. -/
  | invalid (i : Info)
deriving Inhabited

namespace Expr

def info : Expr → Info
  | .int i .. | .float i .. | .char i .. | .str i .. | .bool i .. | .null i | .ident i ..
  | .unary i .. | .binary i .. | .assign i .. | .conditional i .. | .call i .. | .index i ..
  | .member i .. | .cast i .. | .sizeofType i .. | .sizeofExpr i .. | .comma i ..
  | .invalid i => i

def ty (e : Expr) : Ty := e.info.ty

def span (e : Expr) : Span := e.info.span

/-- The expression denotes an object. An expression of dependent type may. -/
def isLvalue : Expr → Bool
  | .ident _ _ binding => binding.isVariable
  | .unary _ .deref _ | .index .. => true
  | .member _ base _ arrow => arrow || base.isLvalue
  | e => e.ty.isDependent

end Expr

/-! ## Declarations -/

abbrev Initializer := InitialValue Expr

def Initializer.span : Initializer → Span
  | .expr e => e.span
  | .list _ s | .construct _ s => s

inductive VarStorage where
  | global
  | local (slot : Nat)
  /-- Declared in a function and kept between its calls. -/
  | static
deriving DecidableEq, Repr

structure VarDecl where
  name : String
  ty : Ty
  init : Option Initializer
  storage : VarStorage
  linkName : String
  isExtern : Bool
  /-- The initial value slot by slot, unless code has to run for it. -/
  constantInit : Option (List (Nat × Constant))

def VarDecl.isDefinition (v : VarDecl) : Bool := !v.isExtern || v.init.isSome

structure Param where
  name : Option String
  ty : Ty
  slot : Nat
deriving DecidableEq, Repr

structure FunctionDecl where
  name : String
  ret : Ty
  params : List Param
  variadic : Bool
  /-- Slots for parameters and local objects; zero without a body. -/
  frameSlots : Nat
  externC : Bool
  isStatic : Bool
  isInline : Bool
  /-- Where the name and the parameters stand. -/
  headSpan : Span
deriving DecidableEq, Repr

inductive DeclKind where
  | var (v : VarDecl)
  | function (f : FunctionDecl)
  /-- A forward declaration unless it defines the fields. -/
  | record (isClass : Bool) (name : String) (id : Option RecordId) (defines : Bool)
  | enum (name : Option String) (variants : List (String × Int64))
  | typedef (name : String) (ty : Ty)

structure Decl where
  kind : DeclKind
  span : Span

def Decl.name? (d : Decl) : Option String :=
  match d.kind with
  | .var v => some v.name
  | .function f => some f.name
  | .record _ name .. => some name
  | .enum name _ => name
  | .typedef name _ => some name

structure DeclGroup where
  decls : List Decl
  span : Span

abbrev Stmt := Statement Expr DeclGroup

/-- A group at top level. The body, if there is one, belongs to the last declaration. -/
structure TopLevel where
  group : DeclGroup
  body : Option Stmt := none

namespace TopLevel

/-- The function that the group defines. -/
def function? (t : TopLevel) : Option FunctionDecl := do
  let _ ← t.body
  match (← t.group.decls.getLast?).kind with
  | .function f => some f
  | _ => none

/-- The statements of a body. -/
def statements? (t : TopLevel) : Option (List Stmt) :=
  match t.body with
  | some (.compound _ stmts) => some stmts
  | _ => none

/-- Replaces the statements of the body. -/
def withStatements (t : TopLevel) (stmts : List Stmt) : TopLevel :=
  match t.body with
  | some (.compound node _) => { t with body := some (.compound node stmts) }
  | _ => t

end TopLevel

end IncrementalC.Typed
