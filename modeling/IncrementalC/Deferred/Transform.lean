import IncrementalC.Analysis.State
import IncrementalC.Typed.Printer

/-!
# Expressions that wait for run time

Where unknown names are allowed, an expression that contains one has the dependent type. `transform`
replaces each largest such expression by a call

    (T)__cinder_eval(session, template, &v1, &v2, ...)

The template is the text of the expression with `@` in the place of the address of each variable.
At run time the addresses are filled in and the template is compiled.

* `Deferral`: a record of one replacement.
* `DeferredState`: the records, and the statements that no longer match their text.
-/
namespace IncrementalC
set_option autoImplicit false
open Typed

/-- The global object that holds the handle of the session. -/
def sessionGlobal : String := "gCinder"

/-- One expression that was replaced. -/
structure Deferral where
  /-- The unknown names, in the order of their first use. -/
  names : List String
  /-- The statement of the function body that holds the expression. -/
  stmt : Option Nat
  /-- The variables whose addresses are passed. -/
  captured : List (String × Ty)
  template : String
  /-- The type that the context asks for. -/
  expected : Option Ty
  span : Span
deriving DecidableEq, Repr

structure DeferredState where
  enabled : Bool := false
  records : Array Deferral := #[]
  /-- Numbers of the statements that were changed. -/
  dirty : List Nat := []
deriving Repr

def DeferredState.clear (s : DeferredState) : DeferredState := { s with records := #[], dirty := [] }

namespace Deferred

/-! ## Names in an expression -/

/-- Unknown names and captured variables, in the order of their first use. -/
structure Uses where
  names : List String := []
  captured : List (String × Binding × Ty) := []

def Uses.add (u : Uses) (name : String) (binding : Binding) (ty : Ty) : Uses :=
  match binding with
  | .placeholder => if u.names.contains name then u else { u with names := u.names ++ [name] }
  | .local _ | .global _ =>
    if u.captured.any fun c => c.1 == name && c.2.1 == binding then u
    else { u with captured := u.captured ++ [(name, binding, ty)] }
  | _ => u

mutual

def uses (u : Uses) : Expr → Uses
  | .ident i name binding => u.add name binding i.ty
  | .unary _ _ e | .sizeofExpr _ e | .cast _ _ e | .member _ e _ _ => uses u e
  | .binary _ _ a b | .assign _ _ a b | .index _ a b | .comma _ a b => uses (uses u a) b
  | .conditional _ c a b => uses (uses (uses u c) a) b
  | .call _ callee target args => usesOfList (u.add callee target .void) args
  | .int .. | .float .. | .char .. | .str .. | .bool .. | .null _ | .sizeofType .. | .invalid _ => u

def usesOfList (u : Uses) : List Expr → Uses
  | [] => u
  | e :: es => usesOfList (uses u e) es

end

/-! ## Templates -/

/-- The object of type `ty` at an address. -/
def accessText (types : TypeTable) (ty : Ty) (address : String) : String :=
  match ty with
  | .array elem _ => s!"(({types.name (.pointer elem)}){address})"
  | ty => s!"(*({types.name (.pointer ty)}){address})"

/-- What a template holds in the place of a variable. -/
def captureText (types : TypeTable) (i : Info) (_ : String) (binding : Binding) : Option String :=
  if binding.isVariable then some (accessText types i.ty "@") else none

def template (types : TypeTable) (e : Expr) : String :=
  Printer.expr { types, ident := captureText types } e

/-- The call that evaluates a template at run time. -/
def evalCall (span : Span) (handleTy : Ty) (template : String)
    (captured : List (String × Binding × Ty)) : Expr :=
  let handle := Expr.ident ⟨span, handleTy⟩ sessionGlobal (.global sessionGlobal)
  let text := Expr.str ⟨span, .array .char (some (template.utf8ByteSize + 1))⟩ template
  let addresses := captured.map fun (name, binding, ty) =>
    Expr.unary ⟨span, .pointer ty⟩ .addrOf (.ident ⟨span, ty⟩ name binding)
  .call ⟨span, .dynamic⟩ (Builtin.name .eval) (.builtin .eval) (handle :: text :: addresses)

/-! ## Replacing -/

/-- Where an expression stands. -/
structure Context where
  analysis : Analysis
  stmt : Option Nat := none
  ret : Ty := .void

structure State where
  deferred : DeferredState
  errors : Array AnalysisError := #[]

abbrev Transform := StateM State

def report (problem : Problem) (span : Span) : Transform Unit :=
  modify fun s => { s with errors := s.errors.push ⟨problem, span⟩ }

def record (d : Deferral) : Transform Unit :=
  modify fun s =>
    let old := s.deferred
    let dirty := match d.stmt with
      | some id => if old.dirty.contains id then old.dirty else id :: old.dirty
      | none => old.dirty
    { s with deferred := { old with records := old.records.push d, dirty } }

/-- Replaces an expression of dependent type. -/
def replace (c : Context) (expected : Option Ty) (e : Expr) : Transform Expr := do
  let u := uses {} e
  let types := c.analysis.types
  match (c.analysis.globalType? sessionGlobal).filter fun _ => c.analysis.hasHooks with
  | none =>
    report (.undeclared (u.names.headD "")) e.span
    return e
  | some handleTy =>
    match expected.filter fun ty => !ty.isScalar && !ty.isVoid with
    | some ty =>
      report (.unknownTo (types.name ty)) e.span
      return e
    | none =>
      let text := template types e
      record { names := u.names, stmt := c.stmt, captured := u.captured.map fun (n, _, ty) => (n, ty)
               template := text, expected, span := e.span }
      let call := evalCall e.span handleTy text u.captured
      match expected with
      | some ty => return .cast ⟨e.span, ty⟩ ty call
      | none => return call

/-- The parameter types of what is called. -/
def paramTypes (a : Analysis) (callee : String) : Binding → List Ty
  | .function => ((a.signature? callee).map (·.params)).getD []
  | .builtin b => (b.signature?.map (·.params)).getD []
  | _ => []

mutual

/-- Replaces the dependent parts of an expression. `expected` is the type that the context asks
for. -/
def expr (c : Context) (expected : Option Ty) (e : Expr) : Transform Expr :=
  if e.ty.isDependent then replace c expected e else
  match e with
  | .assign i op a b => do
    let target := a.ty
    let a ← expr c none a
    return .assign i op a (← expr c (some target) b)
  | .cast i target e => return .cast i target (← expr c (some target) e)
  | .call i callee target args =>
    return .call i callee target (← exprs c (paramTypes c.analysis callee target) args)
  | .unary i op e => return .unary i op (← expr c none e)
  | .sizeofExpr i e => return .sizeofExpr i (← expr c none e)
  | .member i e field arrow => return .member i (← expr c none e) field arrow
  | .binary i op a b => do
    let a ← expr c none a
    return .binary i op a (← expr c none b)
  | .index i a b => do
    let a ← expr c none a
    return .index i a (← expr c none b)
  | .comma i a b => do
    let a ← expr c none a
    return .comma i a (← expr c none b)
  | .conditional i x a b => do
    let x ← expr c (some .bool) x
    let a ← expr c none a
    return .conditional i x a (← expr c none b)
  | e => return e

def exprs (c : Context) (expected : List Ty) : List Expr → Transform (List Expr)
  | [] => return []
  | e :: es => do
    let e ← expr c expected.head? e
    return e :: (← exprs c expected.tail es)

end

/-- Replaces in expressions that all stand where `ty` is asked for. -/
def exprsOf (c : Context) (ty : Ty) : List Expr → Transform (List Expr)
  | [] => return []
  | e :: es => do
    let e ← expr c (some ty) e
    return e :: (← exprsOf c ty es)

mutual

def initializer (c : Context) (ty : Ty) : Initializer → Transform Initializer
  | .expr e => return .expr (← expr c (some ty) e)
  | .list items span => do
    match ty with
    | .array elem _ => return .list (← elements c elem items) span
    | .record id =>
      let fields := ((c.analysis.types.record? id).map (·.fields)).getD []
      return .list (← members c fields items) span
    | ty => return .list (← elements c ty items) span
  | .construct args span => return .construct (← exprsOf c ty args) span

def elements (c : Context) (elem : Ty) : List Initializer → Transform (List Initializer)
  | [] => return []
  | i :: is => do
    let i ← initializer c elem i
    return i :: (← elements c elem is)

/-- Values beyond the last field stay as they are. -/
def members (c : Context) (fields : List Field) : List Initializer → Transform (List Initializer)
  | [] => return []
  | i :: is => do
    match fields with
    | [] => return i :: is
    | f :: fields =>
      let i ← initializer c f.ty i
      return i :: (← members c fields is)

end

def decl (c : Context) (d : Decl) : Transform Decl := do
  match d.kind with
  | .var v =>
    match v.init with
    | some init => return { d with kind := .var { v with init := some (← initializer c v.ty init) } }
    | none => return d
  | _ => return d

def declGroup (c : Context) (g : DeclGroup) : Transform DeclGroup :=
  return { g with decls := ← g.decls.mapM (decl c) }

def expr? (c : Context) (expected : Option Ty) : Option Expr → Transform (Option Expr)
  | none => return none
  | some e => some <$> expr c expected e

def forInit (c : Context) : ForInit Expr DeclGroup → Transform (ForInit Expr DeclGroup)
  | .none => return .none
  | .decl node g => return .decl node (← declGroup c g)
  | .expr node e => return .expr node (← expr c none e)

mutual

def stmt (c : Context) : Stmt → Transform Stmt
  | .null node => return .null node
  | .expr node e => return .expr node (← expr c none e)
  | .decl node g => return .decl node (← declGroup c g)
  | .compound node ss => return .compound node (← stmts c ss)
  | .ifThen node x yes => do
    let x ← expr c (some .bool) x
    return .ifThen node x (← stmt c yes)
  | .ifElse node x yes no => do
    let x ← expr c (some .bool) x
    let yes ← stmt c yes
    return .ifElse node x yes (← stmt c no)
  | .while node x body => do
    let x ← expr c (some .bool) x
    return .while node x (← stmt c body)
  | .doWhile node body x => do
    let x ← expr c (some .bool) x
    return .doWhile node (← stmt c body) x
  | .for node init x step body => do
    let init ← forInit c init
    let x ← expr? c (some .bool) x
    let step ← expr? c none step
    return .for node init x step (← stmt c body)
  | .break node => return .break node
  | .continue node => return .continue node
  | .return node value => return .return node (← expr? c (some c.ret) value)

def stmts (c : Context) : List Stmt → Transform (List Stmt)
  | [] => return []
  | s :: ss => do
    let s ← stmt c s
    return s :: (← stmts c ss)

end

/-- The statements of a body; each is a context of its own. -/
def bodyStmts (a : Analysis) (ret : Ty) (ss : List Stmt) : Transform (List Stmt) :=
  ss.mapM fun s => stmt { analysis := a, stmt := some s.node.id, ret } s

def topLevel (a : Analysis) (t : TopLevel) : Transform TopLevel := do
  let group ← declGroup { analysis := a } t.group
  match t.function?, t.statements? with
  | some f, some ss => return { t with group }.withStatements (← bodyStmts a f.ret ss)
  | _, _ => return { t with group }

end Deferred

/-- Replaces the dependent expressions of a group, or says why one cannot be replaced. -/
def DeferredState.transform (s : DeferredState) (a : Analysis) (t : TopLevel) :
    Except (List AnalysisError) TopLevel × DeferredState :=
  let (t, state) := (Deferred.topLevel a t).run { deferred := s }
  (if state.errors.isEmpty then .ok t else .error state.errors.toList, state.deferred)

end IncrementalC
