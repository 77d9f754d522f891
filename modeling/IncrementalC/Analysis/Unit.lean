import IncrementalC.Analysis.Declaration

/-!
# Analysing statements and top-level groups

`analyzeTopLevel` analyses one group. Errors are collected over the whole group, body included.
-/
namespace IncrementalC
set_option autoImplicit false
open Typed (Expr Stmt)

namespace Analyze

/-! ## Statements -/

/-- An expression that decides where to go on. -/
def condition (e : Syntax.Expr) : Analyze Expr := do
  let e ← expr e
  if !e.ty.isScalar && !e.ty.isDependent then
    report (.conditionType (← typeName e.ty)) e.span
  return e

def condition? : Option Syntax.Expr → Analyze (Option Expr)
  | none => return none
  | some e => some <$> condition e

def expr? : Option Syntax.Expr → Analyze (Option Expr)
  | none => return none
  | some e => some <$> expr e

def returned (f : FunctionContext) (value : Option Syntax.Expr) (span : Span) :
    Analyze (Option Expr) := do
  match value with
  | none =>
    if !f.ret.isVoid then report (.missingResult f.name) span
    return none
  | some e =>
    let e ← expr e
    if !f.ret.isVoid then checkAssignable f.ret e .returning
    else if !e.ty.isVoid then report (.valueFromVoid f.name) e.span
    return some e

def forInit : ForInit Syntax.Expr Syntax.DeclGroup → Analyze (ForInit Expr Typed.DeclGroup)
  | .none => return .none
  | .decl node g => return .decl node (← declGroup g)
  | .expr node e => return .expr node (← expr e)

mutual

/-- A statement of the function `f`; jumps are allowed if it is `inLoop`. -/
def stmt (f : FunctionContext) (inLoop : Bool) : Syntax.Stmt → Analyze Stmt
  | .null node => return .null node
  | .expr node e => return .expr node (← expr e)
  | .decl node g => return .decl node (← declGroup g)
  | .compound node ss => return .compound node (← inScope {} (stmts f inLoop ss))
  | .ifThen node c yes => do
    let c ← condition c
    return .ifThen node c (← stmt f inLoop yes)
  | .ifElse node c yes no => do
    let c ← condition c
    let yes ← stmt f inLoop yes
    return .ifElse node c yes (← stmt f inLoop no)
  | .while node c body => do
    let c ← condition c
    return .while node c (← stmt f true body)
  | .doWhile node body c => do
    let body ← stmt f true body
    return .doWhile node body (← condition c)
  | .for node init c step body => inScope {} do
    let init ← forInit init
    let c ← condition? c
    let step ← expr? step
    return .for node init c step (← stmt f true body)
  | .break node => do
    if !inLoop then report (.jumpOutsideLoop "break") node.span
    return .break node
  | .continue node => do
    if !inLoop then report (.jumpOutsideLoop "continue") node.span
    return .continue node
  | .return node value => return .return node (← returned f value node.span)

def stmts (f : FunctionContext) (inLoop : Bool) : List Syntax.Stmt → Analyze (List Stmt)
  | [] => return []
  | s :: ss => do
    let s ← stmt f inLoop s
    return s :: (← stmts f inLoop ss)

end

/-! ## Function definitions -/

/-- The scope that the named parameters of a function make up. -/
def paramScope (ps : List Typed.Param) : NameMap LocalSymbol :=
  ps.foldl (fun scope p => match p.name with
    | some name => scope.insert name (.var p.ty (.local p.slot))
    | none => scope) {}

/-- Analyses the body of a function. -/
def functionBody (f : Typed.FunctionDecl) (body : Syntax.Stmt) :
    Analyze (Typed.FunctionDecl × Stmt) := do
  let context : FunctionContext := { name := f.name, ret := f.ret, nextSlot := f.params.length }
  modify fun a => { a with function := some context }
  let body ← inScope (paramScope f.params) (stmt context false body)
  let frameSlots := ((← get).function.map (·.nextSlot)).getD 0
  modify fun a => { a with function := none }
  return ({ f with frameSlots }, body)

/-- A function with its body, which is left out after a complaint about the head. -/
def functionDefinition (spec : Syntax.DeclSpec) (d : Syntax.Decl) (body : Syntax.Stmt) :
    Analyze (Typed.Decl × Option Stmt) := do
  match d.kind with
  | .function name declarator externC =>
    let (f, entered) ← functionHead spec name declarator externC true
    if !entered then return (⟨.function f, d.span⟩, none)
    else if !f.ret.isVoid && !(← get).types.isComplete f.ret then
      report (.incompleteResult (← typeName f.ret)) d.span
      return (⟨.function f, d.span⟩, none)
    else
      let (f, body) ← functionBody f body
      return (⟨.function f, d.span⟩, some body)
  | _ => return (⟨← declKind spec d, d.span⟩, none)

/-- A top-level group; a body belongs to the last declaration. -/
def topLevel (t : Syntax.TopLevel) : Analyze Typed.TopLevel := do
  let g := t.group
  match t.body, g.decls.getLast? with
  | some body, some last =>
    let before ← decls g.spec g.decls.dropLast
    let (d, body) ← functionDefinition g.spec last body
    return { group := { decls := before ++ [d], span := g.span }, body }
  | _, _ => return { group := ← declGroup g }

end Analyze

/-- Analyses a top-level group, or finds what is wrong with it. -/
def Analysis.analyze (a : Analysis) (t : Syntax.TopLevel) :
    Except (List AnalysisError) Typed.TopLevel × Analysis :=
  let (result, a) := (Analyze.topLevel t).run { a with errors := #[] }
  let errors := a.errors.toList
  let a := { a with errors := #[], scopes := [], function := none }
  (if errors.isEmpty then .ok result else .error errors, a)

end IncrementalC
