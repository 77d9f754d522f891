import IncrementalC.Deferred.Transform

/-!
# What a tree holds

* `Expr.parts`, `Initializer.exprs`, `Stmt.exprs`, `TopLevel.exprs`: every expression of a tree, operands
  of expressions included. Array bounds are no part of a typed tree.
* `Initializer.nested`, `Statement.nested`: a node together with everything of its kind inside.
* `Expr.Definite`: nothing about the expression itself hangs on an unknown name.
-/
namespace IncrementalC
set_option autoImplicit false
open Typed

/-! ## Statements -/

section Statements

variable {ε γ α : Type}

/-- What stands in the head of a loop. -/
def ForInit.collect (f : ε → List α) (g : γ → List α) : ForInit ε γ → List α
  | .none => []
  | .decl _ d => g d
  | .expr _ e => f e

mutual

/-- What the expressions and the declarations of a statement hold, in the order of the text. -/
def Statement.collect (f : ε → List α) (g : γ → List α) : Statement ε γ → List α
  | .null _ | .break _ | .continue _ => []
  | .expr _ e => f e
  | .decl _ d => g d
  | .compound _ ss => Statement.collectAll f g ss
  | .ifThen _ c yes => f c ++ yes.collect f g
  | .ifElse _ c yes no => f c ++ (yes.collect f g ++ no.collect f g)
  | .while _ c body => f c ++ body.collect f g
  | .doWhile _ body c => body.collect f g ++ f c
  | .for _ init c step body =>
    init.collect f g ++ (c.toList.flatMap f ++ (step.toList.flatMap f ++ body.collect f g))
  | .return _ value => value.toList.flatMap f

def Statement.collectAll (f : ε → List α) (g : γ → List α) : List (Statement ε γ) → List α
  | [] => []
  | s :: ss => s.collect f g ++ Statement.collectAll f g ss

end

mutual

/-- The statements inside a statement. -/
def Statement.inner : Statement ε γ → List (Statement ε γ)
  | .compound _ ss => Statement.nestedAll ss
  | .ifThen _ _ yes => yes :: yes.inner
  | .ifElse _ _ yes no => (yes :: yes.inner) ++ (no :: no.inner)
  | .while _ _ body | .doWhile _ body _ | .for _ _ _ _ body => body :: body.inner
  | _ => []

def Statement.nestedAll : List (Statement ε γ) → List (Statement ε γ)
  | [] => []
  | s :: ss => (s :: s.inner) ++ Statement.nestedAll ss

end

/-- A statement with the statements inside of it. -/
def Statement.nested (s : Statement ε γ) : List (Statement ε γ) := s :: s.inner

end Statements

namespace Typed

/-! ## Expressions -/

/-- What an identifier or a called name refers to. -/
def Expr.binding? : Expr → Option Binding
  | .ident _ _ binding => some binding
  | .call _ _ target _ => some target
  | _ => none

/-- Neither the type of the expression nor what it refers to hangs on an unknown name. -/
structure Expr.Definite (e : Expr) : Prop where
  ty : e.ty.isDependent = false
  binding : e.binding? ≠ some .placeholder

mutual

/-- An expression with all expressions inside of it. -/
def Expr.parts : Expr → List Expr
  | .unary i op x => .unary i op x :: x.parts
  | .sizeofExpr i x => .sizeofExpr i x :: x.parts
  | .cast i target x => .cast i target x :: x.parts
  | .member i x field arrow => .member i x field arrow :: x.parts
  | .binary i op x y => .binary i op x y :: (x.parts ++ y.parts)
  | .assign i op x y => .assign i op x y :: (x.parts ++ y.parts)
  | .index i x y => .index i x y :: (x.parts ++ y.parts)
  | .comma i x y => .comma i x y :: (x.parts ++ y.parts)
  | .conditional i c x y => .conditional i c x y :: (c.parts ++ (x.parts ++ y.parts))
  | .call i callee target args => .call i callee target args :: Expr.partsOfList args
  | e => [e]

def Expr.partsOfList : List Expr → List Expr
  | [] => []
  | e :: es => e.parts ++ Expr.partsOfList es

end

theorem Expr.self_mem_parts (e : Expr) : e ∈ e.parts := by
  cases e <;> exact List.mem_cons_self

/-! ## Initial values -/

mutual

def Initializer.exprs : Initializer → List Expr
  | .expr e => e.parts
  | .list items _ => Initializer.exprsOfItems items
  | .construct args _ => Expr.partsOfList args

def Initializer.exprsOfItems : List Initializer → List Expr
  | [] => []
  | i :: is => Initializer.exprs i ++ Initializer.exprsOfItems is

end

mutual

/-- The initial values inside an initial value. -/
def Initializer.inner : Initializer → List Initializer
  | .list items _ => Initializer.nestedAll items
  | .expr _ | .construct .. => []

def Initializer.nestedAll : List Initializer → List Initializer
  | [] => []
  | i :: is => (i :: Initializer.inner i) ++ Initializer.nestedAll is

end

/-- An initial value with the initial values inside of it. -/
def Initializer.nested (i : Initializer) : List Initializer := i :: i.inner

/-! ## Declarations and groups -/

def Decl.initializer? (d : Decl) : Option Initializer :=
  match d.kind with
  | .var v => v.init
  | _ => none

def DeclGroup.exprs (g : DeclGroup) : List Expr :=
  g.decls.flatMap fun d => d.initializer?.toList.flatMap Initializer.exprs

def DeclGroup.initializers (g : DeclGroup) : List Initializer :=
  g.decls.flatMap fun d => d.initializer?.toList.flatMap Initializer.nested

def Stmt.exprs (s : Stmt) : List Expr := s.collect Expr.parts DeclGroup.exprs

def Stmt.initializers (s : Stmt) : List Initializer := s.collect (fun _ => []) DeclGroup.initializers

namespace TopLevel

/-- Every expression in the variables and in the function body of a group. -/
def exprs (t : TopLevel) : List Expr := t.group.exprs ++ t.body.toList.flatMap Stmt.exprs

/-- Every initial value of a group, those inside of others included. -/
def initializers (t : TopLevel) : List Initializer :=
  t.group.initializers ++ t.body.toList.flatMap Stmt.initializers

/-- Every statement of a group. -/
def allStatements (t : TopLevel) : List Stmt := t.body.toList.flatMap Statement.nested

end TopLevel

end Typed

end IncrementalC
