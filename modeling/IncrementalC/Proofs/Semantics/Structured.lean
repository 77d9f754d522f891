import IncrementalC.Lowering.Unit
import IncrementalC.Proofs.Machine.Fuel

/-!
# Structured meaning of statements

Statements are carried out along their structure. To evaluate an expression means to run the code of
the expression in its place; what comes next is decided by the statement around it and not by
jumps. Whatever moves control from one expression to another costs the instructions that the machine
runs for it, so that the limit of instructions is reached in the same place.

* `PlacedStmt`: a statement whose expressions and declarations come with the place of their code.
* `Event`: what can be observed: expressions are evaluated, and conditions decide.
* `Structured.perform`: carries out a statement.
* `Structured.body`: carries out the body of a function and returns from it.
-/
namespace IncrementalC
set_option autoImplicit false
open Typed (Expr DeclGroup)

/-- An expression and the place of its code. -/
abbrev PlacedExpr := Expr × Segment

/-- Declarations and the places of the code of their initial values. -/
abbrev PlacedDecls := DeclGroup × List Segment

abbrev PlacedStmt := Statement PlacedExpr PlacedDecls

inductive Event where
  | evaluated (code : Segment)
  | decided (yes : Bool)
deriving DecidableEq, Repr

/-- How a statement ends. -/
inductive Completion where
  /-- The next statement follows. -/
  | normal
  | leaves
  | again
  | returns (v : Option Value)

namespace Exec

variable {η : Type}

/-- The world with one instruction more counted. -/
def counted (w : World η) : World η :=
  ⟨{ w.machine with instructionCount := w.machine.instructionCount + 1 }, w.host⟩

/-- Counts an instruction, unless the limit is reached. -/
def tick : Exec η Unit := fun w =>
  if w.machine.maxInstructions < w.machine.instructionCount + 1 then
    .error { fault := .instructionLimit w.machine.maxInstructions } (counted w)
  else .ok () (counted w)

end Exec

/-! ## Trees -/

namespace Statement

variable {ε γ ε' γ' : Type}

section Map

variable (f : ε → ε') (g : γ → γ')

def mapInit : ForInit ε γ → ForInit ε' γ'
  | .none => .none
  | .decl n d => .decl n (g d)
  | .expr n e => .expr n (f e)

mutual

def map : Statement ε γ → Statement ε' γ'
  | .null n => .null n
  | .expr n e => .expr n (f e)
  | .decl n d => .decl n (g d)
  | .compound n ss => .compound n (mapAll ss)
  | .ifThen n c yes => .ifThen n (f c) (map yes)
  | .ifElse n c yes no => .ifElse n (f c) (map yes) (map no)
  | .while n c body => .while n (f c) (map body)
  | .doWhile n body c => .doWhile n (map body) (f c)
  | .for n init c step body => .for n (mapInit f g init) (c.map f) (step.map f) (map body)
  | .break n => .break n
  | .continue n => .continue n
  | .return n v => .return n (v.map f)

def mapAll : List (Statement ε γ) → List (Statement ε' γ')
  | [] => []
  | s :: ss => map s :: mapAll ss

end

end Map

section Each

variable (P R : ε → Prop) (Q : γ → Prop)

def EachInit : ForInit ε γ → Prop
  | .none => True
  | .decl _ d => Q d
  | .expr _ e => P e

mutual

/-- `P` holds of all expressions but the returned ones, `R` of those, and `Q` of all declarations. -/
def Each : Statement ε γ → Prop
  | .null _ | .break _ | .continue _ => True
  | .expr _ e => P e
  | .decl _ d => Q d
  | .compound _ ss => EachOf ss
  | .ifThen _ c yes => P c ∧ Each yes
  | .ifElse _ c yes no => P c ∧ Each yes ∧ Each no
  | .while _ c body => P c ∧ Each body
  | .doWhile _ body c => Each body ∧ P c
  | .for _ init c step body =>
    EachInit P Q init ∧ (∀ e, c = some e → P e) ∧ (∀ e, step = some e → P e) ∧ Each body
  | .return _ v => ∀ e, v = some e → R e

def EachOf : List (Statement ε γ) → Prop
  | [] => True
  | s :: ss => Each s ∧ EachOf ss

end

section Decidable

variable [DecidablePred P] [DecidablePred R] [DecidablePred Q]

instance decidableGiven (v : Option ε) : Decidable (∀ e, v = some e → P e) :=
  match v with
  | none => isTrue nofun
  | some e => decidable_of_iff (P e) ⟨fun h _ given => Option.some.inj given ▸ h, fun h => h e rfl⟩

instance decidableEachInit : (init : ForInit ε γ) → Decidable (EachInit P Q init)
  | .none => isTrue trivial
  | .decl _ d => inferInstanceAs (Decidable (Q d))
  | .expr _ e => inferInstanceAs (Decidable (P e))

mutual

instance decidableEach : (s : Statement ε γ) → Decidable (s.Each P R Q)
  | .null _ | .break _ | .continue _ => isTrue trivial
  | .expr _ e => inferInstanceAs (Decidable (P e))
  | .decl _ d => inferInstanceAs (Decidable (Q d))
  | .compound _ ss => decidableEachOf ss
  | .ifThen _ c yes => @instDecidableAnd (P c) _ _ (decidableEach yes)
  | .ifElse _ c yes no =>
    @instDecidableAnd (P c) _ _ (@instDecidableAnd _ _ (decidableEach yes) (decidableEach no))
  | .while _ c body => @instDecidableAnd (P c) _ _ (decidableEach body)
  | .doWhile _ body c => @instDecidableAnd _ (P c) (decidableEach body) _
  | .for _ init c step body =>
    @instDecidableAnd (EachInit P Q init) _ _ <| @instDecidableAnd _ _ (decidableGiven P c) <|
      @instDecidableAnd _ _ (decidableGiven P step) (decidableEach body)
  | .return _ v => decidableGiven R v

instance decidableEachOf : (ss : List (Statement ε γ)) → Decidable (EachOf P R Q ss)
  | [] => isTrue trivial
  | s :: ss => @instDecidableAnd _ _ (decidableEach s) (decidableEachOf ss)

end

end Decidable

end Each

section EachMap

variable {f : ε → ε'} {g : γ → γ'} {P R : ε' → Prop} {Q : γ' → Prop}

mutual

/-- What holds of the parts of the tree that a tree is taken to. -/
theorem each_of_map : ∀ {s : Statement ε γ}, (s.map f g).Each P R Q →
    s.Each (fun e => P (f e)) (fun e => R (f e)) fun d => Q (g d)
  | .null _, _ | .break _, _ | .continue _, _ => trivial
  | .expr _ _, h | .decl _ _, h => h
  | .compound _ ss, h => eachOf_of_map (t := ss) h
  | .ifThen _ _ yes, h => ⟨h.1, each_of_map (s := yes) h.2⟩
  | .ifElse _ _ yes no, h => ⟨h.1, each_of_map (s := yes) h.2.1, each_of_map (s := no) h.2.2⟩
  | .while _ _ body, h => ⟨h.1, each_of_map (s := body) h.2⟩
  | .doWhile _ body _, h => ⟨each_of_map (s := body) h.1, h.2⟩
  | .for _ init _ _ body, h => by
    refine ⟨?_, fun e given => h.2.1 _ (given ▸ rfl), fun e given => h.2.2.1 _ (given ▸ rfl),
      each_of_map (s := body) h.2.2.2⟩
    cases init with
    | none => trivial
    | decl n d => exact h.1
    | expr n e => exact h.1
  | .return _ v, h => fun e given => h _ (given ▸ rfl)

theorem eachOf_of_map : ∀ {t : List (Statement ε γ)}, EachOf P R Q (mapAll f g t) →
    EachOf (fun e => P (f e)) (fun e => R (f e)) (fun d => Q (g d)) t
  | [], _ => trivial
  | s :: ss, h => ⟨each_of_map (s := s) h.1, eachOf_of_map (t := ss) h.2⟩

end

end EachMap

end Statement

/-! ## Observed computations -/

/-- A world and what happened so far, the last event first. -/
structure Recorded (η : Type) where
  world : World η
  events : List Event

abbrev Structured (η : Type) := EStateM MachineError (Recorded η)

namespace Structured

variable {η : Type}

/-- A step that nobody observes. -/
def silent {α : Type} (m : Exec η α) : Structured η α := fun h =>
  match m h.world with
  | .ok x w => .ok x { h with world := w }
  | .error e w => .error e { h with world := w }

def note (e : Event) : Structured η Unit := modify fun h => { h with events := e :: h.events }

/-! ## Expressions -/

section Perform

variable (evaluate : List Value → Exec η Value) (depth : Nat)

/-- Runs the code of an expression of the function at depth `depth`. -/
def run (c : Segment) : Structured η Unit := do
  note (.evaluated c)
  silent (Exec.evaluateCode evaluate depth c)

def runAll : List Segment → Structured η Unit
  | [] => return
  | c :: cs => do
    run evaluate depth c
    runAll cs

/-- Evaluates an expression for its effects. -/
def effect (e : PlacedExpr) : Structured η Unit := do
  run evaluate depth e.2
  if !e.1.ty.isVoid then
    silent do
      Exec.tick
      let _ ← Exec.pop

/-- Decides by the value on top of the stack. -/
def test : Structured η Bool := do
  let v ← silent do
    Exec.tick
    Exec.pop
  note (.decided v.isTruthy)
  return v.isTruthy

def condition (e : PlacedExpr) : Structured η Bool := do
  run evaluate depth e.2
  test

/-- Converts the value on top of the stack, if its kind changes. -/
def convertTop (source target : Ty) : Structured η Unit := do
  match Lowering.kindOf? source, Lowering.kindOf? target with
  | some s, some t =>
    if s ≠ t then
      silent do
        Exec.tick
        Exec.push ((← Exec.pop).convert s t)
  | _, _ => return

/-! ## Statements -/

/-- Goes on until a round ends the loop, for at most `fuel` rounds. -/
def rounds (round : Structured η (Option Completion)) : Nat → Structured η Completion
  | 0 => silent do Exec.fail (.instructionLimit (← Exec.machine).maxInstructions)
  | fuel + 1 => do
    match ← round with
    | some o => return o
    | none => rounds round fuel

/-- Each round counts an instruction, so the limit of instructions ends the loop at last. -/
def forever (round : Structured η (Option Completion)) : Structured η Completion := do
  rounds round ((← silent Exec.machine).maxInstructions + 1)

variable (ret : Ty)

/-- What a loop makes of the end of its body. -/
def afterBody (next again : Structured η (Option Completion)) : Completion → Structured η (Option Completion)
  | .normal => next
  | .again => again
  | .leaves => return some .normal
  | .returns v => return some (.returns v)

mutual

/-- Carries out a statement of a function that returns `ret`. -/
def perform : PlacedStmt → Structured η Completion
  | .null _ => return .normal
  | .expr _ e => do
    effect evaluate depth e
    return .normal
  | .decl _ d => do
    runAll evaluate depth d.2
    return .normal
  | .compound _ ss => performAll ss
  | .ifThen _ c yes => do
    if ← condition evaluate depth c then perform yes else return .normal
  | .ifElse _ c yes no => do
    if ← condition evaluate depth c then
      match ← perform yes with
      | .normal => do
        silent Exec.tick
        return .normal
      | o => return o
    else perform no
  | .while _ c body =>
    let round : Structured η (Option Completion) := do
      if ← condition evaluate depth c then
        afterBody (do silent Exec.tick; return none) (return none) (← perform body)
      else return some .normal
    forever round
  | .doWhile _ body c =>
    let test : Structured η (Option Completion) := do
      if ← condition evaluate depth c then return none else return some .normal
    let round : Structured η (Option Completion) := do afterBody test test (← perform body)
    forever round
  | .for _ init c step body => do
    match init with
    | .none => pure ()
    | .decl _ d => runAll evaluate depth d.2
    | .expr _ e => effect evaluate depth e
    let next : Structured η (Option Completion) := do
      if let some e := step then effect evaluate depth e
      silent Exec.tick
      return none
    let round : Structured η (Option Completion) := do
      let goes ← match c with
        | some e => condition evaluate depth e
        | none => pure true
      if goes then afterBody next next (← perform body) else return some .normal
    forever round
  | .break _ => do
    silent Exec.tick
    return .leaves
  | .continue _ => do
    silent Exec.tick
    return .again
  | .return _ (some e) => do
    run evaluate depth e.2
    if e.1.ty.isVoid then
      silent Exec.tick
      return .returns none
    convertTop e.1.ty ret
    return .returns (some (← silent do
      Exec.tick
      Exec.pop))
  | .return _ none => do
    silent Exec.tick
    return .returns none

def performAll : List PlacedStmt → Structured η Completion
  | [] => return .normal
  | s :: ss => do
    match ← perform s with
    | .normal => performAll ss
    | o => return o

end

/-! ## Functions -/

/-- The value of a function whose body has ended. Where none is given it is zero. -/
def result (kind : Option Scalar) : Completion → Structured η (Option Value)
  | .returns v => return v
  | _ =>
    match kind with
    | none => do
      silent Exec.tick
      return none
    | some kind => do
      silent do
        Exec.tick
        Exec.push (.int 0)
      silent do
        Exec.tick
        Exec.push ((← Exec.pop).convert .i64 kind)
      return some (← silent do
        Exec.tick
        Exec.pop)

/-- Leaves the innermost active function with a value for the function that called it. -/
def leave (kind : Option Scalar) (v : Option Value) : Exec η Unit := do
  Exec.modifyMachine Machine.leave
  if let some v := v then
    Exec.push (match kind with
      | some kind => v.coerce kind
      | none => v)

/-- Carries out the body of a function that returns `ret`, and returns from it. -/
def body (kind : Option Scalar) (s : PlacedStmt) : Structured η Unit := do
  let v ← result kind (← perform evaluate depth ret s)
  silent (leave kind v)

end Perform

end Structured
end IncrementalC
