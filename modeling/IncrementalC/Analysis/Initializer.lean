import IncrementalC.Analysis.Expression

/-!
# Analysing initial values

`initializer ty init` checks an initial value against the type of its object and returns the type,
with the length of the array if the value gives it, and the analysed value.

After a complaint about the shape of a value its parts are not analysed; `unanalysed` keeps their
shape, with expressions that are no constants.
-/
namespace IncrementalC.Analyze
set_option autoImplicit false
open Typed (Expr Initializer)

def unanalysedExpr : Syntax.Expr → Expr
  | .str span s => .str ⟨span, .void⟩ s
  | e => .invalid ⟨e.span, .void⟩

mutual

def unanalysed : Syntax.Initializer → Initializer
  | .expr e => .expr (unanalysedExpr e)
  | .list items span => .list (unanalysedList items) span
  | .construct args span => .construct (args.map unanalysedExpr) span

def unanalysedList : List Syntax.Initializer → List Initializer
  | [] => []
  | i :: is => unanalysed i :: unanalysedList is

end

/-- A string literal for an array of characters, which may take its length from it. -/
def stringFor (elem : Ty) (length : Option Nat) (s : String) (span : Span) : Analyze Ty := do
  match length with
  | none => return .array elem (some (s.utf8ByteSize + 1))
  | some n =>
    if n < s.utf8ByteSize then report .stringTooLong span
    return .array elem length

mutual

def initializer (ty : Ty) : Syntax.Initializer → Analyze (Ty × Initializer)
  | .expr e => do
    match ty, e with
    | .array elem length, .str span s =>
      if elem.isChar then
        let ty ← stringFor elem length s span
        return (ty, .expr (← expr e))
      else
        report .arrayNeedsList span
        return (ty, .expr (unanalysedExpr e))
    | .array .., e =>
      report .arrayNeedsList e.span
      return (ty, .expr (unanalysedExpr e))
    | ty, e =>
      let e ← expr e
      checkAssignable ty e .initializing
      return (ty, .expr e)
  | .list items span => do
    let refuse (problem : Problem) : Analyze (Ty × Initializer) := do
      report problem span
      return (ty, .list (unanalysedList items) span)
    match ty with
    | .array elem length =>
      if length.any (· < items.length) then refuse (.excessElements "array")
      else
        let values ← elements elem items
        return (.array elem (length.getD items.length), .list values span)
    | .record id =>
      match ((← get).types.record? id).filter (·.complete) with
      | none => refuse (.incompleteVariable (← typeName ty))
      | some r =>
        if r.fields.length < items.length then refuse (.excessElements "struct")
        else return (ty, .list (← members r.fields items) span)
    | ty =>
      match items with
      | [] => return (ty, .list [] span)
      | [item] =>
        let (ty, value) ← initializer ty item
        return (ty, .list [value] span)
      | _ => refuse (.excessElements "scalar")
  | .construct args span => do
    match args with
    | [] => return (ty, .construct [] span)
    | [e] =>
      if ty.isAggregate then
        report (.noConstructor (← typeName ty)) span
        return (ty, .construct [unanalysedExpr e] span)
      else
        let e ← expr e
        checkAssignable ty e .initializing
        return (ty, .construct [e] span)
    | args =>
      if ty.isAggregate then report (.noConstructor (← typeName ty)) span
      else report (.excessElements "scalar") span
      return (ty, .construct (args.map unanalysedExpr) span)

/-- Values for the elements of an array. -/
def elements (elem : Ty) : List Syntax.Initializer → Analyze (List Initializer)
  | [] => return []
  | item :: items => do
    let (_, value) ← initializer elem item
    return value :: (← elements elem items)

/-- Values for the first fields of a record. -/
def members (fields : List Field) : List Syntax.Initializer → Analyze (List Initializer)
  | [] => return []
  | item :: items => do
    match fields with
    | [] => return []
    | f :: fields =>
      let (_, value) ← initializer f.ty item
      return value :: (← members fields items)

end

end IncrementalC.Analyze
