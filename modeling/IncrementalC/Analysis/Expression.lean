import IncrementalC.Analysis.Typing
import IncrementalC.Syntax.Tree

/-!
# Analysing expressions and type names

`expr` binds names and works out types, `declaredType` turns a declarator into a type. They depend
on each other: casts hold declarators, and array declarators hold expressions.
-/
namespace IncrementalC.Analyze
set_option autoImplicit false
open Typed (Expr Binding)

/-- The type that specifiers name. A record that nobody declared is declared here. -/
def baseType (spec : Syntax.DeclSpec) : Analyze Ty := do
  match spec.base with
  | .void => return .void
  | .bool => return .bool
  | .int kind => return .int kind
  | .float => return .float
  | .double => return .double
  | .auto => fail .autoType spec.span
  | .named name =>
    match (← get).namedType? name with
    | some ty => return ty
    | none => fail (.unknownType name) spec.span
  | .record _ name =>
    match (← get).names.tags.get? name with
    | some (.record id) => return .record id
    | some .enum => fail (.tagKind name) spec.span
    | none => return .record (← newRecord name)
  | .enum name =>
    match (← get).names.tags.get? name with
    | some .enum => return .enum name
    | _ => fail (.undeclaredEnum name) spec.span

/-- The length of an array with an analysed size. -/
def arrayLength? (e : Expr) : Analyze (Option Nat) := do
  if !e.ty.isInteger then
    if !e.ty.isDependent then report (.arraySizeType (← typeName e.ty)) e.span
    return none
  match Typed.constant? (← get).types e with
  | some (.int n) =>
    if 0 ≤ n then return some n.toInt.toNat
    report .negativeArraySize e.span
    return none
  | some _ =>
    report .negativeArraySize e.span
    return none
  | none =>
    report .variableArraySize e.span
    return none

/-- `n` pointers to a type. -/
def pointers : Nat → Ty → Ty
  | 0, ty => ty
  | n + 1, ty => pointers n (.pointer ty)

mutual

def expr : Syntax.Expr → Analyze Expr
  | .int span v suffix => return .int ⟨span, intLiteralType v suffix⟩ v suffix
  | .float span x single => return .float ⟨span, if single then .float else .double⟩ x single
  | .char span c => return .char ⟨span, .char⟩ c
  | .str span s => return .str ⟨span, .array .char (some (s.utf8ByteSize + 1))⟩ s
  | .bool span b => return .bool ⟨span, .bool⟩ b
  | .null span => return .null ⟨span, .voidPtr⟩
  | .ident span name => do
    let (binding, ty) ← identType name span
    return .ident ⟨span, ty⟩ name binding
  | .unary span op e => do
    let e ← expr e
    return .unary ⟨span, ← unaryType op e span⟩ op e
  | .binary span op a b => do
    let a ← expr a
    let b ← expr b
    return .binary ⟨span, ← binaryType op a b span⟩ op a b
  | .assign span op a b => do
    let a ← expr a
    let b ← expr b
    return .assign ⟨span, ← assignType op a b span⟩ op a b
  | .conditional span c a b => do
    let c ← expr c
    let a ← expr a
    let b ← expr b
    return .conditional ⟨span, ← conditionalType c a b span⟩ c a b
  | .call span callee args => do
    match callee with
    | .ident calleeSpan name =>
      let (binding, target) ← resolveCallee name calleeSpan
      let args ← exprs args
      return .call ⟨span, ← callType name target args span⟩ name binding args
    | callee =>
      let callee ← expr callee
      let _ ← exprs args
      return .invalid ⟨span, ← fail .calleeNotName callee.span⟩
  | .index span base index => do
    let base ← expr base
    let index ← expr index
    return .index ⟨span, ← indexType base index span⟩ base index
  | .member span base field arrow => do
    let base ← expr base
    return .member ⟨span, ← memberType base field arrow span⟩ base field arrow
  | .cast span spec declarator e => do
    let target ← declaredType (← baseType spec) declarator
    let e ← expr e
    return .cast ⟨span, ← castType target e span⟩ target e
  | .sizeofType span spec declarator => do
    let target ← declaredType (← baseType spec) declarator
    return .sizeofType ⟨span, ← sizeofType target span⟩ target
  | .sizeofExpr span e => do
    let e ← expr e
    return .sizeofExpr ⟨span, ← sizeofExprType e span⟩ e
  | .comma span a b => do
    let a ← expr a
    let b ← expr b
    let ty := if a.ty.isDependent || b.ty.isDependent then .dependent else b.ty
    return .comma ⟨span, ty⟩ a b

def exprs : List Syntax.Expr → Analyze (List Expr)
  | [] => return []
  | e :: es => do
    let e ← expr e
    return e :: (← exprs es)

/-- The type of the name in a declarator, for the type that the specifiers name. -/
def declaredType (base : Ty) : Syntax.Declarator → Analyze Ty
  | .mk _ n suffixes span => do
    return (← suffixedType (pointers n base) span suffixes).getD .dependent

/-- Arrays of a type. Sizes are worked out from the last one to the first. `none` at a parameter
list, which ends the work. -/
def suffixedType (base : Ty) (span : Span) : List Syntax.Suffix → Analyze (Option Ty)
  | [] => return some base
  | s :: rest => do
    match ← suffixedType base span rest with
    | none => return none
    | some ty =>
      match s with
      | .unsized => return some (.array ty none)
      | .sized size =>
        let size ← expr size
        return some (.array ty (← arrayLength? size))
      | .function .. =>
        report .functionType span
        return none

end

end IncrementalC.Analyze
