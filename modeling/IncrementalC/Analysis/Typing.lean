import IncrementalC.Analysis.State

/-!
# Typing rules

Each rule takes analysed operands and gives the type of the whole expression. An operand of
dependent type makes the whole dependent without a complaint, as does a complaint.
-/
namespace IncrementalC.Analyze
set_option autoImplicit false
open Typed

def intLiteralType (value : Nat) : IntSuffix → Ty
  | .none =>
    if value < UInt32.size / 2 then .signedInt else if value < UInt64.size / 2 then .long else .unsignedLong
  | .u => if value < UInt32.size then .unsignedInt else .unsignedLong
  | .l => if value < UInt64.size / 2 then .long else .unsignedLong
  | .ul => .unsignedLong
  | .ll => .int ⟨.longLong, value < UInt64.size / 2⟩
  | .ull => .int ⟨.longLong, false⟩

/-- A constant zero, which converts to any pointer. -/
def isNullConstant (types : TypeTable) (e : Expr) : Bool :=
  match e with
  | .null _ => true
  | e => e.ty.isInteger && match constant? types e with
    | some (.int v) => v == 0
    | _ => false

/-- A value of type `source` may be used where `target` is wanted. -/
def isAssignable (types : TypeTable) (target : Ty) (value : Expr) : Bool :=
  let source := value.ty.decay
  match target with
  | .bool => source.isScalar
  | .int _ | .enum _ | .float | .double => source.isArithmetic
  | .pointer _ => source.isPointer || isNullConstant types value
  | .record id => source == .record id
  | .void | .array .. | .dependent | .dynamic => false

def checkAssignable (target : Ty) (value : Expr) (use : Use) : Analyze Unit := do
  let source := value.ty.decay
  if target.isDependent || source.isDependent || target.isDynamic || source.isDynamic then return
  if isAssignable (← get).types target value then return
  let targetName ← typeName target
  let sourceName ← typeName value.ty
  if target.isPointer && source.isInteger then
    report (.integerToPointer use targetName sourceName) value.span
  else if target.isInteger && source.isPointer then
    report (.pointerToInteger use targetName sourceName) value.span
  else report (.incompatible use targetName sourceName) value.span

def sizeofType (ty : Ty) (span : Span) : Analyze Ty := do
  if ty.isDependent then return .dependent
  if ((← get).types.size? ty).isNone then fail (.sizeofIncomplete (← typeName ty)) span
  else return .unsignedLong

def sizeofExprType (e : Expr) (span : Span) : Analyze Ty := do
  if e.ty.isDependent || e.ty.isDynamic then fail .sizeofUnknown span else sizeofType e.ty span

def unaryType (op : UnaryOp) (e : Expr) (span : Span) : Analyze Ty := do
  let ty := e.ty.decay
  if ty.isDependent then return .dependent
  let invalid : Analyze Ty := do fail (.unaryOperand (← typeName e.ty)) span
  match op with
  | .neg | .plus =>
    if ty.isDynamic then return .dynamic
    else if ty.isArithmetic then return ty.promote
    else invalid
  | .bitNot =>
    if ty.isDynamic then return .dynamic
    else if ty.isInteger then return ty.promote
    else invalid
  | .not => if ty.isScalar then return .bool else invalid
  | .deref =>
    match ty with
    | .pointer .void => fail .derefVoid span
    | .pointer inner => return inner
    | other => fail (.derefOperand (← typeName other)) span
  | .addrOf => if e.isLvalue then return .pointer e.ty else fail .addressOfRvalue span
  | .preInc | .preDec | .postInc | .postDec =>
    if !e.isLvalue || e.ty.isArray then fail .notAssignable span
    else if !ty.isArithmetic && !ty.isPointer && !ty.isDynamic then invalid
    else return e.ty

def binaryType (op : BinaryOp) (a b : Expr) (span : Span) : Analyze Ty := do
  let ta := a.ty.decay
  let tb := b.ty.decay
  if ta.isDependent || tb.isDependent then return .dependent
  let invalid : Analyze Ty := do fail (.binaryOperands (← typeName a.ty) (← typeName b.ty)) span
  if op.isLogical then
    if ta.isScalar && tb.isScalar then return .bool else invalid
  else if ta.isDynamic || tb.isDynamic then
    if (ta.isArithmetic || ta.isDynamic) && (tb.isArithmetic || tb.isDynamic) then
      return if op.isComparison then .bool else .dynamic
    else invalid
  else if op.isComparison then
    let types := (← get).types
    if (ta.isArithmetic && tb.isArithmetic) || (ta.isPointer && tb.isPointer)
        || (ta.isPointer && isNullConstant types b) || (tb.isPointer && isNullConstant types a) then
      return .bool
    else invalid
  else
    let arithmetic := ta.isArithmetic && tb.isArithmetic
    let integers := ta.isInteger && tb.isInteger
    match op with
    | .add =>
      if arithmetic then return Ty.common ta tb
      else if ta.isPointer && tb.isInteger then return ta
      else if ta.isInteger && tb.isPointer then return tb
      else invalid
    | .sub =>
      if arithmetic then return Ty.common ta tb
      else if ta.isPointer && tb.isInteger then return ta
      else if ta.isPointer && tb.isPointer then return .long
      else invalid
    | .mul | .div => if arithmetic then return Ty.common ta tb else invalid
    | .rem | .bitAnd | .bitOr | .bitXor => if integers then return Ty.common ta tb else invalid
    | .shl | .shr => if integers then return ta.promote else invalid
    | _ => invalid

def assignType (op : Option BinaryOp) (a b : Expr) (span : Span) : Analyze Ty := do
  if a.ty.isDependent then return .dependent
  if !a.isLvalue then fail .notAssignable a.span
  else if a.ty.isArray then fail (.arrayAssignment (← typeName a.ty)) a.span
  else
    match op with
    | some op => let _ ← binaryType op a b span
    | none => checkAssignable a.ty b .assigning
    return a.ty

def conditionalType (c a b : Expr) (span : Span) : Analyze Ty := do
  let ta := a.ty.decay
  let tb := b.ty.decay
  let types := (← get).types
  if c.ty.isDependent || ta.isDependent || tb.isDependent then return .dependent
  else if !c.ty.isScalar then fail .conditionNotScalar c.span
  else if ta.isDynamic || tb.isDynamic then return .dynamic
  else if ta.isArithmetic && tb.isArithmetic then return Ty.common ta tb
  else if ta = tb then return ta
  else if ta.isPointer && (tb.isPointer || isNullConstant types b) then return ta
  else if tb.isPointer && isNullConstant types a then return tb
  else fail (.branchTypes (← typeName a.ty) (← typeName b.ty)) span

def indexType (base index : Expr) (span : Span) : Analyze Ty := do
  if base.ty.isDependent || index.ty.isDependent then return .dependent
  let check (ptr i : Expr) : Analyze Ty := do
    if !i.ty.isInteger && !i.ty.isDynamic then fail .subscriptIndex i.span
    else match ptr.ty.pointee? with
      | none | some .void => fail .subscriptVoid span
      | some inner => return inner
  if base.ty.isPointerLike then check base index
  else if index.ty.isPointerLike then check index base
  else fail .subscriptedType span

/-- The type of a member of `record`. -/
def fieldType (record : Ty) (field : String) (span : Span) : Analyze Ty := do
  match record with
  | .record id =>
    match ((← get).types.record? id).bind (·.field? field) with
    | some f => return f.ty
    | none => fail (.noMember field (← typeName record)) span
  | other => fail (.memberOfNonRecord (← typeName other)) span

def memberType (base : Expr) (field : String) (arrow : Bool) (span : Span) : Analyze Ty := do
  if base.ty.isDependent then return .dependent
  if arrow then
    match base.ty.decay with
    | .pointer inner => fieldType inner field span
    | other => fail (.arrowOnValue (← typeName other)) span
  else if base.ty.isPointer then fail (.dotOnPointer (← typeName base.ty)) span
  else fieldType base.ty field span

def castType (target : Ty) (e : Expr) (span : Span) : Analyze Ty := do
  let source := e.ty.decay
  if target.isDependent then return .dependent
  else if e.ty.isDependent || target.isVoid then return target
  else if !target.isScalar then fail (.castTarget (← typeName target)) span
  else if !source.isScalar then fail (.castOperand (← typeName source)) span
  else if (target.isPointer && source.isFloating) || (target.isFloating && source.isPointer) then
    fail (.castBetween (← typeName source) (← typeName target)) span
  else return target

/-! ## Names and calls -/

def identType (name : String) (span : Span) : Analyze (Binding × Ty) := do
  let a ← get
  match a.lookupLocal? name with
  | some (.var ty binding) => return (binding, ty)
  | some (.enumConst value ty) => return (.enumConst value, ty)
  | some (.typedef _) => return (.unresolved, ← fail (.typeAsExpression name) span)
  | none =>
    match a.names.globals.get? name with
    | some (.var ty linkName _) => return (.global linkName, ty)
    | some (.enumConst value ty) => return (.enumConst value, ty)
    | some (.function ..) => return (.function, ← fail (.functionAsValue name) span)
    | some (.typedef _) => return (.unresolved, ← fail (.typeAsExpression name) span)
    | none =>
      if (a.builtin? name).isSome then
        return (.unresolved, ← fail (.builtinAsValue name) span)
      else match ← recover? name span with
        | some found => return found
        | none => return (.unresolved, ← fail (.undeclared name) span)

/-- What is called. -/
inductive Callee where
  | function (sig : FunctionSig)
  | builtin (b : Builtin)
  /-- Unknown or invalid: nothing to check. -/
  | dependent

def resolveCallee (name : String) (span : Span) : Analyze (Binding × Callee) := do
  let notFunction (ty : Ty) : Analyze (Binding × Callee) := do
    report (.calledType (← typeName ty)) span
    return (.unresolved, .dependent)
  let a ← get
  match a.lookupLocal? name with
  | some (.var ty _) | some (.enumConst _ ty) | some (.typedef ty) => notFunction ty
  | none =>
    match a.names.globals.get? name with
    | some (.function sig _) => return (.function, .function sig)
    | some (.var ty ..) | some (.enumConst _ ty) | some (.typedef ty) => notFunction ty
    | none =>
      match a.builtin? name with
      | some b => return (.builtin b, .builtin b)
      | none =>
        match ← recover? name span with
        | some (.placeholder, _) => return (.placeholder, .dependent)
        | some (_, ty) => notFunction ty
        | none =>
          report (.undeclared name) span
          return (.unresolved, .dependent)

def checkCall (name : String) (sig : FunctionSig) (args : List Expr) (span : Span) :
    Analyze Ty := do
  let expected := sig.params.length
  if args.length < expected then
    report (.tooFewArguments name expected args.length) span
  else if expected < args.length && !sig.variadic then
    report (.tooManyArguments name expected args.length) span
  else
    for (param, arg) in sig.params.zip args do
      checkAssignable param arg .passing
    for arg in args.drop expected do
      if arg.ty.isRecord then report .recordAsVariadic arg.span
  return sig.ret

/-- A builtin that takes one argument of any type. -/
def checkHook (name : String) (b : Builtin) (args : List Expr) (span : Span) : Analyze Ty := do
  match args with
  | [arg] =>
    if b = .setResult && !arg.ty.isScalar && !arg.ty.isDependent then
      report (.scalarArgument name) arg.span
    if arg.ty.isVoid then report .voidArgument arg.span
    return .void
  | _ => fail (.oneArgument name) span

def callType (name : String) (callee : Callee) (args : List Expr) (span : Span) : Analyze Ty :=
  match callee with
  | .dependent => return .dependent
  | .function sig => checkCall name sig args span
  | .builtin b =>
    match b.signature? with
    | some sig => checkCall name sig args span
    | none => checkHook name b args span

end IncrementalC.Analyze
