import IncrementalC.Lowering.Basic

/-!
# Code of expressions

* `rvalue a e` leaves the value of `e` on the stack, or its address if it is an aggregate.
* `lvalue a e` leaves the address of the object that `e` denotes.

Each operator has a function that makes its code from the code of its operands.
-/
namespace IncrementalC.Lowering
set_option autoImplicit false
open Typed (Expr Binding)

/-! ## Values and addresses -/

/-- Evaluates an expression of type `ty` for its effects. -/
def discard (ty : Ty) (value : Piece) : Piece :=
  if ty.isVoid then value else value ++ .code [.pop]

/-- Moves the pointer below an integer of type `ty` on the stack. -/
def movePointer (ty : Ty) (negate : Bool) (stride : Int64) : Piece :=
  .code (convert ty .long ++ (if negate then [.unary .neg .i64] else []) ++ [.ptrAdd stride])

/-- The address of an element. The pointer is evaluated before the index. -/
def elementAddress (types : TypeTable) (elem baseTy indexTy : Ty) (base index : Piece) : Piece :=
  if baseTy.isPointerLike then base ++ index ++ movePointer indexTy false (strideOf types elem)
  else index ++ base ++ movePointer baseTy false (strideOf types elem)

/-- Moves the address of a record to one of its fields. -/
def fieldOffset (types : TypeTable) (record : Option Ty) (field : String) (span : Span) : Piece :=
  .gen do
    match record with
    | some (.record id) =>
      let f ← need ((types.record? id).bind (·.field? field)) (.unknownMember field) span
      return if 0 < f.slot then [.pushInt (Int64.ofNat f.slot), .ptrAdd 1] else []
    | _ => fail .memberOfNonRecord span

/-- The address of a variable; anything else has the given problem. -/
def variableAddress (binding : Binding) (problem : LoweringProblem) (span : Span) : Piece := .gen do
  match binding with
  | .local slot => return [.localAddr slot]
  | .global linkName => return [.globalAddr linkName]
  | _ => fail problem span

def stringAddress (s : String) : Piece := .gen (return [.pushStr (← intern s)])

/-! ## Operators -/

/-- The second operand of a logical operator is evaluated if the first does not decide. -/
def logical (op : BinaryOp) (a b : Piece) : Piece := fun start => do
  let x ← a start
  let y ← b (start + x.length + 1)
  let short := start + x.length + 1 + y.length + 3
  let jump := if op = .and then Instr.jumpIfFalse short else .jumpIfTrue short
  return x ++ jump :: y ++
    [jump, .pushInt (boolWord (op = .and)), .jump (short + 1), .pushInt (boolWord (op != .and))]

def conditional (c yes no : Piece) : Piece := fun start => do
  let c ← c start
  let yes ← yes (start + c.length + 1)
  let other := start + c.length + 1 + yes.length + 1
  let no ← no other
  return c ++ .jumpIfFalse other :: yes ++ .jump (other + no.length) :: no

/-- How a binary operator acts on decayed operand types. -/
inductive Operation where
  /-- A pointer moves by an integer, back if `negate`. The pointer is evaluated first. -/
  | offset (pointerFirst negate : Bool) (stride : Int64)
  | difference (stride : Int64)
  /-- Both operands are converted to one type. -/
  | arithmetic (operand : Ty)

/-- `result` is the type of the whole expression. -/
def operation (types : TypeTable) (op : BinaryOp) (a b result : Ty) : Operation :=
  let arithmetic := Operation.arithmetic <|
    if !op.isComparison then result
    else if a.isPointer || b.isPointer then .voidPtr
    else Ty.common a b
  if a.isDynamic || b.isDynamic then arithmetic else
  match op with
  | .add =>
    if a.isPointer && b.isInteger then .offset true false (pointeeStride types a)
    else if a.isInteger && b.isPointer then .offset false false (pointeeStride types b)
    else arithmetic
  | .sub =>
    if a.isPointer && b.isInteger then .offset true true (pointeeStride types a)
    else if a.isPointer && b.isPointer then .difference (pointeeStride types a)
    else arithmetic
  | _ => arithmetic

/-- A binary operator on operands of types `a` and `b`; `i` belongs to the whole expression. -/
def binary (types : TypeTable) (op : BinaryOp) (a b : Ty) (i : Typed.Info) (x y : Piece) : Piece :=
  if op.isLogical then logical op x y
  else
    let a := a.decay
    let b := b.decay
    match operation types op a b i.ty with
    | .offset true negate stride => x ++ y ++ movePointer b negate stride
    | .offset false negate stride => y ++ x ++ movePointer a negate stride
    | .difference stride => x ++ y ++ .code [.ptrDiff stride]
    | .arithmetic ty =>
      x ++ .code (convert a ty) ++ y ++ .code (convert b ty) ++ .gen do
        let kind ← need (kindOf? ty) .binaryOperand i.span
        return [.binary (← need (machineOp? op) .binaryOperand i.span) kind]

/-- Reads the object, computes and stores; `target` is its address. -/
def compound (types : TypeTable) (op : BinaryOp) (kind : Scalar) (a b : Ty) (span : Span)
    (target value : Piece) : Piece :=
  let old := target ++ .code [.dup, .load kind]
  let b := b.decay
  if a.isPointer then
    old ++ value ++ movePointer b (op = .sub) (pointeeStride types a) ++ .code [.store kind]
  else
    let common := Typed.operationType op a b
    old ++ .code (convert a common) ++ value ++ .code (convert b common) ++ .gen do
      let op ← need (machineOp? op) .logicalCompound span
      let commonKind ← need (kindOf? common) .compoundOperand span
      return .binary op commonKind :: convert common a ++ [.store kind]

/-- An assignment of a value of type `b` to an object of type `a`. -/
def assign (types : TypeTable) (op : Option BinaryOp) (a b : Ty) (span : Span)
    (target value : Piece) : Piece :=
  if a.isRecord then
    match op with
    | some _ => .gen (fail .structCompound span)
    | none => target ++ value ++ .code [.copySlots (slotWord (types.slots a))]
  else
    match kindOf? a with
    | none => .gen (fail .assignmentTarget span)
    | some kind =>
      match op with
      | none => target ++ value ++ .code (convert b a ++ [.store kind])
      | some op => compound types op kind a b span target value

/-- Increments an object of type `ty` by one unit, or decrements it. -/
def increment (types : TypeTable) (ty : Ty) (up post : Bool) (span : Span) (target : Piece) : Piece :=
  target ++ .gen do
    let unit := if ty.isPointer then pointeeStride types ty else 1
    return [.incDec (← need (kindOf? ty) .incrementOperand span) (if up then unit else -unit) post]

/-- A unary operator that acts on the value of its operand, which has type `ty`. -/
def unary (types : TypeTable) (op : UnaryOp) (ty : Ty) (i : Typed.Info) (value : Piece) : Piece :=
  let arithmetic (op : Code.UnaryOp) : Piece :=
    value ++ .code (convert ty i.ty) ++ .gen do
      return [.unary op (← need (kindOf? i.ty) .unaryOperand i.span)]
  match op with
  | .neg => arithmetic .neg
  | .bitNot => arithmetic .bitNot
  | .not => value ++ .gen do return [.unary .not (← need (kindOf? ty) .unaryOperand i.span)]
  | .deref => value ++ load types i.ty i.span
  | _ => value ++ .code (convert ty i.ty)

/-! ## Calls -/

/-- The type that an argument has for the callee: that of the parameter, or the promoted one. -/
def argumentType (ty : Ty) : Option Ty → Ty
  | some param => param
  | none =>
    match ty.decay with
    | .float => .double
    | ty => if ty.isInteger then ty.promote else ty

/-- The arguments in order; each comes with its expression. -/
def passed (params : List Ty) : List (Expr × Piece) → Piece
  | [] => .code []
  | (e, value) :: rest =>
    (if e.ty.isRecord then .gen (fail .structArgument e.span)
     else value ++ .code (convert e.ty (argumentType e.ty params.head?)))
      ++ passed params.tail rest

def call (a : Analysis) (i : Typed.Info) (name : String) (target : Binding)
    (args : List (Expr × Piece)) : Piece :=
  match target with
  | .function =>
    match a.signature? name with
    | some sig => passed sig.params args ++ .code [.call name args.length]
    | none => .gen (fail (.noSignature name) i.span)
  | .builtin .printValue =>
    match args with
    | (e, value) :: _ => value ++ .code [.printValue (printShape a.types e.ty)]
    | [] => .gen (fail .nothingToPrint i.span)
  | .builtin .setResult =>
    match args with
    | (_, value) :: _ => value ++ .code [.builtin .setResult 1]
    | [] => .gen (fail .noResult i.span)
  | .builtin b =>
    match b.signature? with
    | some sig => passed sig.params args ++ .code [.builtin b args.length]
    | none => .gen (fail (.noSignature name) i.span)
  | _ => .gen (fail (.unresolvedFunction name) i.span)

/-! ## Expressions -/

mutual

def lvalue (a : Analysis) : Expr → Piece
  | .ident i _ binding => variableAddress binding .notAddressable i.span
  | .unary _ .deref e => rvalue a e
  | .index i base index =>
    elementAddress a.types i.ty base.ty index.ty (rvalue a base) (rvalue a index)
  | .member i base field true =>
    rvalue a base ++ fieldOffset a.types base.ty.decay.pointee? field i.span
  | .member i base field false =>
    lvalue a base ++ fieldOffset a.types (some base.ty) field i.span
  | .str _ s => stringAddress s
  | e => .gen (fail .notAddressable e.span)

def rvalue (a : Analysis) : Expr → Piece
  | .int i v _ => .code [.pushInt (((kindOf? i.ty).getD .i64).wrap (Int64.ofNat v))]
  | .float _ x single => .code [.pushFloat (if single then x.roundSingle else x)]
  | .char _ c => .code [.pushInt (Int64.ofNat c)]
  | .bool _ b => .code [.pushInt (boolWord b)]
  | .null _ => .code [.pushPtr 0]
  | .str _ s => stringAddress s
  | .ident _ _ (.enumConst v) => .code [.pushInt v]
  | .ident i name binding =>
    variableAddress binding (.unresolvedName name) i.span ++ load a.types i.ty i.span
  | .unary i op e =>
    match op with
    | .addrOf => lvalue a e
    | .preInc => increment a.types e.ty true false i.span (lvalue a e)
    | .preDec => increment a.types e.ty false false i.span (lvalue a e)
    | .postInc => increment a.types e.ty true true i.span (lvalue a e)
    | .postDec => increment a.types e.ty false true i.span (lvalue a e)
    | op => unary a.types op e.ty i (rvalue a e)
  | .binary i op x y => binary a.types op x.ty y.ty i (rvalue a x) (rvalue a y)
  | .assign i op x y => assign a.types op x.ty y.ty i.span (lvalue a x) (rvalue a y)
  | .conditional i c x y =>
    conditional (rvalue a c) (branch i.ty x.ty (rvalue a x)) (branch i.ty y.ty (rvalue a y))
  | .call i name target args => call a i name target (rvalues a args)
  | .index i base index =>
    elementAddress a.types i.ty base.ty index.ty (rvalue a base) (rvalue a index)
      ++ load a.types i.ty i.span
  | .member i base field true =>
    rvalue a base ++ fieldOffset a.types base.ty.decay.pointee? field i.span
      ++ load a.types i.ty i.span
  | .member i base field false =>
    lvalue a base ++ fieldOffset a.types (some base.ty) field i.span ++ load a.types i.ty i.span
  | .cast _ target e =>
    if target.isVoid then discard e.ty (rvalue a e)
    else rvalue a e ++ .code (convert e.ty target)
  | .sizeofType _ target => .code [.pushInt (Int64.ofNat ((a.types.size? target).getD 0))]
  | .sizeofExpr _ e => .code [.pushInt (Int64.ofNat ((a.types.size? e.ty).getD 0))]
  | .comma _ x y => discard x.ty (rvalue a x) ++ rvalue a y
  | .invalid i => .gen (fail .functionPointer i.span)
where
  /-- A branch of a conditional expression of type `target`. -/
  branch (target ty : Ty) (value : Piece) : Piece :=
    if target.isVoid then discard ty value else value ++ .code (convert ty target)

def rvalues (a : Analysis) : List Expr → List (Expr × Piece)
  | [] => []
  | e :: es => (e, rvalue a e) :: rvalues a es

end

end IncrementalC.Lowering
