import IncrementalC.Types.Table
import IncrementalC.Typed.Tree

/-!
# Constant expressions

`constant? types e` is the value of an analysed expression that needs no code to run. Every step
converts to the type of its expression, so the value is the one that code would compute.
-/
namespace IncrementalC.Typed
set_option autoImplicit false

/-- `x op y` in floating arithmetic. -/
def foldFloat (op : BinaryOp) (x y : Double) : Option Constant :=
  match op with
  | .add => some (.float (x + y))
  | .sub => some (.float (x - y))
  | .mul => some (.float (x * y))
  | .div => some (.float (x / y))
  | .lt => some (.bool (x.less y))
  | .gt => some (.bool (y.less x))
  | .le => some (.bool (x.atMost y))
  | .ge => some (.bool (y.atMost x))
  | .eq => some (.bool (x.equals y))
  | .ne => some (.bool !(x.equals y))
  | _ => none

/-- `x op y` for words that are read without sign if `unsigned`. Overflow wraps. -/
def foldWords (op : BinaryOp) (unsigned : Bool) (x y : Int64) : Option Constant :=
  let u := x.toUInt64
  let v := y.toUInt64
  match op with
  | .add => some (.int (x + y))
  | .sub => some (.int (x - y))
  | .mul => some (.int (x * y))
  | .div =>
    if y = 0 then none else some (.int (if unsigned then (u / v).toInt64 else x / y))
  | .rem =>
    if y = 0 then none else some (.int (if unsigned then (u % v).toInt64 else x % y))
  | .shl => some (.int (x <<< y))
  | .shr => some (.int (if unsigned then (u >>> v).toInt64 else x >>> y))
  | .bitAnd => some (.int (x &&& y))
  | .bitOr => some (.int (x ||| y))
  | .bitXor => some (.int (x ^^^ y))
  | .lt => some (.bool (if unsigned then u < v else x < y))
  | .gt => some (.bool (if unsigned then v < u else y < x))
  | .le => some (.bool (if unsigned then u ≤ v else x ≤ y))
  | .ge => some (.bool (if unsigned then v ≤ u else y ≤ x))
  | .eq => some (.bool (x == y))
  | .ne => some (.bool (x != y))
  | .and | .or => none

/-- The type in which `op` computes on operands of types `a` and `b`. -/
def operationType (op : BinaryOp) (a b : Ty) : Ty :=
  match op with
  | .shl | .shr => a.promote
  | _ => Ty.common a b

/-- `x op y` for operands of types `a` and `b`; `op` is not logical. -/
def foldArithmetic (op : BinaryOp) (a b : Ty) (x y : Constant) : Option Constant :=
  let a := a.decay
  let b := b.decay
  if !a.isArithmetic || !b.isArithmetic then none else
  let ty := operationType op a b
  if ty.isFloating then do foldFloat op (← x.float?) (← y.float?)
  else do
    let kind ← ty.scalar?
    foldWords op kind.isUnsigned (kind.wrap (← x.word?)) (kind.wrap (← y.word?))

def foldUnary (op : UnaryOp) (c : Constant) : Option Constant :=
  match op with
  | .plus => some c
  | .neg =>
    match c with
    | .float x => some (.float (-x))
    | c => c.word?.map fun v => .int (-v)
  | .not => some (.bool !c.truthy)
  | .bitNot => c.word?.map fun v => .int (~~~v)
  | .deref | .addrOf | .preInc | .preDec | .postInc | .postDec => none

/-- The value of a constant expression. -/
def constant? (types : TypeTable) : Expr → Option Constant
  | .int i v _ => (Constant.int (Int64.ofNat v)).coerce i.ty
  | .char i c => (Constant.int (Int64.ofNat c)).coerce i.ty
  | .bool i b => (Constant.bool b).coerce i.ty
  | .float i x _ => (Constant.float x).coerce i.ty
  | .null i => (Constant.ptr 0).coerce i.ty
  | .str i s => (Constant.str s).coerce i.ty
  | .ident i _ (.enumConst v) => (Constant.int v).coerce i.ty
  | .sizeofType i t => do (Constant.int (Int64.ofNat (← types.size? t))).coerce i.ty
  | .sizeofExpr i e => do (Constant.int (Int64.ofNat (← types.size? e.ty))).coerce i.ty
  | .unary i op e => do (← foldUnary op (← constant? types e)).coerce i.ty
  | .binary i op a b =>
    match op with
    | .and => do
      if (← constant? types a).truthy then
        (Constant.bool (← constant? types b).truthy).coerce i.ty
      else (Constant.bool false).coerce i.ty
    | .or => do
      if (← constant? types a).truthy then (Constant.bool true).coerce i.ty
      else (Constant.bool (← constant? types b).truthy).coerce i.ty
    | op => do
      (← foldArithmetic op a.ty b.ty (← constant? types a) (← constant? types b)).coerce i.ty
  | .cast _ target e => do (← constant? types e).coerce target
  | .conditional i c a b => do
    if (← constant? types c).truthy then (← constant? types a).coerce i.ty
    else (← constant? types b).coerce i.ty
  | .ident .. | .assign .. | .call .. | .index .. | .member .. | .comma .. | .invalid _ => none

/-! ## Initial values -/

/-- The bytes of a string as words of a kind. -/
def stringWords (kind : Scalar) (s : String) : List Int64 :=
  s.toUTF8.toList.map fun b => kind.wrap (Int64.ofNat b.toNat)

/-- A list numbered from `start` on. -/
def numberFrom {α : Type} (start : Nat) (xs : List α) : List (Nat × α) :=
  xs.zipIdx.map fun (x, i) => (start + i, x)

mutual

/-- The slots, from `base` on, that a constant initial value of an object of type `ty` fills. -/
def initialSlots? (types : TypeTable) (ty : Ty) (base : Nat) :
    Initializer → Option (List (Nat × Constant))
  | .expr e =>
    match ty, e with
    | .array elem _, .str _ s =>
      if elem.isChar then do
        return numberFrom base ((stringWords (← elem.scalar?) s).map .int)
      else slot e
    | ty, e => if ty.isScalar && !ty.isDynamic then slot e else none
  | .list items _ =>
    match ty with
    | .array elem _ => elementSlots? types elem (types.slots elem) base items
    | .record id => do fieldSlots? types (← types.record? id).fields base items
    | ty =>
      match items with
      | [] => some []
      | item :: _ => initialSlots? types ty base item
  | .construct args _ =>
    match args with
    | [] => some []
    | e :: _ => if ty.isScalar then slot e else none
where
  /-- One slot that holds the value of `e`. -/
  slot (e : Expr) : Option (List (Nat × Constant)) := do
    return [(base, ← (← constant? types e).coerce ty)]

def elementSlots? (types : TypeTable) (elem : Ty) (stride base : Nat) :
    List Initializer → Option (List (Nat × Constant))
  | [] => some []
  | item :: items => do
    return (← initialSlots? types elem base item)
      ++ (← elementSlots? types elem stride (base + stride) items)

/-- Fields without an initial value are left out. -/
def fieldSlots? (types : TypeTable) (fields : List Field) (base : Nat) :
    List Initializer → Option (List (Nat × Constant))
  | [] => some []
  | item :: items =>
    match fields with
    | [] => some []
    | f :: fields => do
      return (← initialSlots? types f.ty (base + f.slot) item)
        ++ (← fieldSlots? types fields base items)

end

/-- The constant image of an object: the slots that an initial value fills, the others being zero.
`none` if code has to run. -/
def constantImage? (types : TypeTable) (ty : Ty) : Option Initializer →
    Option (List (Nat × Constant))
  | none => some []
  | some init => initialSlots? types ty 0 init

end IncrementalC.Typed
