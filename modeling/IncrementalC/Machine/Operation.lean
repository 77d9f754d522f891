import IncrementalC.Decimal.Binary
import IncrementalC.Machine.Fault

/-!
# Operators of the machine

`binary`, `unary` and `increment` compute in a given kind. Where the kind is `dyn` the values decide.

`Double.remainder x y` is `x - n * y` for the integer `n` between zero and `x / y` that is nearest to
`x / y`. It is exact: no rounding takes place.
-/
namespace IncrementalC
set_option autoImplicit false

/-- The remainder of two finite values, the second one positive, in units of the smaller exponent,
and that exponent. -/
def Decimal.Binary.remainder (x y : Decimal.Binary) : Nat × Int :=
  let e := min x.exponent y.exponent
  let units (b : Decimal.Binary) : Nat := b.significand * Nat.pow 2 (b.exponent - e).toNat
  (units x % units y, e)

/-- The result has the sign of `x`. -/
def Double.remainder (x y : Double) : Double :=
  if x.isNaN then x
  else if y.isNaN then y
  else if x.isInfinite || y.isZero then .undefined
  else if y.isInfinite || x.isZero then x
  else
    let (r, e) := (Decimal.Binary.ofDouble x).remainder (.ofDouble y)
    let size := Double.ofFloat (r.toFloat.scaleB e)
    if x.isNegative then -size else size

namespace Operation
open Code (BinaryOp UnaryOp)

/-- The kind in which two values of unknown type are computed with. -/
def dynamicKind : Value → Value → Scalar
  | .float _, _ | _, .float _ => .f64
  | .ptr _, _ | _, .ptr _ => .ptr
  | _, _ => .i64

/-- `kind`, or what the operands suggest. -/
def effectiveKind (kind : Scalar) (a b : Value) : Scalar :=
  if kind = .dyn then dynamicKind a b else kind

def compareFloats (op : BinaryOp) (x y : Double) : Bool :=
  match op with
  | .lt => x.less y
  | .le => x.atMost y
  | .gt => y.less x
  | .ge => y.atMost x
  | .eq => x.equals y
  | _ => !x.equals y

def compareWords (op : BinaryOp) (x y : UInt64) : Bool :=
  match op with
  | .lt => x < y
  | .le => x ≤ y
  | .gt => y < x
  | .ge => y ≤ x
  | .eq => x == y
  | _ => x != y

def compareSigned (op : BinaryOp) (x y : Int64) : Bool :=
  match op with
  | .lt => x < y
  | .le => x ≤ y
  | .gt => y < x
  | .ge => y ≤ x
  | .eq => x == y
  | _ => x != y

def compare (op : BinaryOp) (kind : Scalar) (a b : Value) : Bool :=
  if kind.isFloat then compareFloats op a.real b.real
  else if kind = .ptr then compareWords op a.bits b.bits
  else if kind.isUnsigned then compareWords op a.word.toUInt64 b.word.toUInt64
  else compareSigned op a.word b.word

def floats (op : BinaryOp) (kind : Scalar) (x y : Double) : Except Fault Value := do
  let r ← match op with
    | .add => pure (x + y)
    | .sub => pure (x - y)
    | .mul => pure (x * y)
    | .div => pure (x / y)
    | .rem => pure (x.remainder y)
    | op => throw (.invalidOperands op kind)
  return (Value.float r).coerce kind

def pointers (op : BinaryOp) (x y : UInt64) : Except Fault Value :=
  match op with
  | .bitAnd => .ok (.ptr (x &&& y))
  | .bitOr => .ok (.ptr (x ||| y))
  | op => .error (.invalidOperands op .ptr)

/-- Arithmetic on words; the result is brought into the range of the kind. -/
def integers (op : BinaryOp) (kind : Scalar) (x y : Int64) : Except Fault Int64 := do
  let u := x.toUInt64
  let v := y.toUInt64
  let divides : Except Fault Unit := if y = 0 then .error .divisionByZero else .ok ()
  let r ← match op with
    | .add => pure (x + y)
    | .sub => pure (x - y)
    | .mul => pure (x * y)
    | .div => do
      divides
      pure (if kind.isUnsigned then (u / v).toInt64 else x / y)
    | .rem => do
      divides
      pure (if kind.isUnsigned then (u % v).toInt64 else x % y)
    | .shl => pure (x <<< y)
    | .shr => pure (if kind.isUnsigned then (u >>> v).toInt64 else x >>> y)
    | .bitAnd => pure (x &&& y)
    | .bitOr => pure (x ||| y)
    | .bitXor => pure (x ^^^ y)
    | op => throw (.invalidOperands op kind)
  return kind.wrap r

def binary (op : BinaryOp) (kind : Scalar) (a b : Value) : Except Fault Value :=
  let kind := effectiveKind kind a b
  if op.isComparison then .ok (.ofBool (compare op kind a b))
  else if kind.isFloat then floats op kind a.real b.real
  else if kind = .ptr then pointers op a.bits b.bits
  else (integers op kind a.word b.word).map .int

def unary (op : UnaryOp) (kind : Scalar) (v : Value) : Except Fault Value :=
  let kind := effectiveKind kind v (.int 0)
  match op with
  | .not => .ok (.ofBool !v.isTruthy)
  | .neg =>
    if kind.isFloat then .ok ((Value.float (-v.real)).coerce kind)
    else if kind = .ptr then .error (.invalidOperand op kind)
    else .ok (.int (kind.wrap (-v.word)))
  | .bitNot =>
    if kind.isInteger then .ok (.int (kind.wrap (~~~v.word))) else .error (.invalidOperand op kind)

/-- Adds an amount to a value; pointers move by slots. -/
def increment (kind : Scalar) (old : Value) (amount : Int64) : Value :=
  let moved := Value.ptr ((Address.decode old.bits).offset amount).encode
  match kind, old with
  | .ptr, _ => moved
  | .dyn, .ptr _ => moved
  | .dyn, .float x => .float (x + .ofInt64 amount)
  | .dyn, _ => .int (old.word + amount)
  | kind, _ =>
    if kind.isFloat then (Value.float (old.real + .ofInt64 amount)).coerce kind
    else .int (kind.wrap (old.word + amount))

end Operation

end IncrementalC
