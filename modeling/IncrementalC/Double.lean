/-!
# Double-precision numbers

A `Double` is the 64 bits of a double-precision number. Arithmetic is that of `Float`, which has one
value only that is no number; a `Double` that is no number has a sign, like any other.

An operation on a value that is no number returns this value, the first one of two. An operation on
numbers that has no result returns `Double.undefined`, whose sign is set.
-/
namespace IncrementalC
set_option autoImplicit false

structure Double where
  bits : UInt64
deriving DecidableEq, Repr, Inhabited

/-- `num / den` rounded to the nearest integer, a half going to the even neighbour. -/
def roundHalfEven (num den : Nat) : Nat :=
  let q := num / den
  match compare (2 * (num % den)) den with
  | .lt => q
  | .gt => q + 1
  | .eq => if q % 2 = 0 then q else q + 1

namespace Double

/-! ## Bits -/

def signBit : UInt64 := 0x8000000000000000

/-- The positive infinity. -/
def infinity : Double := ⟨0x7FF0000000000000⟩

/-- No number, without a sign. -/
def nan : Double := ⟨0x7FF8000000000000⟩

def undefined : Double := ⟨0xFFF8000000000000⟩

def abs (x : Double) : Double := ⟨x.bits &&& ~~~signBit⟩

def neg (x : Double) : Double := ⟨x.bits ^^^ signBit⟩

instance : Neg Double := ⟨neg⟩

def isNegative (x : Double) : Bool := x.bits &&& signBit ≠ 0

def isNaN (x : Double) : Bool := infinity.bits < x.abs.bits

def isInfinite (x : Double) : Bool := x.abs = infinity

def isFinite (x : Double) : Bool := x.abs.bits < infinity.bits

def isZero (x : Double) : Bool := x.abs.bits = 0

/-! ## Arithmetic -/

def toFloat (x : Double) : Float := Float.ofBits x.bits

def ofFloat (x : Float) : Double := ⟨x.toBits⟩

/-- What an operation on numbers returns. -/
def ofResult (r : Float) : Double := if r.isNaN then undefined else ofFloat r

def map (f : Float → Float) (x : Double) : Double := if x.isNaN then x else ofResult (f x.toFloat)

def map₂ (f : Float → Float → Float) (x y : Double) : Double :=
  if x.isNaN then x else if y.isNaN then y else ofResult (f x.toFloat y.toFloat)

instance : Add Double := ⟨map₂ (· + ·)⟩
instance : Sub Double := ⟨map₂ (· - ·)⟩
instance : Mul Double := ⟨map₂ (· * ·)⟩
instance : Div Double := ⟨map₂ (· / ·)⟩

def sqrt (x : Double) : Double := x.map Float.sqrt

def floor (x : Double) : Double := x.map Float.floor

def ceil (x : Double) : Double := x.map Float.ceil

def isOddInteger (x : Double) : Bool :=
  x.isFinite && x.toFloat.floor == x.toFloat && (x.toFloat / 2).floor != x.toFloat / 2

/-- A power is a number even if one operand is none: if the exponent is zero, or the base is one. An
odd power of a negative value that is no number is not negative. -/
def pow (x y : Double) : Double :=
  if y.isZero then ofFloat 1
  else if x.isNaN then (if x.isNegative && y.isOddInteger then -x else x)
  else if y.isNaN then (if x = ofFloat 1 then x else y)
  else ofResult (x.toFloat.pow y.toFloat)

/-- The bits `b` of a number without its sign, rounded to the nearest single-precision number. A number
below `2 ^ -126` has fewer bits left there. -/
def singleBits (b : Nat) : Nat :=
  let e := max (b >>> 52) 1
  let base := (e - 1) <<< 52
  let unit := 1 <<< (29 + (897 - e))
  let rounded := roundHalfEven (b - base) unit * unit
  if rounded = 0 then 0
  else if base + rounded < 1151 <<< 52 then base + rounded
  else infinity.bits.toNat

/-- The nearest single-precision number. -/
def roundSingle (x : Double) : Double :=
  if x.isNaN then x
  else ⟨UInt64.ofNat (singleBits x.abs.bits.toNat) ||| (x.bits &&& signBit)⟩

/-! ## Comparison

Zeros are equal whatever their signs are, and what is no number equals nothing. -/

def equals (x y : Double) : Bool := x.toFloat == y.toFloat

def less (x y : Double) : Bool := x.toFloat < y.toFloat

def atMost (x y : Double) : Bool := x.toFloat ≤ y.toFloat

/-! ## Integers -/

def ofUInt64 (v : UInt64) : Double := ofFloat v.toFloat

def ofInt64 (v : Int64) : Double := if v < 0 then -ofUInt64 (-v).toUInt64 else ofUInt64 v.toUInt64

/-- Cut off towards zero and kept inside the range; zero for what is no number. -/
def toInt64 (x : Double) : Int64 := x.toFloat.toInt64

def toUInt64 (x : Double) : UInt64 := x.toFloat.toUInt64

end Double

end IncrementalC
