import IncrementalC.Double

/-!
# Binary floating-point values as exact numbers

* `Binary`: a finite non-negative value `significand * 2 ^ exponent`.
* `Binary.ofDouble`, `Binary.ofSingle`: the absolute value of a finite number, read from its bits.
* `Binary.scaled`: the value, and the ends of the interval of reals that round to it, as three
  integers over one power of ten. Every binary fraction is a decimal fraction, so this is exact.
* `fixed`, `significant`: the exact value rounded to a number of fraction digits or of significant
  digits. A half goes to the even neighbour.
-/
namespace IncrementalC.Decimal
set_option autoImplicit false

/-- A finite non-negative floating-point value. -/
structure Binary where
  significand : Nat
  exponent : Int
  /-- The gap to the value below is half the gap to the value above. -/
  narrowBelow : Bool
deriving Repr, DecidableEq

/-- The value whose stored exponent is `e` and whose stored fraction is `f`, in a format with
`fracBits` fraction bits and exponent bias `bias`. -/
def Binary.ofFields (fracBits bias e f : Nat) : Binary :=
  if e = 0 then ⟨f, 1 - (bias + fracBits : Nat), false⟩
  else ⟨Nat.pow 2 fracBits + f, (e : Int) - (bias + fracBits : Nat), f = 0 ∧ 1 < e⟩

/-- The absolute value that is stored in the bits `b`, with an exponent of `expBits` bits. -/
def Binary.ofBits (fracBits expBits bias b : Nat) : Binary :=
  .ofFields fracBits bias (b / Nat.pow 2 fracBits % Nat.pow 2 expBits) (b % Nat.pow 2 fracBits)

/-- The absolute value of `x`, which has to be finite. -/
def Binary.ofDouble (x : Double) : Binary := .ofBits 52 11 1023 x.bits.toNat

/-- As `ofDouble`, in the format of single-precision numbers. -/
def Binary.ofSingle (x : Double) : Binary := .ofBits 23 8 127 x.toFloat.toFloat32.toBits.toNat

/-- A value and its rounding interval over a common power of ten. -/
structure Scaled where
  value : Nat
  low : Nat
  high : Nat
  /-- All three are multiples of `10 ^ -places`. -/
  places : Nat
  /-- The ends of the interval round to the value, too. -/
  inclusive : Bool
deriving Repr, DecidableEq

/-- Two binary places are added first, so that the ends of the interval, which lie a half or a
quarter of a unit away, are integers. -/
def Binary.scaled (x : Binary) : Scaled :=
  let e := x.exponent - 2
  let scale n := n * Nat.pow 2 e.toNat * Nat.pow 5 (-e).toNat
  { value := scale (4 * x.significand)
    low := scale (4 * x.significand - if x.narrowBelow then 1 else 2)
    high := scale (4 * x.significand + 2)
    places := (-e).toNat
    inclusive := x.significand % 2 = 0 }

/-- The number of decimal digits of `n`, at least one. -/
def digitCount (n : Nat) : Nat := (Nat.toDigits 10 n).length

/-! ## A set number of places -/

/-- The exact value of `x` in units of `10 ^ -places`, rounded. -/
def Binary.roundPlaces (x : Binary) (places : Nat) : Nat :=
  let s := x.scaled
  roundHalfEven (s.value * Nat.pow 10 places) (Nat.pow 10 s.places)

/-- Puts a point before the last `places` digits of `n`; no point when `places` is zero. -/
def withPoint (n places : Nat) : String :=
  let ds := Nat.toDigits 10 n
  if places = 0 then String.ofList ds else
  let padded := List.replicate (places + 1 - ds.length) '0' ++ ds
  String.ofList (padded.take (padded.length - places)) ++ "."
    ++ String.ofList (padded.drop (padded.length - places))

/-- `x` with exactly `places` fraction digits. Behind the places that its exact value takes there
are zeros. -/
def fixed (x : Binary) (places : Nat) : String :=
  let written := min places (x.scaled.places + 1)
  withPoint (x.roundPlaces written) written ++ String.ofList (List.replicate (places - written) '0')

/-- More significant digits than the exact value of any double has. -/
def longest : Nat := 800

/-- The first `places + 1` significant digits of `x`, as an integer, and the decimal exponent of
the first of them. Rounding up to the next power of ten moves the exponent. Zeros behind the
exact value may be missing. -/
def significant (x : Binary) (places : Nat) : Nat × Int :=
  let places := min places longest
  let s := x.scaled
  if s.value = 0 then (0, 0) else
  let n := digitCount s.value
  let e : Int := (n : Int) - 1 - s.places
  let d := if n ≤ places + 1 then s.value * Nat.pow 10 (places + 1 - n)
    else roundHalfEven s.value (Nat.pow 10 (n - (places + 1)))
  if d = Nat.pow 10 (places + 1) then (Nat.pow 10 places, e + 1) else (d, e)

end IncrementalC.Decimal
