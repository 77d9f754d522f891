import IncrementalC.Decimal.Binary

/-!
# The shortest decimal that identifies a number

`shortest x` has the fewest digits among the decimals that read back to `x`; of two such decimals
it is the one nearer to `x`, and of two equally near ones the one that `Ties` says. `Notation` says
how the digits are laid out, and `render`, `renderSingle` write a number in a notation.
-/
namespace IncrementalC.Decimal
set_option autoImplicit false

/-- The decimal `digits * 10 ^ exponent`. -/
structure Dec where
  digits : Nat
  exponent : Int
deriving Repr, DecidableEq

/-- `n`, a multiple of the scale of `s`, rounds to the value of `s`. -/
def Scaled.covers (s : Scaled) (n : Nat) : Bool :=
  (s.low < n || (s.inclusive && s.low == n)) && (n < s.high || (s.inclusive && n == s.high))

/-- Which one of two equally near decimals is taken. -/
inductive Ties where
  | greater
  /-- The one with an even last digit. -/
  | even
deriving DecidableEq, Repr

/-- The one of `n` and its successor. -/
def Ties.choose : Ties → Nat → Nat
  | .greater, n => n + 1
  | .even, n => if n % 2 = 0 then n else n + 1

/-- The better of the two neighbours of the value on the grid of multiples of `10 ^ step`, if one
of them reads back. -/
def Scaled.onGrid? (s : Scaled) (ties : Ties) (step : Nat) : Option Nat :=
  let below := s.value / Nat.pow 10 step
  let low := below * Nat.pow 10 step
  let high := low + Nat.pow 10 step
  match s.covers low, s.covers high with
  | true, true => some <| match compare (s.value - low) (high - s.value) with
    | .lt => below
    | .gt => below + 1
    | .eq => ties.choose below
  | true, false => some below
  | false, true => some (below + 1)
  | false, false => none

/-- Moves trailing zeros of the digits into the exponent. -/
def Dec.strip : Nat → Dec → Dec
  | 0, d => d
  | fuel + 1, d =>
    if d.digits ≠ 0 ∧ d.digits % 10 = 0 then Dec.strip fuel ⟨d.digits / 10, d.exponent + 1⟩ else d

/-- The grids are tried from the coarsest one that has a digit of `x` on. -/
def shortest (ties : Ties) (x : Binary) : Dec :=
  let s := x.scaled
  let n := digitCount s.value
  let found := (List.range n).findSome? fun k =>
    (s.onGrid? ties (n - 1 - k)).map fun d => (⟨d, ((n - 1 - k : Nat) : Int) - s.places⟩ : Dec)
  let d := found.getD ⟨s.value, -s.places⟩
  d.strip (digitCount d.digits)

/-! ## Layout -/

/-- How a number is written. -/
structure Notation where
  /-- The least exponent of the leading digit that is still written positionally. -/
  plainFrom : Option Int
  /-- The exponent of the leading digit from which on the exponent form is used. -/
  plainBelow : Option Int
  /-- Integral values in positional form end in `.0`. -/
  pointZero : Bool
  /-- A positive exponent has a sign. -/
  plusSign : Bool
  ties : Ties

/-- Whether a leading digit of weight `10 ^ e` is written positionally. -/
def Notation.isPlain (n : Notation) (e : Int) : Bool :=
  n.plainFrom.all (· ≤ e) && n.plainBelow.all (e < ·)

/-- The digits with a point behind the digit of weight one. -/
def positional (pointZero : Bool) (d : Dec) : String :=
  let ds := Nat.toDigits 10 d.digits
  if 0 ≤ d.exponent then
    String.ofList (ds ++ List.replicate d.exponent.toNat '0') ++ (if pointZero then ".0" else "")
  else
    let k := (-d.exponent).toNat
    let padded := List.replicate (k + 1 - ds.length) '0' ++ ds
    String.ofList (padded.take (padded.length - k)) ++ "."
      ++ String.ofList (padded.drop (padded.length - k))

/-- One digit, a point if more follow, and the exponent. -/
def scientific (plusSign : Bool) (d : Dec) : String :=
  let ds := Nat.toDigits 10 d.digits
  let e := d.exponent + ds.length - 1
  let mantissa := match ds with
    | [] => ""
    | [c] => String.ofList [c]
    | c :: r => String.ofList (c :: '.' :: r)
  mantissa ++ (if plusSign && 0 < e then "e+" else "e") ++ toString e

def Notation.layout (n : Notation) (d : Dec) : String :=
  if d.digits = 0 then (if n.pointZero then "0.0" else "0")
  else if n.isPlain (d.exponent + digitCount d.digits - 1) then positional n.pointZero d
  else scientific n.plusSign d

/-- Values are written positionally from `0.0001` up to sixteen digits before the point, with `.0`
behind an integral value, and otherwise with an exponent. -/
def valueNotation : Notation := ⟨some (-4), some 16, true, false, .greater⟩

/-- All digits are written out. -/
def plainNotation : Notation := ⟨none, none, false, false, .greater⟩

/-- Documents write numbers positionally from `0.00001` on, and a sign before every exponent. -/
def jsonNotation : Notation := ⟨some (-5), some 16, true, true, .even⟩

/-- Sign, special values and layout of a number. -/
def render (n : Notation) (x : Double) : String :=
  if x.isNaN then "NaN" else
  let sign := if x.isNegative then "-" else ""
  sign ++ if x.isInfinite then "inf" else n.layout (shortest n.ties (.ofDouble x))

/-- As `render`, with the digits that identify the nearest single-precision number. -/
def renderSingle (n : Notation) (x : Double) : String :=
  if x.roundSingle.isFinite then
    (if x.isNegative then "-" else "") ++ n.layout (shortest n.ties (.ofSingle x))
  else render n x.roundSingle

end IncrementalC.Decimal
