import IncrementalC.Double
import IncrementalC.Text.Literal

/-!
# Reading decimal numerals

`parse? s` reads an unsigned numeral: digits with at most one point and at least one digit, then
possibly an exponent. The value is the nearest double. `parseSigned?` takes a sign in front.
-/
namespace IncrementalC.Decimal
set_option autoImplicit false

/-- The value of a string of decimal digits. -/
def digitsValue (ds : List Char) : Nat := Text.numeralValue 10 (fun c => c.toNat - 48) ds

/-- Roughly the number of decimal digits of `n`. The logarithm of two is 0.30103. -/
def roughLength (n : Nat) : Nat := n.log2 * 30103 / 100000

/-- The double nearest to `m * 10 ^ e`. Exponents far beyond the range of doubles are decided before
any power is formed. -/
def nearest (m : Nat) (e : Int) : Double :=
  let top := e + roughLength m
  if m = 0 ∨ top < -400 then .ofFloat 0
  else if 400 < top then .infinity
  else .ofFloat (Float.ofScientific m (e < 0) e.natAbs)

/-- The value of the digits of an exponent. From 65536 on, no further digit is taken in. -/
def exponentValue (ds : List Char) : Nat :=
  ds.foldl (fun n c => if n < 65536 then 10 * n + (c.toNat - 48) else n) 0

/-- Reads a signed exponent, all of `s`. -/
def exponent? (s : List Char) : Option Int :=
  let (neg, ds) := match s with
    | '-' :: r => (true, r)
    | '+' :: r => (false, r)
    | r => (false, r)
  if ds.isEmpty || !ds.all Char.isDigit then none
  else some (if neg then -(exponentValue ds : Int) else exponentValue ds)

/-- Reads an unsigned decimal numeral, all of `s`. -/
def parse? (s : List Char) : Option Double :=
  let whole := s.takeWhile Char.isDigit
  let rest := s.dropWhile Char.isDigit
  let (frac, rest) := match rest with
    | '.' :: r => (r.takeWhile Char.isDigit, r.dropWhile Char.isDigit)
    | r => ([], r)
  if whole.isEmpty && frac.isEmpty then none else
  let m := digitsValue (whole ++ frac)
  match rest with
  | [] => some (nearest m (-frac.length))
  | c :: r =>
    if c == 'e' || c == 'E' then (exponent? r).map fun e => nearest m (e - frac.length)
    else none

def parseSigned? (s : List Char) : Option Double :=
  match s with
  | '-' :: r => (parse? r).map (-·)
  | '+' :: r => parse? r
  | r => parse? r

end IncrementalC.Decimal
