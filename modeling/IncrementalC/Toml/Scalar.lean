import IncrementalC.Text.Document
import IncrementalC.Toml.Reader

/-!
# Numbers, truth values and dates in TOML

A scalar without quotes is a word; `wordValue?` says what it means. A point in time is a document
of its own that no other value equals.
-/
namespace IncrementalC.Toml
set_option autoImplicit false
open Reader

/-! ## Numbers -/

/-- Digits with single underscores between them, without these. -/
def joinDigits? (isDigit : Char → Bool) : List Char → Option (List Char)
  | [] => none
  | [c] => if isDigit c then some [c] else none
  | c :: '_' :: rest => if isDigit c then (joinDigits? isDigit rest).map (c :: ·) else none
  | c :: rest => if isDigit c then (joinDigits? isDigit rest).map (c :: ·) else none

/-- Decimal digits without a zero in front of others. -/
def wholeDigits? (s : List Char) : Option (List Char) :=
  match s with
  | '0' :: _ :: _ => none
  | s => joinDigits? Char.isDigit s

def splitSign : List Char → Bool × List Char
  | '-' :: rest => (true, rest)
  | '+' :: rest => (false, rest)
  | s => (false, s)

/-- Integers have 64 bits. -/
def inRange (n : Int) : Option Int :=
  if Int64.minValue.toInt ≤ n ∧ n ≤ Int64.maxValue.toInt then some n else none

def integer? (s : List Char) : Option Int :=
  let based (base : Nat) (ds : List Char) : Option Int :=
    let isDigit (c : Char) : Bool := isHexDigit c && hexDigit c < base
    (joinDigits? isDigit ds).bind fun ds => inRange (Text.numeralValue base hexDigit ds)
  match s with
  | '0' :: 'x' :: ds => based 16 ds
  | '0' :: 'o' :: ds => based 8 ds
  | '0' :: 'b' :: ds => based 2 ds
  | s =>
    let (negative, ds) := splitSign s
    (wholeDigits? ds).bind fun ds =>
      let n : Int := Decimal.digitsValue ds
      inRange (if negative then -n else n)

/-- A numeral with a fraction or an exponent. Only negative ones may be too large for a double. -/
def float? (s : List Char) : Option Double := do
  let (negative, s) := splitSign s
  let isExponent (c : Char) : Bool := c = 'e' || c = 'E'
  let mantissa := s.takeWhile (!isExponent ·)
  let exponent := s.drop (mantissa.length + 1)
  let hasExponent := mantissa.length < s.length
  let whole ← wholeDigits? (mantissa.takeWhile (· ≠ '.'))
  let fraction ← match mantissa.dropWhile (· ≠ '.') with
    | [] => if hasExponent then some [] else none
    | _ :: ds => joinDigits? Char.isDigit ds
  let exponent : Int ←
    if hasExponent then
      let (down, ds) := splitSign exponent
      let ds ← joinDigits? Char.isDigit ds
      let n : Int := Decimal.exponentValue ds
      some (if down then -n else n)
    else some 0
  let x := Decimal.nearest (Decimal.digitsValue (whole ++ fraction)) (exponent - fraction.length)
  if negative then some (-x) else if x.isInfinite then none else some x

def specialFloat? (s : List Char) : Option Double :=
  let (negative, name) := splitSign s
  match String.ofList name with
  | "inf" => some (if negative then -.infinity else .infinity)
  | "nan" => some .nan
  | _ => none

/-! ## Dates -/

/-- The number that the next `width` digits write, and the rest. -/
def fixedDigits? (width : Nat) (s : List Char) : Option (Nat × List Char) :=
  let ds := s.take width
  if ds.length = width && ds.all Char.isDigit then some (Decimal.digitsValue ds, s.drop width) else none

def dropMark? (mark : Char) : List Char → Option (List Char)
  | c :: rest => if c = mark then some rest else none
  | [] => none

def daysOfMonth (year month : Nat) : Nat :=
  let leap := year % 4 = 0 && (year % 100 ≠ 0 || year % 400 = 0)
  if month = 2 then if leap then 29 else 28
  else if month = 4 || month = 6 || month = 9 || month = 11 then 30
  else 31

/-- The rest of a text behind a date. -/
def dropDate? (s : List Char) : Option (List Char) := do
  let (year, s) ← fixedDigits? 4 s
  let (month, s) ← fixedDigits? 2 (← dropMark? '-' s)
  let (day, s) ← fixedDigits? 2 (← dropMark? '-' s)
  if 1 ≤ month && month ≤ 12 && 1 ≤ day && day ≤ daysOfMonth year month then some s else none

def dropHourMinute? (s : List Char) : Option (List Char) := do
  let (hour, s) ← fixedDigits? 2 s
  let (minute, s) ← fixedDigits? 2 (← dropMark? ':' s)
  if hour < 24 && minute < 60 then some s else none

/-- The rest of a text behind a time of day. -/
def dropTime? (s : List Char) : Option (List Char) := do
  let (second, s) ← fixedDigits? 2 (← dropMark? ':' (← dropHourMinute? s))
  if 60 < second then none
  else match s with
    | '.' :: rest =>
      if (rest.head?.map Char.isDigit).getD false then some (rest.dropWhile Char.isDigit) else none
    | s => some s

def isOffset (s : List Char) : Bool :=
  match s with
  | [] => true
  | ['Z'] | ['z'] => true
  | '+' :: rest | '-' :: rest => dropHourMinute? rest = some []
  | _ => false

/-- A time of day behind a date. -/
def isTimeWithOffset (s : List Char) : Bool := ((dropTime? s).map isOffset).getD false

def isMoment (s : List Char) : Bool :=
  match dropDate? s with
  | some [] => true
  | some (c :: rest) => (c = 'T' || c = 't' || c = ' ') && isTimeWithOffset rest
  | none => dropTime? s = some []

/-- A point in time as a document. -/
def moment (s : List Char) : Document := .tagged "$datetime" (.str (String.ofList s))

/-! ## Words -/

def isWordChar (c : Char) : Bool := c.isAlphanum || c = '_' || c = '+' || c = '-' || c = '.' || c = ':'

def wordValue? (s : List Char) : Option Document :=
  if s = "true".toList then some (.bool true)
  else if s = "false".toList then some (.bool false)
  else if isMoment s then some (moment s)
  else match integer? s, float? s, specialFloat? s with
    | some n, _, _ => some (.int n)
    | none, some x, _ => some (.float x)
    | none, none, some x => some (.float x)
    | none, none, none => none

/-- Takes a word. A date takes in a time behind one blank. -/
def word : Reader (List Char) := do
  let s ← takeWhile isWordChar
  if dropDate? s = some [] then
    match ← get with
    | ' ' :: rest =>
      let time := rest.takeWhile isWordChar
      if isTimeWithOffset time then
        set (rest.drop time.length)
        return s ++ ' ' :: time
      else return s
    | _ => return s
  else return s

def scalar : Reader Document := do
  match wordValue? (← word) with
  | some d => return d
  | none => failure

end IncrementalC.Toml
