import IncrementalC.Decimal.Binary
import IncrementalC.Decimal.Reading
import IncrementalC.Machine.Basic

/-!
# Formatted output

`format m fmt args` writes a format string with its directives filled in. A directive is read into a
`Directive` first: flags, width, precision, length and conversion. No text may get longer than a buffer can
be; room for what is filled in is asked for before it is written.
-/
namespace IncrementalC
set_option autoImplicit false

namespace Format

inductive Length where
  | half | halfHalf | none | long
deriving DecidableEq, Repr

/-- A number in a directive, or a star that takes it from the arguments. -/
inductive Amount where
  | number (n : Nat)
  | argument
deriving DecidableEq, Repr

structure Directive where
  left : Bool := false
  plus : Bool := false
  space : Bool := false
  alt : Bool := false
  zero : Bool := false
  width : Amount := .number 0
  precision : Option Amount := none
  length : Length := .none
  /-- Missing at the end of the format string. -/
  conversion : Option Char := none
deriving DecidableEq, Repr

/-! ## Reading a directive -/

def addFlag? (d : Directive) : Char → Option Directive
  | '-' => some { d with left := true }
  | '+' => some { d with plus := true }
  | ' ' => some { d with space := true }
  | '#' => some { d with alt := true }
  | '0' => some { d with zero := true }
  | _ => none

def readFlags (d : Directive) : List Char → Directive × List Char
  | [] => (d, [])
  | c :: s =>
    match addFlag? d c with
    | some d => readFlags d s
    | none => (d, c :: s)

/-- The greatest number in a directive. Greater ones are read as this one. -/
def numberLimit : Nat := 18446744073709551615

def readNumber (s : List Char) : Nat × List Char :=
  (min (Decimal.digitsValue (s.takeWhile Char.isDigit)) numberLimit, s.dropWhile Char.isDigit)

def readAmount : List Char → Amount × List Char
  | '*' :: s => (.argument, s)
  | s =>
    let (n, s) := readNumber s
    (.number n, s)

def readPrecision : List Char → Option Amount × List Char
  | '.' :: s =>
    let (a, s) := readAmount s
    (some a, s)
  | s => (none, s)

def addLength? (l : Length) : Char → Option Length
  | 'h' => some (if l = .half then .halfHalf else .half)
  | 'l' | 'q' | 'j' | 'z' | 't' | 'L' => some .long
  | _ => none

def readLength (l : Length) : List Char → Length × List Char
  | [] => (l, [])
  | c :: s =>
    match addLength? l c with
    | some l => readLength l s
    | none => (l, c :: s)

/-- The directive behind a percent sign, and what follows it. -/
def readDirective (s : List Char) : Directive × List Char :=
  let (d, s) := readFlags {} s
  let (width, s) := readAmount s
  let (precision, s) := readPrecision s
  let (length, s) := readLength .none s
  ({ d with width, precision, length, conversion := s.head? }, s.tail)

/-- A format string in pieces: text and directives. -/
inductive Piece where
  | text (c : Char)
  | directive (d : Directive)
deriving DecidableEq, Repr

theorem length_readFlags_le (d : Directive) (s : List Char) :
    (readFlags d s).2.length ≤ s.length := by
  fun_induction readFlags d s with
  | case1 => simp
  | case2 d c s d' h ih => simpa using Nat.le_succ_of_le ih
  | case3 => simp

theorem length_dropWhile_le {α : Type} (p : α → Bool) (s : List α) :
    (s.dropWhile p).length ≤ s.length := (s.dropWhile_sublist p).length_le

theorem length_readAmount_le (s : List Char) : (readAmount s).2.length ≤ s.length := by
  unfold readAmount
  split
  · simp
  · exact length_dropWhile_le _ _

theorem length_readPrecision_le (s : List Char) : (readPrecision s).2.length ≤ s.length := by
  unfold readPrecision
  split
  · simpa using Nat.le_succ_of_le (length_readAmount_le _)
  · simp

theorem length_readLength_le (l : Length) (s : List Char) :
    (readLength l s).2.length ≤ s.length := by
  fun_induction readLength l s with
  | case1 => simp
  | case2 l c s l' h ih => simpa using Nat.le_succ_of_le ih
  | case3 => simp

theorem length_readDirective_le (s : List Char) : (readDirective s).2.length ≤ s.length := by
  have h1 := length_readFlags_le {} s
  have h2 := length_readAmount_le (readFlags {} s).2
  have h3 := length_readPrecision_le (readAmount (readFlags {} s).2).2
  have h4 := length_readLength_le .none (readPrecision (readAmount (readFlags {} s).2).2).2
  simp only [readDirective, List.length_tail]
  omega

def pieces : List Char → List Piece
  | [] => []
  | '%' :: s => .directive (readDirective s).1 :: pieces (readDirective s).2
  | c :: s => .text c :: pieces s
termination_by s => s.length
decreasing_by
  · have := length_readDirective_le s
    simp only [List.length_cons]
    omega
  · simp

/-! ## Laying out -/

/-- A directive whose width and precision are numbers. -/
structure Layout where
  directive : Directive
  left : Bool
  width : Nat
  precision : Option Nat

/-- The bytes of a text. -/
def byteSize (s : List Char) : Nat := (String.ofList s).utf8ByteSize

theorem byteSize_append (s t : List Char) : byteSize (s ++ t) = byteSize s + byteSize t := by
  simp [byteSize, String.ofList_append]

/-- What is missing up to the width. -/
def Layout.missing (l : Layout) (lead body : List Char) : Nat := l.width - (lead.length + body.length)

/-- `lead` is a sign or a radix mark. Zeros go behind it, blanks in front. -/
def Layout.filled (l : Layout) (lead body : List Char) (zeros : Bool) : List Char :=
  let fill := l.missing lead body
  if l.left then lead ++ body ++ List.replicate fill ' '
  else if l.directive.zero && zeros then lead ++ List.replicate fill '0' ++ body
  else List.replicate fill ' ' ++ lead ++ body

def Layout.pad (l : Layout) (lead body : List Char) (zeros : Bool) : Except Fault (List Char) := do
  Machine.reserve (byteSize lead + byteSize body + l.missing lead body)
  return l.filled lead body zeros

def Layout.sign (l : Layout) (negative : Bool) : List Char :=
  if negative then ['-']
  else if l.directive.plus then ['+']
  else if l.directive.space then [' ']
  else []

/-! ## Integers -/

def truncateSigned (v : Int64) : Length → Int64
  | .halfHalf => Scalar.wrap .i8 v
  | .half => Scalar.wrap .i16 v
  | .none => Scalar.wrap .i32 v
  | .long => v

def truncateUnsigned (v : UInt64) : Length → Nat
  | .halfHalf => v.toNat % UInt8.size
  | .half => v.toNat % UInt16.size
  | .none => v.toNat % UInt32.size
  | .long => v.toNat

/-- Digits, at least as many as the precision says. Zero with precision zero has none. -/
def digits (base n : Nat) (precision : Option Nat) : List Char :=
  let ds := Nat.toDigits base n
  match precision with
  | none => ds
  | some p => if p = 0 ∧ n = 0 then [] else List.replicate (p - ds.length) '0' ++ ds

def Layout.digits (l : Layout) (base n : Nat) : Except Fault (List Char) := do
  Machine.reserve (l.precision.getD 0)
  return Format.digits base n l.precision

def Layout.signed (l : Layout) (v : Int64) : Except Fault (List Char) := do
  let n := (truncateSigned v l.directive.length).toInt
  l.pad (l.sign (n < 0)) (← l.digits 10 n.natAbs) l.precision.isNone

/-- Digits in a base, with `mark` in front if the alternative form is asked for. -/
def Layout.unsigned (l : Layout) (v : UInt64) (base : Nat) (upper : Bool)
    (mark : Nat → List Char → List Char) : Except Fault (List Char) := do
  let n := truncateUnsigned v l.directive.length
  let ds ← l.digits base n
  let ds := if upper then ds.map Char.toUpper else ds
  l.pad (if l.directive.alt then mark n ds else []) ds l.precision.isNone

/-! ## Floats -/

/-- One digit, a point, `places` digits, and an exponent of at least two digits. -/
def exponentForm (x : Decimal.Binary) (places : Nat) : List Char :=
  let (d, e) := Decimal.significant x places
  let ds := Nat.toDigits 10 d
  let ds := ds ++ List.replicate (places + 1 - ds.length) '0'
  let mantissa := if places = 0 then ds else ds.take 1 ++ '.' :: ds.drop 1
  let size := Nat.toDigits 10 e.natAbs
  mantissa ++ ['e', if e < 0 then '-' else '+'] ++ List.replicate (2 - size.length) '0' ++ size

/-- Without zeros at the end of the fraction, and without a point that they leave. -/
def stripZeros (s : List Char) : List Char :=
  let mantissa := s.takeWhile (· != 'e')
  let exponent := s.dropWhile (· != 'e')
  let strip (m : List Char) :=
    ((m.reverse.dropWhile (· == '0')).dropWhile (· == '.')).reverse
  (if mantissa.contains '.' then strip mantissa else mantissa) ++ exponent

/-- The shorter of the two forms with `p` significant digits. -/
def generalForm (x : Decimal.Binary) (p : Nat) : List Char :=
  let e := (Decimal.significant x (p - 1)).2
  if e < -4 ∨ (p : Int) ≤ e then exponentForm x (p - 1)
  else (Decimal.fixed x ((p : Int) - 1 - e).toNat).toList

/-- The size of a float, its sign aside. -/
def Layout.size (l : Layout) (x : Double) (conversion : Char) : List Char :=
  if x.isNaN then ['n', 'a', 'n']
  else if x.isInfinite then ['i', 'n', 'f']
  else
    let b := Decimal.Binary.ofDouble x
    let precision := l.precision.getD 6
    if conversion = 'f' then
      let s := (Decimal.fixed b precision).toList
      if l.directive.alt && precision == 0 then s ++ ['.'] else s
    else if conversion = 'e' then exponentForm b precision
    else
      let s := generalForm b (max precision 1)
      if l.directive.alt then s else stripZeros s

def Layout.float (l : Layout) (x : Double) (conversion : Char) : Except Fault (List Char) := do
  let negative := !x.isNaN && x.isNegative
  if x.isFinite then Machine.reserve (l.precision.getD 0)
  let body := l.size x conversion.toLower
  let body := if conversion.isUpper then body.map Char.toUpper else body
  l.pad (l.sign negative) body x.isFinite

/-! ## The whole string -/

/-- The arguments that are left. A directive takes them one by one. -/
abbrev Formatting := StateT (List Value) (Except Fault)

def take : Formatting Value := do
  match ← get with
  | v :: rest =>
    set rest
    return v
  | [] => throw .formatArguments

def layout (d : Directive) : Formatting Layout := do
  let (left, width) ← match d.width with
    | .number n => pure (d.left, n)
    | .argument => do
      let w := (← take).word
      pure (d.left || w < 0, w.toInt.natAbs)
  let precision ← match d.precision with
    | none => pure none
    | some (.number n) => pure (some n)
    | some .argument => do
      let p := (← take).word.toInt
      pure (if 0 ≤ p then some p.toNat else none)
  return { directive := d, left, width, precision }

/-- The low byte of a value as a character. -/
def byteChar (v : Value) : Char := Char.ofNat v.word.toUInt64.toUInt8.toNat

def string (m : Machine) (l : Layout) (p : Value) : Except Fault (List Char) := do
  let s ← if p.bits = 0 then pure "(null)" else m.text p
  l.pad [] (match l.precision with
    | some n => s.toList.take n
    | none => s.toList) false

def directive (m : Machine) (d : Directive) : Formatting (List Char) := do
  let l ← layout d
  match d.conversion with
  | none => return ['%']
  | some c =>
    match c with
    | '%' => return ['%']
    | 'd' | 'i' => l.signed (← take).word
    | 'u' => l.unsigned (← take).bits 10 false fun _ _ => []
    | 'x' => l.unsigned (← take).bits 16 false fun n _ => if n = 0 then [] else ['0', 'x']
    | 'X' => l.unsigned (← take).bits 16 true fun n _ => if n = 0 then [] else ['0', 'X']
    | 'o' => l.unsigned (← take).bits 8 false fun _ ds => if ds.head? = some '0' then [] else ['0']
    | 'c' => l.pad [] [byteChar (← take)] false
    | 's' => string m l (← take)
    | 'p' =>
      let p := (← take).bits
      l.pad [] (if p = 0 then ['(', 'n', 'i', 'l', ')'] else (hexText p).toList) false
    | 'f' | 'F' | 'e' | 'E' | 'g' | 'G' => l.float (← take).real c
    | c => throw (.unsupportedConversion c)

def piece (m : Machine) : Piece → Formatting (List Char)
  | .text c => return [c]
  | .directive d => directive m d

/-- The texts of the pieces, behind a text of `before` bytes. -/
def all (m : Machine) : Nat → List Piece → Formatting (List Char)
  | _, [] => return []
  | before, p :: ps => do
    let s ← piece m p
    Machine.reserve (before + byteSize s)
    return s ++ (← all m (before + byteSize s) ps)

theorem all_cons (m : Machine) (before : Nat) (p : Piece) (ps : List Piece) (args : List Value) :
    (all m before (p :: ps)).run args = (do
      let r ← (piece m p).run args
      Machine.reserve (before + byteSize r.1)
      let r' ← (all m (before + byteSize r.1) ps).run r.2
      return (r.1 ++ r'.1, r'.2)) := by
  rw [all, StateT.run_bind]
  refine congrArg _ (funext fun r => ?_)
  rw [StateT.run_bind]
  show (Machine.reserve (before + byteSize r.1) >>= fun u => pure (u, r.2)) >>= _ = _
  rw [bind_assoc]
  rfl

end Format

/-- The format string with the arguments filled in. -/
def Machine.format (m : Machine) (fmt : String) (args : List Value) : Except Fault String :=
  (fun r => String.ofList r.1) <$> (Format.all m 0 (Format.pieces fmt.toList)).run args

end IncrementalC
