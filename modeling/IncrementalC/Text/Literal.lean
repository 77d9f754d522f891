/-!
# Numerals and literals

* `numeralValue base digit ds`: the number that the digits `ds` write in a base. Each digit adds to the base times the number in
  front of it (`numeralValue_eq_foldl`).
* `stringLiteral`, `charLiteral`: a text or a byte as the lexer reads it back.
-/
namespace IncrementalC.Text
set_option autoImplicit false

/-! ## Numerals -/

/-- A number that is read digit by digit. The last digits are gathered in a short number of their
own, so that a long numeral takes few operations on long numbers. -/
structure Numeral where
  high : Nat := 0
  low : Nat := 0
  /-- The weight of `high`. -/
  scale : Nat := 1

namespace Numeral

/-- From this weight on, the last digits are a long number, too. -/
def longScale : Nat := Nat.pow 2 4096

def value (n : Numeral) : Nat := n.high * n.scale + n.low

/-- Writes one more digit. -/
def add (base : Nat) (n : Numeral) (d : Nat) : Numeral :=
  if n.scale < longScale then { n with low := base * n.low + d, scale := base * n.scale }
  else { high := n.value, low := d, scale := base }

theorem value_add (base : Nat) (n : Numeral) (d : Nat) :
    (n.add base d).value = base * n.value + d := by
  unfold add
  split
  · simp only [value, Nat.mul_add, Nat.add_assoc, Nat.mul_left_comm]
  · simp only [value, Nat.mul_comm]

theorem value_foldl (base : Nat) (digit : Char → Nat) (ds : List Char) (n : Numeral) :
    (ds.foldl (fun n c => n.add base (digit c)) n).value =
      ds.foldl (fun v c => base * v + digit c) n.value := by
  induction ds generalizing n with
  | nil => rfl
  | cons c ds ih => simp [ih, value_add]

end Numeral

def numeralValue (base : Nat) (digit : Char → Nat) (ds : List Char) : Nat :=
  let n : Numeral := ds.foldl (fun n c => n.add base (digit c)) {}
  n.value

theorem numeralValue_eq_foldl (base : Nat) (digit : Char → Nat) (ds : List Char) :
    numeralValue base digit ds = ds.foldl (fun v c => base * v + digit c) 0 :=
  Numeral.value_foldl base digit ds {}

/-! ## Literals as source text -/

/-- A backslash and three octal digits. -/
def octalEscape (n : Nat) : List Char :=
  let ds := Nat.toDigits 8 n
  '\\' :: (List.replicate (3 - ds.length) '0' ++ ds)

/-- A character inside a literal that `quote` delimits. -/
def escape (quote c : Char) : List Char :=
  if c = '\n' then ['\\', 'n']
  else if c = '\t' then ['\\', 't']
  else if c = '\r' then ['\\', 'r']
  else if c = '\\' then ['\\', '\\']
  else if c = quote then ['\\', c]
  else if c.toNat < 0x20 ∨ c.toNat = 0x7F then octalEscape c.toNat
  else [c]

def stringLiteral (s : String) : String :=
  String.ofList ('"' :: (s.toList.flatMap (escape '"') ++ ['"']))

/-- The literal of the low byte of `value`. -/
def charLiteral (value : Int64) : String :=
  let n := (value.toUInt64 &&& 0xFF).toNat
  let inside := if n < 0x80 then escape '\'' (Char.ofNat n) else octalEscape n
  String.ofList ('\'' :: (inside ++ ['\'']))

end IncrementalC.Text
