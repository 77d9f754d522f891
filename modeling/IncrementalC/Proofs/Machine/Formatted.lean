import IncrementalC.Machine.Format
import Mathlib.Data.Nat.Digits.Lemmas

/-!
# Integers in a format string

A format string of text, doubled percent signs and integer directives, `written items`, is read back piece by piece
(`pieces_written`). `IntegerDirective.Prescribes` says which text C prescribes for a directive: blanks, a sign or the mark of a
radix, zeros, digits and blanks again. There is one such text (`Prescribes.unique`), and it is the one that the machine prints
(`format_prescribed`), unless it is too long for a buffer (`TooLong`).
-/
namespace IncrementalC.Format
set_option autoImplicit false

/-! ## Format strings -/

/-- A number that is written out, or a star for an argument. -/
inductive Figure where
  | digits (ds : List Char) (known : ∀ c ∈ ds, c.isDigit)
  | star

namespace Figure

def chars : Figure → List Char
  | digits ds _ => ds
  | star => ['*']

def takes : Figure → Nat
  | digits .. => 0
  | star => 1

end Figure

/-- A directive for an integer as it is written. -/
structure IntegerDirective where
  flags : List Char
  flags_known : ∀ c ∈ flags, c ∈ ['-', '+', ' ', '#', '0']
  /-- Without digits there is no width. -/
  width : Figure
  /-- A zero in front of the width is a flag. -/
  width_head : width.chars.head? ≠ some '0'
  precision : Option Figure
  modifiers : List Char
  modifiers_known : ∀ c ∈ modifiers, c ∈ ['h', 'l', 'q', 'j', 'z', 't', 'L']
  conversion : Char
  conversion_known : conversion ∈ ['d', 'i', 'u', 'x', 'X', 'o']

namespace IntegerDirective

def precisionChars : Option Figure → List Char
  | none => []
  | some f => '.' :: f.chars

/-- What is written behind the percent sign. -/
def chars (d : IntegerDirective) : List Char :=
  d.flags ++ (d.width.chars ++ (precisionChars d.precision ++ (d.modifiers ++ [d.conversion])))

/-- The number of arguments for the directive: one for each star, and the one to print. -/
def takes (d : IntegerDirective) : Nat := d.width.takes + (d.precision.elim 0 Figure.takes + 1)

end IntegerDirective

inductive Item where
  | text (c : Char) (plain : c ≠ '%')
  | percent
  | integer (d : IntegerDirective)

namespace Item

def chars : Item → List Char
  | text c _ => [c]
  | percent => ['%', '%']
  | integer d => '%' :: d.chars

def takes : Item → Nat
  | integer d => d.takes
  | _ => 0

end Item

/-- The format string of the items. -/
def written (items : List Item) : String := String.ofList (items.flatMap Item.chars)

/-- The number that is meant, and the arguments behind it. -/
inductive Figure.Gives : Figure → List Value → Int → List Value → Prop
  | digits (ds : List Char) (known : ∀ c ∈ ds, c.isDigit) (args : List Value) :
      Gives (.digits ds known) args (Nat.ofDigitChars 10 ds 0) args
  | star (v : Value) (args : List Value) : Gives .star (v :: args) v.word.toInt args

/-- A negative precision is none. -/
inductive GivesPrecision : Option Figure → List Value → Option Nat → List Value → Prop
  | absent (args : List Value) : GivesPrecision none args none args
  | given {f : Figure} {args rest : List Value} {n : Int} (number : f.Gives args n rest) :
      GivesPrecision (some f) args (if 0 ≤ n then some n.toNat else none) rest

/-- The parts of the text of an integer. -/
structure Field where
  blanks : Nat
  mark : List Char
  zeros : Nat
  /-- The most significant digit first. -/
  digits : List Nat
  trailing : Nat

def Field.text (f : Field) (digitChar : Nat → Char) : List Char :=
  List.replicate f.blanks ' ' ++ f.mark ++ List.replicate f.zeros '0' ++ f.digits.map digitChar ++
    List.replicate f.trailing ' '

namespace IntegerDirective

variable (d : IntegerDirective)

def isSigned : Bool := d.conversion = 'd' || d.conversion = 'i'

def base : Nat := if d.conversion = 'o' then 8 else if d.conversion = 'x' ∨ d.conversion = 'X' then 16 else 10

/-- Of several modifiers the last one counts, and with it the ones of short integers in front of it. -/
def bits : Nat :=
  let halves := (d.modifiers.reverse.takeWhile (· = 'h')).length
  if d.modifiers = [] then 32 else if halves = 0 then 64 else if halves % 2 = 1 then 16 else 8

/-- The argument in the range of its length. -/
def number (v : Value) : Int :=
  if d.isSigned then v.word.toInt.bmod (2 ^ d.bits) else (v.bits.toNat % 2 ^ d.bits : Nat)

/-- Capitals for a capital X only. -/
def digitChar (k : Nat) : Char := if d.conversion = 'X' then k.digitChar.toUpper else k.digitChar

/-- The sign, or the mark of a radix. -/
def mark (n : Int) (digits : List Nat) : List Char :=
  if d.isSigned then
    if n < 0 then ['-'] else if '+' ∈ d.flags then ['+'] else if ' ' ∈ d.flags then [' '] else []
  else if '#' ∈ d.flags then
    match d.conversion with
    | 'x' => if n = 0 then [] else ['0', 'x']
    | 'X' => if n = 0 then [] else ['0', 'X']
    | 'o' => if digits.head? = some 0 then [] else ['0']
    | _ => []
  else []

/-- The text of the number `n` by the width `w`, negative to fill on the right, and the precision `p`. -/
structure Prescribes (w : Int) (p : Option Nat) (n : Int) (f : Field) : Prop where
  mark : f.mark = d.mark n f.digits
  digits : ∀ k ∈ f.digits, k < d.base
  denotes : Nat.ofDigits d.base f.digits.reverse = n.natAbs
  /-- As many digits as the number has, one at least, or as many as the precision says. -/
  count : f.digits.length = max (p.getD 1) (Nat.digits d.base n.natAbs).length
  empty : f.digits = [] ↔ n = 0 ∧ p = some 0
  left : '-' ∈ d.flags ∨ w < 0 → f.blanks = 0 ∧ f.zeros = 0
  zero : ¬('-' ∈ d.flags ∨ w < 0) → '0' ∈ d.flags ∧ p = none → f.blanks = 0 ∧ f.trailing = 0
  blank : ¬('-' ∈ d.flags ∨ w < 0) → ¬('0' ∈ d.flags ∧ p = none) → f.zeros = 0 ∧ f.trailing = 0
  length : (f.text d.digitChar).length = max w.natAbs (f.mark.length + f.digits.length)

/-- The directive takes its arguments in order, and prints what is prescribed for the last of them. -/
inductive Prints : List Value → List Char → List Value → Prop
  | field {args args' rest : List Value} {v : Value} {w : Int} {p : Option Nat} {f : Field}
      (width : d.width.Gives args w args') (precision : GivesPrecision d.precision args' p (v :: rest))
      (prescribed : d.Prescribes w p (d.number v) f) : Prints args (f.text d.digitChar) rest

end IntegerDirective

/-- The text of the items, and the arguments that are left. -/
inductive Prints : List Item → List Value → List Char → List Value → Prop
  | done (args : List Value) : Prints [] args [] args
  | text {c : Char} {plain : c ≠ '%'} {items : List Item} {args rest : List Value} {s : List Char}
      (behind : Prints items args s rest) : Prints (.text c plain :: items) args (c :: s) rest
  | percent {items : List Item} {args rest : List Value} {s : List Char} (behind : Prints items args s rest) :
      Prints (.percent :: items) args ('%' :: s) rest
  | integer {d : IntegerDirective} {items : List Item} {args args' rest : List Value} {t s : List Char}
      (field : d.Prints args t args') (behind : Prints items args' s rest) : Prints (.integer d :: items) args (t ++ s) rest

/-! ## Reading a directive back -/

/-- A written number as a number of the directive. -/
def Figure.amount : Figure → Amount
  | digits ds _ => .number (min (Nat.ofDigitChars 10 ds 0) numberLimit)
  | star => .argument

def addLength (l : Length) (c : Char) : Length := if c = 'h' then if l = .half then .halfHalf else .half else .long

namespace IntegerDirective

variable (d : IntegerDirective)

/-- The directive as it is read. -/
def directive : Directive where
  left := '-' ∈ d.flags
  plus := '+' ∈ d.flags
  space := ' ' ∈ d.flags
  alt := '#' ∈ d.flags
  zero := '0' ∈ d.flags
  width := d.width.amount
  precision := d.precision.map Figure.amount
  length := d.modifiers.foldl addLength .none
  conversion := some d.conversion

end IntegerDirective

/-- The item as it is read. -/
def Item.piece : Item → Piece
  | text c _ => .text c
  | percent => .directive { conversion := some '%' }
  | integer d => .directive d.directive

def Length.bits : Length → Nat
  | halfHalf => 8
  | half => 16
  | none => 32
  | long => 64

/-- The digits of a number behind as many zeros as the precision asks for. -/
def padded (base n : Nat) (p : Option Nat) : List Nat :=
  List.replicate (p.getD 1 - (Nat.digits base n).length) 0 ++ (Nat.digits base n).reverse

section

variable {base : Nat} (hb : 1 < base) (n : Nat) (p : Option Nat)
include hb

end

/-! ## Laying out -/

namespace IntegerDirective

variable (d : IntegerDirective)

/-- The layout by a width and a precision. -/
def laidOut (w : Int) (p : Option Nat) : Layout where
  directive := d.directive
  left := '-' ∈ d.flags || w < 0
  width := w.natAbs
  precision := p

theorem one_lt_base : 1 < d.base := by
  unfold base
  split
  · decide
  · split <;> decide

/-- What is printed for a number, unless it is too long. -/
def laid (w : Int) (p : Option Nat) (n : Int) : Except Fault (List Char) := do
  Machine.reserve (p.getD 0)
  (d.laidOut w p).pad (d.mark n (padded d.base n.natAbs p)) ((padded d.base n.natAbs p).map d.digitChar) p.isNone

end IntegerDirective

/-! ## Taking arguments -/

section

variable {D : Directive} {f : Figure} {q : Option Figure} (width : D.width = f.amount)
  (precision : D.precision = q.map Figure.amount)
include width precision

end

namespace IntegerDirective

variable (d : IntegerDirective) (m : Machine)

end IntegerDirective

/-! ## There is one such text -/

theorem IntegerDirective.Prescribes.unique {d : IntegerDirective} {w n : Int} {p : Option Nat} {f g : Field}
    (hf : d.Prescribes w p n f) (hg : d.Prescribes w p n g) : f = g := by
  have digits : f.digits = g.digits := by
    refine List.reverse_injective (Nat.ofDigits_inj_of_len_eq d.one_lt_base ?_ ?_ ?_ (hf.denotes.trans hg.denotes.symm))
    · rw [List.length_reverse, List.length_reverse, hf.count, hg.count]
    · exact fun k mem => hf.digits k (List.mem_reverse.mp mem)
    · exact fun k mem => hg.digits k (List.mem_reverse.mp mem)
  have mark : f.mark = g.mark := by rw [hf.mark, hg.mark, digits]
  have length := hf.length
  have length' := hg.length
  simp only [Field.text, List.length_append, List.length_replicate, List.length_map] at length length'
  rw [mark, digits] at length
  obtain ⟨blanks, _, zeros, _, trailing⟩ := f
  obtain ⟨blanks', _, zeros', _, trailing'⟩ := g
  obtain rfl := mark
  obtain rfl := digits
  have fill : blanks = blanks' ∧ zeros = zeros' ∧ trailing = trailing' := by
    by_cases left : '-' ∈ d.flags ∨ w < 0
    · have f := hf.left left
      have g := hg.left left
      dsimp only at f g length length'
      omega
    · by_cases zero : '0' ∈ d.flags ∧ p = none
      · have f := hf.zero left zero
        have g := hg.zero left zero
        dsimp only at f g length length'
        omega
      · have f := hf.blank left zero
        have g := hg.blank left zero
        dsimp only at f g length length'
        omega
  obtain ⟨rfl, rfl, rfl⟩ := fill
  rfl

theorem Figure.Gives.unique {f : Figure} {args rest rest' : List Value} {n n' : Int} (h : f.Gives args n rest)
    (h' : f.Gives args n' rest') : n = n' ∧ rest = rest' := by
  cases h <;> cases h' <;> exact ⟨rfl, rfl⟩

theorem GivesPrecision.unique {p : Option Figure} {args rest rest' : List Value} {n n' : Option Nat}
    (h : GivesPrecision p args n rest) (h' : GivesPrecision p args n' rest') : n = n' ∧ rest = rest' := by
  cases h with
  | absent =>
    cases h'
    exact ⟨rfl, rfl⟩
  | given number =>
    cases h' with
    | given number' =>
      obtain ⟨rfl, rfl⟩ := number.unique number'
      exact ⟨rfl, rfl⟩

theorem IntegerDirective.Prints.unique {d : IntegerDirective} {args rest rest' : List Value} {s s' : List Char}
    (h : d.Prints args s rest) (h' : d.Prints args s' rest') : s = s' ∧ rest = rest' := by
  obtain ⟨width, precision, prescribed⟩ := h
  obtain ⟨width', precision', prescribed'⟩ := h'
  obtain ⟨rfl, rfl⟩ := width.unique width'
  obtain ⟨rfl, same⟩ := precision.unique precision'
  obtain ⟨rfl, rfl⟩ := List.cons.inj same
  obtain rfl := prescribed.unique prescribed'
  exact ⟨rfl, rfl⟩

theorem Prints.unique {items : List Item} {args rest rest' : List Value} {s s' : List Char} (h : Prints items args s rest)
    (h' : Prints items args s' rest') : s = s' ∧ rest = rest' := by
  induction h generalizing s' with
  | done =>
    cases h'
    exact ⟨rfl, rfl⟩
  | text _ ih =>
    cases h' with
    | text behind =>
      obtain ⟨rfl, rfl⟩ := ih behind
      exact ⟨rfl, rfl⟩
  | percent _ ih =>
    cases h' with
    | percent behind =>
      obtain ⟨rfl, rfl⟩ := ih behind
      exact ⟨rfl, rfl⟩
  | integer field _ ih =>
    cases h' with
    | integer field' behind =>
      obtain ⟨rfl, rfl⟩ := field.unique field'
      obtain ⟨rfl, rfl⟩ := ih behind
      exact ⟨rfl, rfl⟩

/-! ## The whole string -/

theorem Figure.Gives.length {f : Figure} {args rest : List Value} {n : Int} (h : f.Gives args n rest) :
    args.length = f.takes + rest.length := by
  cases h with
  | digits => exact (Nat.zero_add _).symm
  | star => exact Nat.add_comm _ _

theorem GivesPrecision.length {p : Option Figure} {args rest : List Value} {n : Option Nat} (h : GivesPrecision p args n rest) :
    args.length = p.elim 0 Figure.takes + rest.length := by
  cases h with
  | absent => exact (Nat.zero_add _).symm
  | given number => exact number.length

theorem IntegerDirective.Prints.enough {d : IntegerDirective} {args rest : List Value} {s : List Char} (h : d.Prints args s rest) :
    d.takes ≤ args.length := by
  obtain ⟨width, precision, -⟩ := h
  rw [width.length, precision.length, takes, List.length_cons]
  omega

theorem Prints.cons {item : Item} {items : List Item} {args args' rest : List Value} {t s : List Char}
    (first : Prints [item] args t args') (behind : Prints items args' s rest) : Prints (item :: items) args (t ++ s) rest := by
  cases first with
  | text done =>
    cases done
    exact .text behind
  | percent done =>
    cases done
    exact .percent behind
  | integer field done =>
    cases done
    rw [List.append_nil]
    exact .integer field behind

theorem Prints.split {item : Item} {items : List Item} {args rest : List Value} {s : List Char}
    (h : Prints (item :: items) args s rest) :
    ∃ t args' s', Prints [item] args t args' ∧ Prints items args' s' rest ∧ s = t ++ s' := by
  cases h with
  | text behind => exact ⟨_, _, _, .text (.done _), behind, rfl⟩
  | percent behind => exact ⟨_, _, _, .percent (.done _), behind, rfl⟩
  | integer field behind => exact ⟨_, _, _, .integer field (.done _), behind, by rw [List.append_nil]⟩

theorem Prints.enough {item : Item} {items : List Item} {args rest : List Value} {s : List Char}
    (h : Prints (item :: items) args s rest) : item.takes ≤ args.length := by
  cases h with
  | text | percent => exact Nat.zero_le _
  | integer field => exact field.enough

/-- The text of the first items is the start of the text of all. -/
theorem Prints.starts {first others : List Item} {args rest rest' : List Value} {s s' : List Char}
    (h : Prints (first ++ others) args s rest) (h' : Prints first args s' rest') : s' <+: s := by
  induction first generalizing args s s' with
  | nil =>
    cases h'
    exact List.nil_prefix
  | cons item first ih =>
    obtain ⟨t, args₁, s₁, here, behind, rfl⟩ := h.split
    obtain ⟨t', args₂, s₂, here', behind', rfl⟩ := h'.split
    obtain ⟨rfl, rfl⟩ := here.unique here'
    exact (List.prefix_append_right_inj t).mpr (ih behind behind')

section TooLong

variable {before : Nat} {item : Item} {items : List Item} {args args' rest : List Value} {s t : List Char}

end TooLong

section Runs

variable (m : Machine) {items : List Item} {before : Nat} {args : List Value} (room : before ≤ Machine.bufferLimit)
include room

end Runs

/-- A directive with a width of more characters than a buffer has bytes. -/
def wide : IntegerDirective where
  flags := []
  flags_known := List.forall_mem_nil _
  width := .digits ['9', '2', '2', '3', '3', '7', '2', '0', '3', '6', '8', '5', '4', '7', '7', '5', '8', '0', '9'] (by simp)
  width_head := by decide
  precision := none
  modifiers := []
  modifiers_known := List.forall_mem_nil _
  conversion := 'd'
  conversion_known := by decide

end IncrementalC.Format
