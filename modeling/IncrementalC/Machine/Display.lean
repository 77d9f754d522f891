import IncrementalC.Machine.Basic

/-!
# Values as text

`Machine.render` writes a value with its type, as in `(int) 4`. The shape says how to read it:
arrays and records are passed by address and read from memory.
-/
namespace IncrementalC
set_option autoImplicit false

namespace Display

def label : PrintShape → String
  | .scalar label _ | .char label _ | .cString label | .pointer label | .array label .. => label
  | .record label _ | .enum label => label
  | .dynamic => "auto"

/-- A byte inside quotes. -/
def escape (quote : Char) (b : UInt8) : List Char :=
  let c := Char.ofNat b.toNat
  if c = '\n' then ['\\', 'n']
  else if c = '\t' then ['\\', 't']
  else if c = '\r' then ['\\', 'r']
  else if c = '\\' then ['\\', '\\']
  else if b = 0 then ['\\', '0']
  else if c = quote then ['\\', quote]
  else if 0x20 ≤ b ∧ b ≤ 0x7E then [c]
  else
    let ds := Nat.toDigits 16 b.toNat
    '\\' :: 'x' :: (List.replicate (2 - ds.length) '0' ++ ds)

def quoted (quote : Char) (bytes : List UInt8) : String :=
  String.ofList (quote :: (bytes.flatMap (escape quote) ++ [quote]))

def braced (items : List String) : String :=
  if items.isEmpty then "\x7b\x7d" else "\x7b " ++ ", ".intercalate items ++ " \x7d"

def scalar (kind : Scalar) (v : Value) : String :=
  match kind with
  | .bool => toString v.isTruthy
  | .f32 => Decimal.renderSingle Decimal.valueNotation v.real
  | .f64 => Decimal.render Decimal.valueNotation v.real
  | .ptr => (v.coerce .ptr).display
  | .dyn => v.display
  | kind => toString (kind.wrap v.word).toInt

def lowByte (v : Value) : UInt8 := v.word.toUInt64.toUInt8

/-- The string at a pointer, or the pointer if there is none. -/
def cString (m : Machine) (v : Value) : String :=
  if v.bits = 0 then "nullptr" else
  match m.text v with
  | .ok s => quoted '"' s.toUTF8.toList
  | .error _ => hexText v.bits

/-- The value of a part at an address. Arrays and records stay addresses. -/
def part (m : Machine) (shape : PrintShape) (a : Address) : Except Fault Value := do
  if shape.isAggregate then return .ptr a.encode
  let raw ← m.read a.encode
  return match shape with
    | .scalar _ kind | .char _ kind => raw.coerce kind
    | .cString _ | .pointer _ => raw.coerce .ptr
    | .enum _ => raw.coerce .i32
    | _ => raw

/-- The bytes that a text takes beside its characters. -/
def textSize : Nat := 24

/-- The number of elements of an array. A length is a signed word, and below zero there are none. -/
def elementCount (length : Nat) : Nat := (Int64.ofNat length).toNatClampNeg

/-- The characters of an array up to a zero, at most `count`, after those in `found`, which come last
first. -/
def characters (m : Machine) : Nat → Address → List UInt8 → Except Fault (List UInt8)
  | 0, _, found => .ok found.reverse
  | count + 1, a, found => do
    let b := lowByte (← m.read a.encode)
    if b = 0 then return found.reverse
    characters m count (a.offset 1) (b :: found)

/-- The texts of `count` parts that lie `stride` slots apart, after those in `found`, which come last
first. -/
def elements (item : Address → Except Fault String) (stride : Int64) :
    Nat → Address → List String → Except Fault (List String)
  | 0, _, found => .ok found.reverse
  | count + 1, a, found => do
    let s ← item a
    elements item stride count (a.offset stride) (s :: found)

def isChar : PrintShape → Bool
  | .char .. => true
  | _ => false

mutual

def body (m : Machine) (v : Value) : PrintShape → Except Fault String
  | .scalar _ kind => .ok (scalar kind v)
  | .char .. => .ok (quoted '\'' [lowByte v])
  | .cString _ => .ok (cString m v)
  | .pointer _ => .ok (v.coerce .ptr).display
  | .enum _ => .ok (toString v.word.toInt)
  | .dynamic => .ok v.display
  | .array _ elem length stride => do
    let base := Address.decode v.bits
    let count := elementCount length
    if isChar elem then return quoted '"' (← characters m count base [])
    -- There is room for the texts of all elements before the first one is read.
    Machine.reserve (length * textSize)
    let item (a : Address) : Except Fault String := do body m (← part m elem a) elem
    return braced (← elements item (Int64.ofNat stride) count base [])
  | .record _ fields => return braced (← fieldTexts m (Address.decode v.bits) fields)

def fieldTexts (m : Machine) (base : Address) :
    List (String × Nat × PrintShape) → Except Fault (List String)
  | [] => .ok []
  | (name, slot, shape) :: fields => do
    let v ← part m shape (base.offset (Int64.ofNat slot))
    let s ← body m v shape
    return s!".{name} = {s}" :: (← fieldTexts m base fields)

end

end Display

/-- The text of a value. -/
def Machine.render (m : Machine) (shape : PrintShape) (v : Value) : Except Fault String := do
  let text ← Display.body m v shape
  return match shape, v with
    | .dynamic, .void => "(void)"
    | .dynamic, v => s!"({v.typeLabel}) {text}"
    | shape, _ => s!"({Display.label shape}) {text}"

end IncrementalC
