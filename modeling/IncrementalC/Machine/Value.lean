import IncrementalC.Code.Scalar
import IncrementalC.Decimal.Shortest

/-!
# Values and addresses

A slot of memory holds a `Value`. An `Address` is a region and a slot index; `encode` packs it into
a word with the region in the top byte, so that arithmetic on the index is arithmetic on the word.
-/
namespace IncrementalC
set_option autoImplicit false

/-! ## Addresses -/

inductive Region where
  /-- No memory lies behind the word. Zero is the null pointer. -/
  | raw
  | global
  | stack
deriving DecidableEq, Repr

structure Address where
  region : Region
  index : UInt64
deriving DecidableEq, Repr

namespace Address

/-- The bits of a word that hold the index. -/
def indexMask : UInt64 := 0x00FFFFFFFFFFFFFF

def tag : Region → UInt64
  | .raw => 0
  | .global => 1
  | .stack => 2

def global (index : Nat) : Address := ⟨.global, UInt64.ofNat index⟩

def stack (index : Nat) : Address := ⟨.stack, UInt64.ofNat index⟩

def encode (a : Address) : UInt64 := (tag a.region <<< 56) ||| (a.index &&& indexMask)

def decode (bits : UInt64) : Address :=
  if bits >>> 56 = 1 then ⟨.global, bits &&& indexMask⟩
  else if bits >>> 56 = 2 then ⟨.stack, bits &&& indexMask⟩
  else ⟨.raw, bits⟩

/-- Moves by a number of slots inside the region. -/
def offset (a : Address) (delta : Int64) : Address :=
  ⟨a.region, (a.index + delta.toUInt64) &&& indexMask⟩

end Address

/-- A word in hexadecimal. -/
def hexText (p : UInt64) : String := "0x" ++ String.ofList (Nat.toDigits 16 p.toNat)

/-! ## Values -/

inductive Value where
  | void
  /-- An integer of any kind, extended to 64 bits by sign or by zeros. -/
  | int (v : Int64)
  | float (x : Double)
  | ptr (p : UInt64)
deriving DecidableEq, Repr, Inhabited

namespace Value

def ofBool (b : Bool) : Value := .int (if b then 1 else 0)

def isTruthy : Value → Bool
  | .void => false
  | .int v => v != 0
  | .float x => !x.isZero
  | .ptr p => p != 0

/-- The value as an integer. A float is cut off towards zero and kept inside the range. -/
def word : Value → Int64
  | .void => 0
  | .int v => v
  | .float x => x.toInt64
  | .ptr p => p.toInt64

def real : Value → Double
  | .void => .ofFloat 0
  | .int v => .ofInt64 v
  | .float x => x
  | .ptr p => .ofUInt64 p

/-- The bits of the value. -/
def bits : Value → UInt64
  | .float x => x.bits
  | v => v.word.toUInt64

/-- The value in the representation of a kind. -/
def coerce (v : Value) (kind : Scalar) : Value :=
  match kind with
  | .dyn => v
  | .bool => ofBool v.isTruthy
  | .f64 => .float v.real
  | .f32 => .float v.real.roundSingle
  | .ptr =>
    match v with
    | .float x => .ptr x.toUInt64
    | v => .ptr v.word.toUInt64
  | kind =>
    match v with
    | .float x => .int (kind.wrap (if kind.isUnsigned then x.toUInt64.toInt64 else x.toInt64))
    | v => .int (kind.wrap v.word)

/-- Converts between kinds. A word that holds an unsigned number is read as one. -/
def convert (v : Value) (source target : Scalar) : Value :=
  match v with
  | .int n =>
    if source = .u64 ∧ target.isFloat then (Value.float (.ofUInt64 n.toUInt64)).coerce target
    else v.coerce target
  | v => v.coerce target

def address (v : Value) : Address := Address.decode v.word.toUInt64

/-- The type that the representation suggests. -/
def typeLabel : Value → String
  | .void => "void"
  | .int _ => "long"
  | .float _ => "double"
  | .ptr _ => "void *"

def display : Value → String
  | .void => "void"
  | .int v => toString v.toInt
  | .float x => Decimal.render Decimal.valueNotation x
  | .ptr p => if p = 0 then "nullptr" else hexText p

end Value

end IncrementalC
