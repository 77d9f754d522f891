import IncrementalC.Double
import IncrementalC.Types.Basic

/-!
# Compile-time values

`Constant.coerce` converts a value to a type as a conversion in the program would.
-/
namespace IncrementalC
set_option autoImplicit false

/-- The value of a constant expression, or of a slot of a constant initial value. -/
inductive Constant where
  | int (v : Int64)
  | float (x : Double)
  | bool (b : Bool)
  | str (text : String)
  | ptr (p : UInt64)
deriving DecidableEq, Repr

/-- One for true and zero for false, as a word. -/
def boolWord (b : Bool) : Int64 := if b then 1 else 0

namespace Constant

def truthy : Constant → Bool
  | .int v => v != 0
  | .float x => !x.isZero
  | .bool b => b
  | .ptr p => p != 0
  | .str _ => true

/-- The value as an integer; floating values are cut off towards zero. -/
def word? : Constant → Option Int64
  | .int v => some v
  | .bool b => some (boolWord b)
  | .float x => some x.toInt64
  | .ptr _ | .str _ => none

def float? : Constant → Option Double
  | .int v => some (.ofInt64 v)
  | .bool b => some (.ofInt64 (boolWord b))
  | .float x => some x
  | .ptr _ | .str _ => none

/-- The value in the representation of a type, if it has one there. -/
def coerce (c : Constant) (ty : Ty) : Option Constant :=
  match ty with
  | .bool => some (.bool c.truthy)
  | .int _ | .enum _ => do return .int ((← ty.scalar?).wrap (← c.word?))
  | .float => c.float?.map fun x => .float x.roundSingle
  | .double => c.float?.map .float
  | .pointer _ =>
    match c with
    | .ptr p => some (.ptr p)
    | .int v => some (.ptr v.toUInt64)
    | .str s => some (.str s)
    | .float _ | .bool _ => none
  | .array _ _ =>
    match c with
    | .str s => some (.str s)
    | _ => none
  | .void | .record _ | .dependent | .dynamic => none

end Constant

end IncrementalC
