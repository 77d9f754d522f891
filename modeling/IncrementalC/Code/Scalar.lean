/-!
# Machine scalars

`Scalar` lists the kinds of value that one memory slot can hold. Integers of every kind travel as
64-bit words; `Scalar.wrap` brings a word into the range of a kind.
-/
namespace IncrementalC
set_option autoImplicit false

inductive Scalar where
  | i8 | i16 | i32 | i64
  | u8 | u16 | u32 | u64
  | bool
  | f32 | f64
  | ptr
  /-- The kind is known at run time only. -/
  | dyn
deriving DecidableEq, Repr, Inhabited

namespace Scalar

/-- The name under which emitted modules and messages list the kind. -/
def name : Scalar → String
  | .i8 => "I8" | .i16 => "I16" | .i32 => "I32" | .i64 => "I64"
  | .u8 => "U8" | .u16 => "U16" | .u32 => "U32" | .u64 => "U64"
  | .bool => "Bool" | .f32 => "F32" | .f64 => "F64" | .ptr => "Ptr" | .dyn => "Dyn"

def all : List Scalar :=
  [.i8, .i16, .i32, .i64, .u8, .u16, .u32, .u64, .bool, .f32, .f64, .ptr, .dyn]

def isFloat : Scalar → Bool
  | .f32 | .f64 => true
  | _ => false

def isUnsigned : Scalar → Bool
  | .u8 | .u16 | .u32 | .u64 => true
  | _ => false

def isInteger (k : Scalar) : Bool := !k.isFloat && k != .ptr && k != .dyn

/-- Truncates a word to the width of the kind, then extends it by sign or by zeros. -/
def wrap (k : Scalar) (v : Int64) : Int64 :=
  match k with
  | .i8 => v.toInt8.toInt64
  | .i16 => v.toInt16.toInt64
  | .i32 => v.toInt32.toInt64
  | .u8 => v.toUInt64.toUInt8.toUInt64.toInt64
  | .u16 => v.toUInt64.toUInt16.toUInt64.toInt64
  | .u32 => v.toUInt64.toUInt32.toUInt64.toInt64
  | .bool => if v = 0 then 0 else 1
  | .i64 | .u64 | .f32 | .f64 | .ptr | .dyn => v

end Scalar

end IncrementalC
