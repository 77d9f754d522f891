import IncrementalC.Code.Scalar

/-!
# Types of the language

* `Ty`: the types of expressions and objects.
* `Ty.common`: the type in which a binary operator computes.
* `Ty.scalar?`: the machine kind that holds a value of the type.

Records are named by their number in a `TypeTable`. Two types have no spelling: `dependent` belongs
to what contains an unknown name, `dynamic` to values whose type shows at run time.
-/
namespace IncrementalC
set_option autoImplicit false

inductive IntRank where
  | char | short | int | long | longLong
deriving DecidableEq, Repr

/-- The place of a rank in the order of ranks. -/
def IntRank.order : IntRank → Nat
  | .char => 0
  | .short => 1
  | .int => 2
  | .long => 3
  | .longLong => 4

structure IntKind where
  rank : IntRank
  signed : Bool
deriving DecidableEq, Repr

abbrev RecordId := Nat

inductive Ty where
  | void
  | bool
  | int (kind : IntKind)
  | float
  | double
  | pointer (target : Ty)
  /-- The length is unknown until an initializer gives it. -/
  | array (elem : Ty) (length : Option Nat)
  | record (id : RecordId)
  | enum (name : String)
  | dependent
  | dynamic
deriving DecidableEq, Repr, Inhabited

namespace Ty

def signedInt : Ty := .int ⟨.int, true⟩
def unsignedInt : Ty := .int ⟨.int, false⟩
def long : Ty := .int ⟨.long, true⟩
def unsignedLong : Ty := .int ⟨.long, false⟩
def char : Ty := .int ⟨.char, true⟩
def charPtr : Ty := .pointer char
def voidPtr : Ty := .pointer .void

def isVoid : Ty → Bool
  | .void => true
  | _ => false

def isDependent : Ty → Bool
  | .dependent => true
  | _ => false

def isDynamic : Ty → Bool
  | .dynamic => true
  | _ => false

def isRecord : Ty → Bool
  | .record _ => true
  | _ => false

def isArray : Ty → Bool
  | .array _ _ => true
  | _ => false

def isPointer : Ty → Bool
  | .pointer _ => true
  | _ => false

def isInteger : Ty → Bool
  | .bool | .int _ | .enum _ => true
  | _ => false

def isFloating : Ty → Bool
  | .float | .double => true
  | _ => false

def isArithmetic (t : Ty) : Bool := t.isInteger || t.isFloating

/-- Pointers and arrays: both act as addresses where a value is wanted. -/
def isPointerLike : Ty → Bool
  | .pointer _ | .array _ _ => true
  | _ => false

def isScalar (t : Ty) : Bool := t.isArithmetic || t.isPointerLike || t.isDynamic

/-- Arrays and records: an expression of such a type stands for an address. -/
def isAggregate (t : Ty) : Bool := t.isArray || t.isRecord

def isChar : Ty → Bool
  | .int k => k.rank == .char
  | _ => false

/-- What a pointer points to, or the elements of an array. -/
def pointee? : Ty → Option Ty
  | .pointer t | .array t _ => some t
  | _ => none

/-- An array where a value is wanted is a pointer to its first element. -/
def decay : Ty → Ty
  | .array t _ => .pointer t
  | t => t

/-- Integers of low rank compute as `int`. -/
def promote : Ty → Ty
  | .bool | .enum _ => signedInt
  | .int k => if k.rank.order < IntRank.int.order then signedInt else .int k
  | t => t

/-- The higher rank wins and brings its sign along; at equal ranks unsigned wins. -/
def IntKind.common (x y : IntKind) : IntKind :=
  if x.rank = y.rank then ⟨x.rank, x.signed && y.signed⟩
  else if y.rank.order < x.rank.order then x
  else y

/-- The usual arithmetic conversions. -/
def common (a b : Ty) : Ty :=
  if a.isDynamic || b.isDynamic then .dynamic
  else if a = .double ∨ b = .double then .double
  else if a = .float ∨ b = .float then .float
  else match a.promote, b.promote with
    | .int x, .int y => .int (IntKind.common x y)
    | x, _ => x

/-- The machine kind of a value; records, `void` and dependent types have none. -/
def scalar? : Ty → Option Scalar
  | .bool => some .bool
  | .int ⟨.char, true⟩ => some .i8
  | .int ⟨.char, false⟩ => some .u8
  | .int ⟨.short, true⟩ => some .i16
  | .int ⟨.short, false⟩ => some .u16
  | .int ⟨.int, true⟩ => some .i32
  | .int ⟨.int, false⟩ => some .u32
  | .int ⟨_, true⟩ => some .i64
  | .int ⟨_, false⟩ => some .u64
  | .enum _ => some .i32
  | .float => some .f32
  | .double => some .f64
  | .pointer _ | .array _ _ => some .ptr
  | .dynamic => some .dyn
  | .void | .record _ | .dependent => none

end Ty

end IncrementalC
