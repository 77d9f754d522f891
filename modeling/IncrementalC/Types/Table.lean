import IncrementalC.Types.Basic

/-!
# Records and the layout of types

A `TypeTable` holds the record definitions. Memory is counted in slots, one per scalar
(`slots`); `sizeof` sees bytes with the usual alignment (`size?`, `alignment`). `declare` writes a
declaration of a name.

Records nest through the table, so functions on types take the answer for records as a parameter
and the table iterates them. A chain of nested records cannot be longer than the table.
-/
namespace IncrementalC
set_option autoImplicit false

structure Field where
  name : String
  ty : Ty
  /-- The offset from the start of the record, in slots. -/
  slot : Nat
deriving DecidableEq, Repr

structure RecordDef where
  name : String
  fields : List Field
  complete : Bool
deriving DecidableEq, Repr

def RecordDef.field? (r : RecordDef) (name : String) : Option Field :=
  r.fields.find? (·.name == name)

structure TypeTable where
  records : Array RecordDef := #[]
deriving DecidableEq, Repr

/-! ## One type, given the answer for records -/

namespace Ty

def slotsWith (ofRecord : RecordId → Nat) : Ty → Nat
  | .array t n => t.slotsWith ofRecord * n.getD 0
  | .record id => ofRecord id
  | .void => 0
  | _ => 1

def intSize : IntRank → Nat
  | .char => 1
  | .short => 2
  | .int => 4
  | .long | .longLong => 8

def sizeWith (ofRecord : RecordId → Option Nat) : Ty → Option Nat
  | .void | .dependent => none
  | .bool => some 1
  | .int k => some (intSize k.rank)
  | .enum _ | .float => some 4
  | .double | .pointer _ | .dynamic => some 8
  | .array t n => do return (← t.sizeWith ofRecord) * (← n)
  | .record id => ofRecord id

def alignWith (ofRecord : RecordId → Nat) : Ty → Nat
  | .array t _ => t.alignWith ofRecord
  | .record id => ofRecord id
  | t => max ((t.sizeWith fun _ => none).getD 1) 1

end Ty

/-- The least multiple of `align` that is at least `offset`. -/
def alignUp (offset align : Nat) : Nat := (offset + align - 1) / align * align

namespace TypeTable

def record? (t : TypeTable) (id : RecordId) : Option RecordDef := t.records[id]?

def size (t : TypeTable) : Nat := t.records.size

def add (t : TypeTable) (r : RecordDef) : TypeTable := ⟨t.records.push r⟩

def set (t : TypeTable) (id : RecordId) (r : RecordDef) : TypeTable := ⟨t.records.setIfInBounds id r⟩

/-- Keeps the first `n` records. -/
def truncate (t : TypeTable) (n : Nat) : TypeTable := ⟨t.records.take n⟩

/-! ## Layout -/

/-- The slots of a record in which records nest at most `depth` deep. -/
def recordSlots (t : TypeTable) : Nat → RecordId → Nat
  | 0, _ => 0
  | depth + 1, id =>
    match t.record? id with
    | some r => (r.fields.map fun f => f.ty.slotsWith (t.recordSlots depth)).foldr (· + ·) 0
    | none => 0

/-- The number of slots of an object. -/
def slots (t : TypeTable) (ty : Ty) : Nat := ty.slotsWith (t.recordSlots t.size)

/-- The number of slots that are set aside for an object, and the distance of array elements. -/
def stride (t : TypeTable) (ty : Ty) : Nat := max (t.slots ty) 1

def recordAlign (t : TypeTable) : Nat → RecordId → Nat
  | 0, _ => 1
  | depth + 1, id =>
    match t.record? id with
    | some r => (r.fields.map fun f => f.ty.alignWith (t.recordAlign depth)).foldl max 1
    | none => 1

def alignment (t : TypeTable) (ty : Ty) : Nat := ty.alignWith (t.recordAlign t.size)

/-- The bytes up to the end of the last field. -/
def fieldsSize (size : Ty → Option Nat) (align : Ty → Nat) : Nat → List Field → Option Nat
  | offset, [] => some offset
  | offset, f :: fs => do
    fieldsSize size align (alignUp offset (align f.ty) + (← size f.ty)) fs

def recordSize (t : TypeTable) : Nat → RecordId → Option Nat
  | 0, _ => none
  | depth + 1, id => do
    let r ← t.record? id
    if !r.complete then none else
    let stop ← fieldsSize (·.sizeWith (t.recordSize depth)) (·.alignWith (t.recordAlign depth)) 0
      r.fields
    return alignUp stop (t.recordAlign (depth + 1) id)

/-- The value of `sizeof`, if the type is complete. -/
def size? (t : TypeTable) (ty : Ty) : Option Nat := ty.sizeWith (t.recordSize t.size)

/-- Objects of the type can be defined. -/
def isComplete (t : TypeTable) : Ty → Bool
  | .void => false
  | .array ty n => n.isSome && t.isComplete ty
  | .record id => (t.record? id).any (·.complete)
  | _ => true

/-! ## Spelling -/

def intName : IntRank → String
  | .char => "char"
  | .short => "short"
  | .int => "int"
  | .long => "long"
  | .longLong => "long long"

/-- The name of a type that is neither a pointer nor an array. -/
def baseName (t : TypeTable) : Ty → String
  | .void => "void"
  | .bool => "bool"
  | .int k => if k.signed then intName k.rank else s!"unsigned {intName k.rank}"
  | .float => "float"
  | .double => "double"
  | .record id => ((t.record? id).map (·.name)).getD "<record>"
  | .enum name => name
  | .dynamic => "<dynamic>"
  | .dependent | .pointer _ | .array _ _ => "<dependent type>"

/-- A declaration of `name` with type `ty`, or the type alone when the name is empty. -/
def declare (t : TypeTable) (ty : Ty) (name : String) : String :=
  match ty with
  | .pointer inner =>
    if inner.isArray then t.declare inner s!"(*{name})" else t.declare inner s!"*{name}"
  | .array inner n =>
    let length := match n with
      | some n => toString n
      | none => ""
    t.declare inner s!"{name}[{length}]"
  | base => if name.isEmpty then t.baseName base else s!"{t.baseName base} {name}"

/-- The type as written in a cast. -/
def name (t : TypeTable) (ty : Ty) : String := t.declare ty ""

end TypeTable

end IncrementalC
