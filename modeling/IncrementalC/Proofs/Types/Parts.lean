import IncrementalC.Proofs.Types.Layered

/-!
# The parts of an object

A path leads from a type to one of its parts through elements and fields. `part? ty path` is the type of the
part, `offset ty path` the slot at which it begins. In a layered table the scalar parts of a complete type fill
its slots exactly: every slot belongs to one of them, and no two share one (`Layered.leaf_at`).
-/
namespace IncrementalC
set_option autoImplicit false

/-- From an object to one of its elements or fields. -/
inductive Selector where
  | element (index : Nat)
  | field (name : String)
deriving DecidableEq, Repr

namespace TypeTable

/-- The type of a part, if there is one. -/
def part? (t : TypeTable) : Ty → List Selector → Option Ty
  | ty, [] => some ty
  | .array ty n, .element i :: path => if i < n.getD 0 then t.part? ty path else none
  | .record id, .field name :: path =>
    match (t.record? id).bind (·.field? name) with
    | some f => t.part? f.ty path
    | none => none
  | _, _ :: _ => none

/-- The slot at which a part begins. Indices are not checked. -/
def offset (t : TypeTable) : Ty → List Selector → Nat
  | .array ty _, .element i :: path => i * t.slots ty + t.offset ty path
  | .record id, .field name :: path =>
    match (t.record? id).bind (·.field? name) with
    | some f => f.slot + t.offset f.ty path
    | none => 0
  | _, _ => 0

/-- The path leads to a scalar. -/
def IsLeaf (t : TypeTable) (ty : Ty) (path : List Selector) : Prop :=
  ∃ leaf, t.part? ty path = some leaf ∧ leaf.isAggregate = false

variable {t : TypeTable}

/-! ## Fields that lie one behind the other -/

namespace Placed

variable {fs : List Field} {f g : Field} {start k : Nat}

theorem inside (h : t.Placed start fs) (mem : f ∈ fs) :
    start ≤ f.slot ∧ f.slot + t.slots f.ty ≤ start + t.fieldSlots fs := by
  induction fs generalizing start with
  | nil => cases mem
  | cons x fs ih =>
    have whole : t.fieldSlots (x :: fs) = t.slots x.ty + t.fieldSlots fs := rfl
    obtain ⟨here, rest⟩ := h
    cases mem with
    | head => omega
    | tail _ mem =>
      have := ih rest mem
      omega

theorem covers (h : t.Placed start fs) (above : start ≤ k) (below : k < start + t.fieldSlots fs) :
    ∃ f ∈ fs, f.slot ≤ k ∧ k < f.slot + t.slots f.ty := by
  induction fs generalizing start with
  | nil => exact absurd below (Nat.not_lt_of_le above)
  | cons x fs ih =>
    have whole : t.fieldSlots (x :: fs) = t.slots x.ty + t.fieldSlots fs := rfl
    obtain ⟨here, rest⟩ := h
    by_cases first : k < start + t.slots x.ty
    · exact ⟨x, List.mem_cons_self, by omega, by omega⟩
    · obtain ⟨f, mem, inside⟩ := ih rest (by omega) (by omega)
      exact ⟨f, List.mem_cons_of_mem _ mem, inside⟩

theorem apart (h : t.Placed start fs) (hf : f ∈ fs) (hg : g ∈ fs) (inf : f.slot ≤ k ∧ k < f.slot + t.slots f.ty)
    (ing : g.slot ≤ k ∧ k < g.slot + t.slots g.ty) : f = g := by
  induction fs generalizing start with
  | nil => cases hf
  | cons x fs ih =>
    obtain ⟨here, rest⟩ := h
    cases hf with
    | head =>
      cases hg with
      | head => rfl
      | tail _ hg =>
        have := (rest.inside hg).1
        omega
    | tail _ hf =>
      cases hg with
      | head =>
        have := (rest.inside hf).1
        omega
      | tail _ hg => exact ih rest hf hg

end Placed

/-- Where field names are distinct, each finds its field. -/
theorem field?_eq_some {r : RecordDef} (distinct : (r.fields.map (·.name)).Nodup) {f : Field} (mem : f ∈ r.fields) :
    r.field? f.name = some f := by
  unfold RecordDef.field?
  generalize r.fields = fs at distinct mem
  induction fs with
  | nil => cases mem
  | cons x fs ih =>
    obtain ⟨fresh, distinct⟩ := List.nodup_cons.mp distinct
    rw [List.find?_cons]
    cases mem with
    | head => simp
    | tail _ mem =>
      have other : (x.name == f.name) = false := beq_false_of_ne fun same =>
        fresh (List.mem_map.mpr ⟨f, mem, same.symm⟩)
      rw [other]
      exact ih distinct mem

theorem field?_mem {r : RecordDef} {name : String} {f : Field} (found : r.field? name = some f) :
    f ∈ r.fields ∧ f.name = name :=
  ⟨List.mem_of_find?_eq_some found, eq_of_beq (List.find?_some (p := fun f : Field => f.name == name) found)⟩

/-! ## Single steps -/

section

variable {ty leaf : Ty} {id : RecordId} {r : RecordDef} {path : List Selector}

theorem part?_cons_element {n : Option Nat} {i : Nat} :
    t.part? (.array ty n) (.element i :: path) = if i < n.getD 0 then t.part? ty path else none := rfl

theorem part?_cons_field {name : String} : t.part? (.record id) (.field name :: path) =
    match (t.record? id).bind (·.field? name) with
    | some f => t.part? f.ty path
    | none => none := rfl

theorem offset_element {n : Option Nat} {i : Nat} :
    t.offset (.array ty n) (.element i :: path) = i * t.slots ty + t.offset ty path := rfl

theorem offset_cons_field {name : String} : t.offset (.record id) (.field name :: path) =
    match (t.record? id).bind (·.field? name) with
    | some f => f.slot + t.offset f.ty path
    | none => 0 := rfl

theorem part?_array {n : Option Nat} {selector : Selector} (h : t.part? (.array ty n) (selector :: path) = some leaf) :
    ∃ i, selector = .element i ∧ i < n.getD 0 ∧ t.part? ty path = some leaf := by
  cases selector with
  | field name => cases h
  | element i =>
    rw [part?_cons_element] at h
    split at h
    · exact ⟨i, rfl, ‹_›, h⟩
    · cases h

theorem part?_record {selector : Selector} (found : t.record? id = some r)
    (h : t.part? (.record id) (selector :: path) = some leaf) :
    ∃ f ∈ r.fields, selector = .field f.name ∧ r.field? f.name = some f ∧ t.part? f.ty path = some leaf := by
  cases selector with
  | element i => cases h
  | field name =>
    rw [part?_cons_field, found, Option.bind_some] at h
    split at h
    · rename_i f named
      obtain ⟨mem, rfl⟩ := field?_mem named
      exact ⟨f, mem, rfl, named, h⟩
    · cases h

theorem part?_element {n : Nat} {i : Nat} (inside : i < n) :
    t.part? (.array ty (some n)) (.element i :: path) = t.part? ty path := by
  rw [part?_cons_element, Option.getD_some, if_pos inside]

theorem part?_field {f : Field} (found : t.record? id = some r) (named : r.field? f.name = some f) :
    t.part? (.record id) (.field f.name :: path) = t.part? f.ty path := by
  rw [part?_cons_field, found, Option.bind_some, named]

theorem offset_field {f : Field} (found : t.record? id = some r) (named : r.field? f.name = some f) :
    t.offset (.record id) (.field f.name :: path) = f.slot + t.offset f.ty path := by
  rw [offset_cons_field, found, Option.bind_some, named]

theorem offset_nil : t.offset ty [] = 0 := by cases ty <;> rfl

/-- A scalar has no parts. -/
theorem eq_nil_of_part? (scalar : ty.isAggregate = false) (h : t.part? ty path = some leaf) :
    path = [] ∧ leaf = ty := by
  cases path with
  | nil =>
    cases h
    exact ⟨rfl, rfl⟩
  | cons selector path =>
    have none : t.part? ty (selector :: path) = none := by
      cases ty with
      | array _ _ | record _ => cases scalar
      | _ => cases selector <;> rfl
    rw [none] at h
    cases h

theorem slots_scalar (scalar : ty.isAggregate = false) (notVoid : ty.isVoid = false) : t.slots ty = 1 := by
  cases ty with
  | array _ _ | record _ => cases scalar
  | void => cases notVoid
  | _ => rfl

end

namespace Layered

variable {ty leaf : Ty} {path : List Selector}

/-- The parts of a complete type are complete. -/
theorem part_complete (h : t.Layered) (complete : t.isComplete ty) (part : t.part? ty path = some leaf) :
    t.isComplete leaf := by
  induction path generalizing ty with
  | nil =>
    cases part
    exact complete
  | cons selector path ih =>
    cases ty with
    | array ty n =>
      obtain ⟨i, -, -, part⟩ := part?_array part
      exact ih (isComplete_array complete).2 part
    | record id =>
      obtain ⟨r, found, done⟩ := isComplete_record complete
      obtain ⟨f, mem, -, -, part⟩ := part?_record found part
      obtain ⟨ids, -, rests⟩ := h.rests found done
      exact ih (rests.complete f mem) part
    | _ => exact absurd (eq_nil_of_part? rfl part).1 (List.cons_ne_nil _ _)

theorem slots_leaf (h : t.Layered) (complete : t.isComplete ty) (part : t.part? ty path = some leaf)
    (scalar : leaf.isAggregate = false) : t.slots leaf = 1 := by
  refine slots_scalar scalar ?_
  have complete := h.part_complete complete part
  cases leaf with
  | void => cases complete
  | _ => rfl

/-- A part lies inside of the object. -/
theorem part_inside (h : t.Layered) (complete : t.isComplete ty) (part : t.part? ty path = some leaf) :
    t.offset ty path + t.slots leaf ≤ t.slots ty := by
  induction path generalizing ty with
  | nil =>
    cases part
    exact Nat.le_of_eq (by rw [offset_nil, Nat.zero_add])
  | cons selector path ih =>
    cases ty with
    | array ty n =>
      obtain ⟨i, rfl, inside, part⟩ := part?_array part
      have within := ih (isComplete_array complete).2 part
      have room : (i + 1) * t.slots ty ≤ n.getD 0 * t.slots ty := Nat.mul_le_mul_right _ inside
      have whole : t.slots (.array ty n) = n.getD 0 * t.slots ty := Nat.mul_comm _ _
      rw [whole, offset_element]
      rw [Nat.succ_mul] at room
      omega
    | record id =>
      obtain ⟨r, found, done⟩ := isComplete_record complete
      obtain ⟨f, mem, rfl, named, part⟩ := part?_record found part
      obtain ⟨ids, -, rests⟩ := h.rests found done
      have within := ih (rests.complete f mem) part
      have room := (rests.placed.inside mem).2
      rw [h.slots_record found done, offset_field found named]
      omega
    | _ => exact absurd (eq_nil_of_part? rfl part).1 (List.cons_ne_nil _ _)

end Layered

end TypeTable

end IncrementalC
