import IncrementalC.Proofs.Lowering.PrintedParts
import Mathlib.Logic.Relation
import Mathlib.Order.WellFounded

/-!
# Sizes of types, and the recursion over types

`Inside p ty`: objects of type `ty` have parts of type `p`. The size of a complete record is that of its fields, each
behind the one before at a multiple of its alignment, rounded up to the alignment of the record (`Layered.size?_record`).

The functions on types go from an array to its elements and from a record to its fields, `t.Part`. In a
`TypeTable.Nested` table this relation is well founded (`Nested.wellFounded`), so no record contains itself
(`Nested.acyclic`), and the iterated functions satisfy the equations of the recursion on every type, also on records that
are incomplete or missing (`Nested.unfolds`). A type without dependent parts has a size just if it is complete, and the
size is a multiple of the alignment (`Nested.isSome_size?`, `Nested.alignment_dvd_size`).
-/
namespace IncrementalC
set_option autoImplicit false
open Lowering Relation

namespace TypeTable

variable {t : TypeTable} {ty : Ty} {id : RecordId} {r : RecordDef}

/-! ## Parts -/

/-- `p` is the type of a part of the objects of a type. -/
inductive Inside (t : TypeTable) (p : Ty) : Ty → Prop
  | self : Inside t p p
  | element {ty : Ty} {length : Option Nat} (h : Inside t p ty) : Inside t p (.array ty length)
  | field {id : RecordId} {r : RecordDef} {f : Field} (found : t.record? id = some r) (mem : f ∈ r.fields)
      (h : Inside t p f.ty) : Inside t p (.record id)

/-- No part of the objects of the type has the dependent type. -/
def Free (t : TypeTable) (ty : Ty) : Prop := ∀ p, t.Inside p ty → p ≠ .dependent

/-! ## Fields one behind the other -/

theorem le_alignUp (offset : Nat) {align : Nat} (positive : 0 < align) : offset ≤ alignUp offset align := by
  have split := Nat.div_add_mod (offset + align - 1) align
  have small := Nat.mod_lt (offset + align - 1) positive
  unfold alignUp
  rw [Nat.mul_comm]
  omega

theorem fieldsSize_append (size : Ty → Option Nat) (align : Ty → Nat) (offset : Nat) (fs gs : List Field) :
    fieldsSize size align offset (fs ++ gs) = (fieldsSize size align offset fs).bind (fieldsSize size align · gs) := by
  induction fs generalizing offset with
  | nil => rfl
  | cons f fs ih =>
    show (size f.ty).bind (fun s => fieldsSize size align (alignUp offset (align f.ty) + s) (fs ++ gs)) = _
    rw [fieldsSize]
    cases size f.ty with
    | none => rfl
    | some s => exact ih _

theorem le_fieldsSize {size : Ty → Option Nat} {align : Ty → Nat} (positive : ∀ ty, 0 < align ty) {fs : List Field}
    {offset stop : Nat} (reached : fieldsSize size align offset fs = some stop) : offset ≤ stop := by
  induction fs generalizing offset with
  | nil => exact Nat.le_of_eq (Option.some.inj reached)
  | cons f fs ih =>
    obtain ⟨s, -, behind⟩ := Option.bind_eq_some_iff.mp reached
    have first := le_alignUp offset (positive f.ty)
    have rest := ih behind
    omega

/-! ## Alignment -/

theorem alignWith_positive {ofRecord : RecordId → Nat} (positive : ∀ id, 0 < ofRecord id) (ty : Ty) : 0 < ty.alignWith ofRecord := by
  induction ty with
  | array ty _ ih => exact ih
  | record id => exact positive id
  | _ => exact Nat.le_max_right _ 1

theorem recordAlign_positive (t : TypeTable) (d : Nat) (id : RecordId) : 0 < t.recordAlign d id := by
  have most (l : List Nat) (k : Nat) (positive : 0 < k) : 0 < l.foldl max k := by
    induction l generalizing k with
    | nil => exact positive
    | cons x l ih => exact ih _ (Nat.lt_of_lt_of_le positive (Nat.le_max_left _ _))
  cases d with
  | zero => exact Nat.one_pos
  | succ d =>
    rw [recordAlign]
    split
    · exact most _ 1 Nat.one_pos
    · exact Nat.one_pos

theorem alignment_positive (t : TypeTable) (ty : Ty) : 0 < t.alignment ty := alignWith_positive (t.recordAlign_positive _) ty

/-! ## The answer for the records in a type -/

theorem sizeWith_congr {g h : RecordId → Option Nat} (same : ∀ id, ty.innerRecord? = some id → g id = h id) :
    ty.sizeWith g = ty.sizeWith h := by
  induction ty with
  | array ty n ih =>
    show (do return (← ty.sizeWith g) * (← n)) = (do return (← ty.sizeWith h) * (← n) : Option Nat)
    rw [ih same]
  | record id => exact same id rfl
  | _ => rfl

theorem alignWith_congr {g h : RecordId → Nat} (same : ∀ id, ty.innerRecord? = some id → g id = h id) :
    ty.alignWith g = ty.alignWith h := by
  induction ty with
  | array ty n ih => exact ih same
  | record id => exact same id rfl
  | _ => rfl

theorem fieldsSize_congr {size size' : Ty → Option Nat} {align align' : Ty → Nat} {fs : List Field}
    (sizes : ∀ f ∈ fs, size f.ty = size' f.ty) (aligns : ∀ f ∈ fs, align f.ty = align' f.ty) (offset : Nat) :
    fieldsSize size align offset fs = fieldsSize size' align' offset fs := by
  induction fs generalizing offset with
  | nil => rfl
  | cons f fs ih =>
    obtain ⟨size₁, sizes⟩ := List.forall_mem_cons.mp sizes
    obtain ⟨align₁, aligns⟩ := List.forall_mem_cons.mp aligns
    rw [fieldsSize, fieldsSize, size₁, align₁]
    exact congrArg _ (funext fun s => ih sizes aligns _)

/-- The alignment of a record and its size, given those of the records in it. -/
def measuresStep (r : RecordDef) (measures : RecordId → Option Nat × Nat) : Option Nat × Nat :=
  let align := (r.fields.map fun f => f.ty.alignWith fun id => (measures id).2).foldl max 1
  let stop := fieldsSize (·.sizeWith fun id => (measures id).1) (·.alignWith fun id => (measures id).2) 0 r.fields
  (if r.complete then stop.map (alignUp · align) else none, align)

theorem recordMeasures_succ (d : Nat) (found : t.record? id = some r) :
    (t.recordSize (d + 1) id, t.recordAlign (d + 1) id) = measuresStep r fun id => (t.recordSize d id, t.recordAlign d id) := by
  have align : t.recordAlign (d + 1) id = (r.fields.map fun f => f.ty.alignWith (t.recordAlign d)).foldl max 1 := by
    rw [recordAlign, found]
  rw [recordSize, found, align]
  unfold measuresStep
  cases complete : r.complete with
  | false => simp [complete]
  | true =>
    simp only [Option.bind_eq_bind, Option.bind_some, complete]
    cases fieldsSize (·.sizeWith (t.recordSize d)) (·.alignWith (t.recordAlign d)) 0 r.fields <;> rfl

theorem measuresStep_congr {g h : RecordId → Option Nat × Nat}
    (same : ∀ x ∈ r.fields, ∀ id, x.ty.innerRecord? = some id → g id = h id) : measuresStep r g = measuresStep r h := by
  have sizes : ∀ f ∈ r.fields, f.ty.sizeWith (fun id => (g id).1) = f.ty.sizeWith fun id => (h id).1 :=
    fun f mem => sizeWith_congr fun id inner => congrArg Prod.fst (same f mem id inner)
  have aligns : ∀ f ∈ r.fields, f.ty.alignWith (fun id => (g id).2) = f.ty.alignWith fun id => (h id).2 :=
    fun f mem => alignWith_congr fun id inner => congrArg Prod.snd (same f mem id inner)
  unfold measuresStep
  rw [List.map_congr_left aligns, fieldsSize_congr sizes aligns]

/-- The size of a complete record is that of its fields, rounded up to the alignment. -/
theorem Layered.size?_record (h : t.Layered) (found : t.record? id = some r) (complete : r.complete) :
    t.size? (.record id) =
      (fieldsSize t.size? t.alignment 0 r.fields).map (alignUp · (t.alignment (.record id))) := by
  obtain ⟨ids, layers, all⟩ := h
  have settled := layers.settles measuresStep (F := fun d id => (t.recordSize d id, t.recordAlign d id))
    (G := fun d id => (t.recordSize d id, t.recordAlign d id)) (fun d _ _ _ found => recordMeasures_succ d found)
    (fun d _ _ _ found => recordMeasures_succ d found) (fun _ _ _ => measuresStep_congr) layers.length_le (Nat.le_succ_of_le layers.length_le) id
    (all id r found complete)
  have measures : (t.size? (.record id), t.alignment (.record id)) =
      measuresStep r fun id => (t.recordSize t.size id, t.recordAlign t.size id) := settled.trans (recordMeasures_succ _ found)
  have align : t.alignment (.record id) = _ := congrArg Prod.snd measures
  have size : t.size? (.record id) = _ := congrArg Prod.fst measures
  rw [align]
  refine size.trans ?_
  unfold measuresStep
  dsimp only
  rw [if_pos complete]
  rfl

/-- What has a size is complete. -/
theorem complete_of_size? {size : Nat} (known : t.size? (.record id) = some size) :
    ∃ r, t.record? id = some r ∧ r.complete := by
  have known : t.recordSize t.size id = some size := known
  cases depth : t.size with
  | zero =>
    rw [depth] at known
    cases known
  | succ d =>
    rw [depth, recordSize] at known
    obtain ⟨r, found, known⟩ := Option.bind_eq_some_iff.mp known
    refine ⟨r, found, ?_⟩
    cases complete : r.complete with
    | true => rfl
    | false =>
      rw [complete] at known
      cases known

theorem isComplete_of_size? {size : Nat} (known : t.size? ty = some size) : t.isComplete ty := by
  induction ty generalizing size with
  | void | dependent => cases known
  | array ty n ih =>
    obtain ⟨inner, sized, behind⟩ := Option.bind_eq_some_iff.mp (show (t.size? ty).bind _ = some size from known)
    obtain ⟨k, rfl, -⟩ := Option.bind_eq_some_iff.mp behind
    exact ih sized
  | record id =>
    obtain ⟨r, found, complete⟩ := complete_of_size? known
    exact isComplete_of_record found complete
  | _ => rfl

/-- Complete objects without dependent parts have a size. -/
theorem Layered.sized (h : t.Layered) (complete : t.isComplete ty) (free : t.Free ty) : ∃ size, t.size? ty = some size := by
  revert free
  refine h.induct (P := fun ty => t.Free ty → ∃ size, t.size? ty = some size) (fun ty scalar notVoid free => ?_)
    (fun ty n _ ih free => ?_) (fun id r found complete fields free => ?_) ty complete
  · cases ty with
    | void => cases notVoid
    | array _ _ | record _ => cases scalar
    | dependent => exact absurd rfl (free _ .self)
    | _ => exact ⟨_, rfl⟩
  · obtain ⟨size, known⟩ := ih fun p inside => free p (.element inside)
    exact ⟨size * n, by
      show (do return (← t.size? ty) * (← some n) : Option Nat) = _
      rw [known]
      rfl⟩
  · have stops (fs : List Field) (sized : ∀ f ∈ fs, ∃ size, t.size? f.ty = some size) (offset : Nat) :
        ∃ stop, fieldsSize t.size? t.alignment offset fs = some stop := by
      induction fs generalizing offset with
      | nil => exact ⟨offset, rfl⟩
      | cons f fs ih =>
        obtain ⟨⟨s, known⟩, sized⟩ := List.forall_mem_cons.mp sized
        rw [fieldsSize, known]
        exact ih sized _
    obtain ⟨stop, reached⟩ := stops r.fields (fun f mem => (fields f mem).2 fun p inside => free p (.field found mem inside)) 0
    exact ⟨_, by rw [h.size?_record found complete, reached]; rfl⟩

/-! ## Records that nest -/

/-- Records nest, and those that are not complete have no fields. -/
structure Nested (t : TypeTable) : Prop where
  layered : t.Layered
  empty : ∀ id r, t.record? id = some r → r.complete = false → r.fields = []

/-- From an array to its elements, from a record to the type of a field. -/
inductive Part (t : TypeTable) : Ty → Ty → Prop
  | element (ty : Ty) (length : Option Nat) : Part t ty (.array ty length)
  | field {id : RecordId} {r : RecordDef} {f : Field} (found : t.record? id = some r) (mem : f ∈ r.fields) :
      Part t f.ty (.record id)

/-- The record `outer` has a field whose type, through arrays, is the record `inner`. -/
def Contains (t : TypeTable) (outer inner : RecordId) : Prop :=
  ∃ r, t.record? outer = some r ∧ ∃ f ∈ r.fields, f.ty.innerRecord? = some inner

/-- What a type contains through arrays is one of its parts. -/
theorem Part.of_inner (inner : ty.innerRecord? = some id) : ReflTransGen t.Part (.record id) ty := by
  induction ty with
  | array ty n ih => exact (ih inner).tail (.element ty n)
  | record id' =>
    cases inner
    exact .refl
  | _ => cases inner

theorem acc_array {n : Option Nat} (h : Acc t.Part ty) : Acc t.Part (.array ty n) :=
  .intro _ fun _ part => by
    cases part with
    | element _ _ => exact h

theorem acc_record (h : ∀ r, t.record? id = some r → ∀ f ∈ r.fields, Acc t.Part f.ty) : Acc t.Part (.record id) :=
  .intro _ fun _ part => by
    cases part with
    | field found mem => exact h _ found _ mem

namespace Nested

theorem empty_table : Nested {} := ⟨.empty, fun id r found => by simp [record?] at found⟩

theorem wellFounded (h : t.Nested) : WellFounded t.Part := by
  have complete (ty : Ty) (complete : t.isComplete ty) : Acc t.Part ty := by
    refine h.layered.induct (P := Acc t.Part) (fun ty scalar _ => .intro _ fun p part => ?_) (fun ty n _ ih => acc_array ih)
      (fun id r found _ fields => acc_record fun r' found' f mem => ?_) ty complete
    · cases part with
      | element _ _ | field _ _ => cases scalar
    · cases found.symm.trans found'
      exact (fields f mem).2
  refine ⟨fun ty => ?_⟩
  induction ty with
  | array ty n ih => exact acc_array ih
  | record id =>
    refine acc_record fun r found f mem => ?_
    cases done : r.complete with
    | true => exact (complete _ (isComplete_of_record found done)).inv (.field found mem)
    | false =>
      rw [h.empty id r found done] at mem
      cases mem
  | _ => exact .intro _ fun p part => nomatch part

theorem acyclic (h : t.Nested) (id : RecordId) : ¬TransGen t.Contains id id := by
  have parts {outer inner : RecordId} (contains : TransGen t.Contains outer inner) :
      TransGen t.Part (.record inner) (.record outer) := by
    have one {outer inner : RecordId} : t.Contains outer inner → TransGen t.Part (.record inner) (.record outer) :=
      fun ⟨_, found, _, mem, inside⟩ => .tail' (Part.of_inner inside) (.field found mem)
    induction contains with
    | single contains => exact one contains
    | tail _ contains ih => exact (one contains).trans ih
  exact fun cycle => h.wellFounded.transGen.irrefl.irrefl _ (parts cycle)

/-! ## Equations -/

/-- The answer for a record, iterated as often as there are records, is put together from the answers for its fields. -/
theorem settled {α : Type} (h : t.Nested) {F : Nat → RecordId → α} (step : RecordDef → (RecordId → α) → α) (missing : α)
    (zero : ∀ id, F 0 id = missing) (succ : ∀ d id, F (d + 1) id = (t.record? id).elim missing fun r => step r (F d))
    (congr : ∀ r f g, (∀ x ∈ r.fields, ∀ id, x.ty.innerRecord? = some id → f id = g id) → step r f = step r g)
    (id : RecordId) : F t.size id = (t.record? id).elim missing fun r => step r (F t.size) := by
  have at_depth (d : Nat) (id : RecordId) (r : RecordDef) (found : t.record? id = some r) : F (d + 1) id = step r (F d) := by
    rw [succ, found]
    rfl
  cases found : t.record? id with
  | none =>
    cases t.size with
    | zero => exact zero id
    | succ d =>
      rw [succ, found]
      rfl
  | some r =>
    show F t.size id = step r (F t.size)
    cases complete : r.complete with
    | true =>
      obtain ⟨ids, layers, all⟩ := h.layered
      rw [← at_depth t.size id r found]
      exact layers.settles step (fun d id _ => at_depth d id) (fun d id _ => at_depth d id) congr layers.length_le
        (Nat.le_succ_of_le layers.length_le) id (all id r found complete)
    | false =>
      have inside : id < t.size := (Array.getElem?_eq_some_iff.mp found).1
      obtain ⟨d, deep⟩ := Nat.exists_eq_add_one_of_ne_zero (Nat.ne_zero_of_lt inside)
      rw [deep, at_depth d id r found]
      refine congr r _ _ fun x mem => ?_
      rw [h.empty id r found complete] at mem
      cases mem

end Nested

/-- The fields of a record, if there is such a record. -/
def fieldsOf (t : TypeTable) (id : RecordId) : List Field := (t.record? id).elim [] (·.fields)

/-- The functions on types are what the recursion over the parts makes them. -/
structure Unfolds (t : TypeTable) : Prop where
  slots : ∀ ty, t.slots ty = match ty with
    | .array elem n => t.slots elem * n.getD 0
    | .record id => t.fieldSlots (t.fieldsOf id)
    | .void => 0
    | _ => 1
  alignment : ∀ ty, t.alignment ty = match ty with
    | .array elem _ => t.alignment elem
    | .record id => ((t.fieldsOf id).map fun f => t.alignment f.ty).foldl max 1
    | other => max ((t.size? other).getD 1) 1
  size? : ∀ ty, t.size? ty = match ty with
    | .void | .dependent => none
    | .bool => some 1
    | .int k => some (Ty.intSize k.rank)
    | .enum _ | .float => some 4
    | .double | .pointer _ | .dynamic => some 8
    | .array elem n => do return (← t.size? elem) * (← n)
    | .record id => do
      let r ← t.record? id
      if !r.complete then none else
      return alignUp (← fieldsSize t.size? t.alignment 0 r.fields) (t.alignment (.record id))
  printShape : ∀ ty, printShape t ty = match ty with
    | .array elem n => .array (t.name ty) (printShape t elem) (n.getD 0) (t.slots elem)
    | .record id => .record (t.name ty) ((t.fieldsOf id).map fun f => (f.name, f.slot, printShape t f.ty))
    | other => shapeWith t (fun _ => []) other

namespace Nested

theorem slots_record (h : t.Nested) (id : RecordId) :
    t.slots (.record id) = t.fieldSlots (t.fieldsOf id) := by
  have settled := h.settled (F := t.recordSlots) Layers.slotsStep 0 (fun _ => rfl)
    (fun d id => by
      rw [recordSlots]
      cases t.record? id <;> rfl)
    (fun r f g same => congrArg (List.foldr (· + ·) 0) (List.map_congr_left fun x mem => Ty.slotsWith_congr (same x mem))) id
  refine settled.trans ?_
  unfold fieldsOf
  cases t.record? id <;> rfl

theorem measures_record (h : t.Nested) (id : RecordId) :
    (t.size? (.record id), t.alignment (.record id)) =
      (t.record? id).elim (none, 1) fun r => measuresStep r fun id => (t.recordSize t.size id, t.recordAlign t.size id) := by
  refine h.settled (F := fun d id => (t.recordSize d id, t.recordAlign d id)) measuresStep (none, 1) (fun _ => rfl)
    (fun d id => ?_) (fun _ _ _ => measuresStep_congr) id
  cases found : t.record? id with
  | some r => exact recordMeasures_succ d found
  | none =>
    rw [recordSize, recordAlign, found]
    rfl

theorem alignment_record (h : t.Nested) (id : RecordId) :
    t.alignment (.record id) = ((t.fieldsOf id).map fun f => t.alignment f.ty).foldl max 1 := by
  refine (congrArg Prod.snd (h.measures_record id)).trans ?_
  unfold fieldsOf
  cases t.record? id <;> rfl

theorem size?_record (h : t.Nested) (id : RecordId) : t.size? (.record id) = do
    let r ← t.record? id
    if !r.complete then none else
    return alignUp (← fieldsSize t.size? t.alignment 0 r.fields) (t.alignment (.record id)) := by
  cases found : t.record? id with
  | none =>
    have measures := h.measures_record id
    rw [found] at measures
    exact congrArg Prod.fst measures
  | some r =>
    cases complete : r.complete with
    | true =>
      rw [h.layered.size?_record found complete]
      simp only [Option.bind_eq_bind, Option.bind_some, complete]
      cases fieldsSize t.size? t.alignment 0 r.fields <;> rfl
    | false =>
      have measures := h.measures_record id
      rw [found] at measures
      have size : t.size? (.record id) = (measuresStep r _).1 := congrArg Prod.fst measures
      rw [size, measuresStep]
      simp [complete]

theorem printShape_record (h : t.Nested) (id : RecordId) : printShape t (.record id) =
    .record (t.name (.record id)) ((t.fieldsOf id).map fun f => (f.name, f.slot, printShape t f.ty)) := by
  have settled := h.settled (F := recordShape t)
    (fun r shape => r.fields.map fun f => (f.name, f.slot, shapeWith t shape f.ty)) [] (fun _ => rfl)
    (fun d id => by
      rw [recordShape]
      cases t.record? id <;> rfl)
    (fun r f g same => List.map_congr_left fun x mem => by rw [shapeWith_congr (same x mem)]) id
  unfold printShape
  rw [shapeWith, settled]
  unfold fieldsOf
  cases t.record? id <;> rfl

theorem unfolds (h : t.Nested) : t.Unfolds where
  slots ty := by
    cases ty with
    | record id => exact h.slots_record id
    | _ => rfl
  alignment ty := by
    cases ty with
    | record id => exact h.alignment_record id
    | _ => rfl
  size? ty := by
    cases ty with
    | record id => exact h.size?_record id
    | _ => rfl
  printShape ty := by
    cases ty with
    | record id => exact h.printShape_record id
    | _ => rfl

/-! ## Sizes -/

/-- What has a size is complete, and what is complete and has no dependent parts has a size. -/
theorem isSome_size? (h : t.Nested) (free : t.Free ty) : (t.size? ty).isSome ↔ t.isComplete ty := by
  constructor
  · intro known
    obtain ⟨size, known⟩ := Option.isSome_iff_exists.mp known
    exact isComplete_of_size? known
  · intro complete
    exact Option.isSome_iff_exists.mpr (h.layered.sized complete free)

theorem alignment_dvd_size (h : t.Nested) {size : Nat} (known : t.size? ty = some size) : t.alignment ty ∣ size := by
  induction ty generalizing size with
  | array ty n ih =>
    obtain ⟨inner, sized, behind⟩ := Option.bind_eq_some_iff.mp (show (t.size? ty).bind _ = some size from known)
    obtain ⟨k, -, same⟩ := Option.bind_eq_some_iff.mp behind
    cases same
    exact Nat.dvd_mul_right_of_dvd (ih sized) k
  | record id =>
    obtain ⟨r, found, complete⟩ := complete_of_size? known
    rw [h.layered.size?_record found complete] at known
    obtain ⟨stop, -, rfl⟩ := Option.map_eq_some_iff.mp known
    exact Nat.dvd_mul_left _ _
  | void | dependent => cases known
  | int k =>
    cases known
    have positive : 1 ≤ Ty.intSize k.rank := by cases k.rank <;> decide
    have same : t.alignment (.int k) = Ty.intSize k.rank := Nat.max_eq_left positive
    exact ⟨1, same.symm.trans (Nat.mul_one _).symm⟩
  | _ =>
    cases known
    exact Nat.dvd_refl _

end Nested

end TypeTable

end IncrementalC
