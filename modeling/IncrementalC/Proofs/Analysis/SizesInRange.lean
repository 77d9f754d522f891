import IncrementalC.Proofs.Analysis.LocalSlots
import IncrementalC.Proofs.Machine.PointerArithmetic
import IncrementalC.Proofs.Types.WellFounded
import Mathlib.Algebra.Group.Int.Defs

/-!
# Sizes and addresses in their ranges

`SlotStep t ty n` and `SizeStep t ty n`: `n` is a sum or a product on the way to the slots or to the size of a type. Each of
them is bounded by the slots or the size of a part of the type (`SlotStep.bounded`, `SizeStep.bounded`), so none of them leaves
its range unless an object of that type is too large itself. The same holds for the places of fields and of local objects,
and the distance of two addresses is in its range anyway, unless one of them is a number that is no address
(`Analysis.analyze_in_range`). Too large objects are not refused (`Analysis.large_array_shares_its_slot`).
-/
namespace IncrementalC
set_option autoImplicit false
open Typed (FunctionDecl VarDecl InRow stmtLocals)

namespace TypeTable

variable {t : TypeTable} {ty p : Ty} {id : RecordId} {r : RecordDef} {n : Nat}

/-! ## Tables -/

/-- Records nest, and those that are not complete have no fields. -/
structure Regular (t : TypeTable) : Prop where
  layered : t.Layered
  empty : ∀ id r, t.record? id = some r → r.complete = false → r.fields = []
  definite : ∀ id r, t.record? id = some r → ∀ f ∈ r.fields, f.ty.Definite

theorem Regular.nested (h : t.Regular) : t.Nested := ⟨h.layered, h.empty⟩

theorem Regular.slots_record (h : t.Regular) (found : t.record? id = some r) :
    t.slots (.record id) = t.fieldSlots r.fields := by
  rw [h.nested.slots_record, fieldsOf, found]
  rfl

/-! ## Slots -/

/-- A sum or a product on the way to the slots of a type. -/
inductive SlotStep (t : TypeTable) : Ty → Nat → Prop
  | element {ty : Ty} {length : Option Nat} {n : Nat} (h : SlotStep t ty n) : SlotStep t (.array ty length) n
  | product (ty : Ty) (length : Option Nat) : SlotStep t (.array ty length) (t.slots ty * length.getD 0)
  | field {id : RecordId} {r : RecordDef} {f : Field} {n : Nat} (found : t.record? id = some r) (mem : f ∈ r.fields)
      (h : SlotStep t f.ty n) : SlotStep t (.record id) n
  | sum {id : RecordId} {r : RecordDef} {before after : List Field} (found : t.record? id = some r)
      (fields : r.fields = before ++ after) : SlotStep t (.record id) (t.fieldSlots before)

theorem SlotStep.of_inside (inside : t.Inside p ty) (h : t.SlotStep p n) : t.SlotStep ty n := by
  induction inside with
  | self => exact h
  | element _ ih => exact .element ih
  | field found mem _ ih => exact .field found mem ih

theorem SlotStep.bounded (regular : t.Regular) (h : t.SlotStep ty n) : ∃ p, t.Inside p ty ∧ n ≤ t.slots p := by
  induction h with
  | element _ ih =>
    obtain ⟨p, inside, le⟩ := ih
    exact ⟨p, .element inside, le⟩
  | product ty length => exact ⟨.array ty length, .self, Nat.le_refl _⟩
  | field found mem _ ih =>
    obtain ⟨p, inside, le⟩ := ih
    exact ⟨p, .field found mem inside, le⟩
  | @sum id r before after found fields =>
    refine ⟨.record id, .self, ?_⟩
    rw [regular.slots_record found, fields, fieldSlots_append]
    exact Nat.le_add_right _ _

/-- What has more than one slot has got them by a sum or a product. -/
theorem slotStep_slots (regular : t.Regular) (many : 1 < t.slots ty) : t.SlotStep ty (t.slots ty) := by
  cases ty with
  | array ty length => exact .product ty length
  | record id =>
    cases found : t.record? id with
    | some r =>
      rw [regular.slots_record found]
      exact .sum found (List.append_nil _).symm
    | none =>
      have none : t.slots (.record id) = 0 := by
        show t.recordSlots t.size id = 0
        cases t.size with
        | zero => rfl
        | succ d => rw [recordSlots, found]
      omega
  | _ => simp [slots, Ty.slotsWith] at many

theorem slotSteps_below (regular : t.Regular) {limit : Nat} (large : 1 < limit) (ty : Ty) :
    (∀ n, t.SlotStep ty n → n < limit) ↔ ∀ p, t.Inside p ty → t.slots p < limit := by
  constructor
  · intro steps p inside
    by_cases many : 1 < t.slots p
    · exact steps _ (.of_inside inside (slotStep_slots regular many))
    · omega
  · intro parts n step
    obtain ⟨p, inside, le⟩ := step.bounded regular
    exact Nat.lt_of_le_of_lt le (parts p inside)

/-! ## Sizes -/

/-- A sum or a product on the way to the size of a type. -/
inductive SizeStep (t : TypeTable) : Ty → Nat → Prop
  | element {ty : Ty} {length : Option Nat} {n : Nat} (h : SizeStep t ty n) : SizeStep t (.array ty length) n
  | product {ty : Ty} {size : Nat} (known : t.size? ty = some size) (length : Nat) :
      SizeStep t (.array ty (some length)) (size * length)
  | field {id : RecordId} {r : RecordDef} {f : Field} {n : Nat} (found : t.record? id = some r) (complete : r.complete)
      (mem : f ∈ r.fields) (h : SizeStep t f.ty n) : SizeStep t (.record id) n
  | aligned {id : RecordId} {r : RecordDef} {f : Field} {before after : List Field} {offset : Nat}
      (found : t.record? id = some r) (complete : r.complete) (fields : r.fields = before ++ f :: after)
      (reached : fieldsSize t.size? t.alignment 0 before = some offset) :
      SizeStep t (.record id) (alignUp offset (t.alignment f.ty))
  | added {id : RecordId} {r : RecordDef} {f : Field} {before after : List Field} {offset size : Nat}
      (found : t.record? id = some r) (complete : r.complete) (fields : r.fields = before ++ f :: after)
      (reached : fieldsSize t.size? t.alignment 0 before = some offset) (known : t.size? f.ty = some size) :
      SizeStep t (.record id) (alignUp offset (t.alignment f.ty) + size)
  | last {id : RecordId} {r : RecordDef} {offset : Nat} (found : t.record? id = some r) (complete : r.complete)
      (reached : fieldsSize t.size? t.alignment 0 r.fields = some offset) :
      SizeStep t (.record id) (alignUp offset (t.alignment (.record id)))

theorem Regular.free (h : t.Regular) (definite : ty.Definite) : t.Free ty := by
  intro p inside dependent
  induction inside with
  | self =>
    rw [dependent] at definite
    exact definite
  | element _ ih => exact ih definite
  | field found mem _ ih => exact ih (h.definite _ _ found _ mem)

/-- Complete objects have a size. -/
theorem Regular.sized (h : t.Regular) (complete : t.isComplete ty) (definite : ty.Definite) : ∃ size, t.size? ty = some size :=
  h.layered.sized complete (h.free definite)

theorem SizeStep.of_inside (regular : t.Regular) (inside : t.Inside p ty) (h : t.SizeStep p n) : t.SizeStep ty n := by
  induction inside with
  | self => exact h
  | element _ ih => exact .element ih
  | @field id r f found mem _ ih =>
    cases complete : r.complete with
    | true => exact .field found complete mem ih
    | false =>
      rw [regular.empty id r found complete] at mem
      cases mem

/-- What is added behind some fields is not more than the size of the record. -/
theorem Regular.size?_above (h : t.Regular) (found : t.record? id = some r) (complete : r.complete) {f : Field}
    {before after : List Field} (fields : r.fields = before ++ f :: after) {offset : Nat}
    (reached : fieldsSize t.size? t.alignment 0 before = some offset) :
    ∃ size, t.size? f.ty = some size ∧ ∃ whole, t.size? (.record id) = some whole ∧
      alignUp offset (t.alignment f.ty) + size ≤ whole := by
  have definite : Ty.Definite (.record id) := trivial
  obtain ⟨whole, known⟩ := h.sized (isComplete_of_record found complete) definite
  have all := known
  rw [h.layered.size?_record found complete, fields, fieldsSize_append, reached] at all
  obtain ⟨stop, behind, rfl⟩ := Option.map_eq_some_iff.mp all
  obtain ⟨size, sized, behind⟩ := Option.bind_eq_some_iff.mp (show (t.size? f.ty).bind _ = some stop from behind)
  refine ⟨size, sized, _, known, ?_⟩
  have rest := le_fieldsSize t.alignment_positive behind
  have up := le_alignUp stop (t.alignment_positive (.record id))
  omega

theorem SizeStep.bounded (regular : t.Regular) (h : t.SizeStep ty n) :
    ∃ p, t.Inside p ty ∧ ∃ size, t.size? p = some size ∧ n ≤ size := by
  induction h with
  | element _ ih =>
    obtain ⟨p, inside, bound⟩ := ih
    exact ⟨p, .element inside, bound⟩
  | @product ty size known length =>
    refine ⟨.array ty (some length), .self, size * length, ?_, Nat.le_refl _⟩
    show (do return (← t.size? ty) * (← some length) : Option Nat) = _
    rw [known]
    rfl
  | field found _ mem _ ih =>
    obtain ⟨p, inside, bound⟩ := ih
    exact ⟨p, .field found mem inside, bound⟩
  | @aligned id r f before after offset found complete fields reached =>
    obtain ⟨size, -, whole, known, le⟩ := regular.size?_above found complete fields reached
    exact ⟨.record id, .self, whole, known, Nat.le_trans (Nat.le_add_right _ _) le⟩
  | @added id r f before after offset size found complete fields reached sized =>
    obtain ⟨size', sized', whole, known, le⟩ := regular.size?_above found complete fields reached
    cases sized.symm.trans sized'
    exact ⟨.record id, .self, whole, known, le⟩
  | @last id r offset found complete reached =>
    refine ⟨.record id, .self, _, ?_, Nat.le_refl _⟩
    rw [regular.layered.size?_record found complete, reached]
    rfl

/-- What has more than a word has got its size by a sum or a product. -/
theorem sizeStep_size (regular : t.Regular) {size : Nat} (known : t.size? ty = some size) (large : 8 < size) :
    t.SizeStep ty size := by
  cases ty with
  | array ty length =>
    obtain ⟨inner, sized, behind⟩ := Option.bind_eq_some_iff.mp (show (t.size? ty).bind _ = some size from known)
    obtain ⟨k, rfl, same⟩ := Option.bind_eq_some_iff.mp behind
    cases same
    exact .product sized k
  | record id =>
    obtain ⟨r, found, complete⟩ := complete_of_size? known
    have all := known
    rw [regular.layered.size?_record found complete] at all
    obtain ⟨stop, reached, rfl⟩ := Option.map_eq_some_iff.mp all
    exact .last found complete reached
  | int k =>
    have small : Ty.intSize k.rank ≤ 8 := by cases k.rank <;> decide
    have same : Ty.intSize k.rank = size := Option.some.inj known
    omega
  | void | dependent => cases known
  | _ =>
    cases known
    omega

theorem sizeSteps_below (regular : t.Regular) {limit : Nat} (large : 8 < limit) (ty : Ty) :
    (∀ n, t.SizeStep ty n → n < limit) ↔ ∀ p size, t.Inside p ty → t.size? p = some size → size < limit := by
  constructor
  · intro steps p size inside known
    by_cases more : 8 < size
    · exact steps _ (.of_inside regular inside (sizeStep_size regular known more))
    · omega
  · intro parts n step
    obtain ⟨p, inside, size, known, le⟩ := step.bounded regular
    exact Nat.lt_of_le_of_lt le (parts p size inside known)

/-! ## Fields -/

theorem Placed.split {before after : List Field} {f : Field} {start : Nat} (h : t.Placed start (before ++ f :: after)) :
    f.slot = start + t.fieldSlots before := by
  induction before generalizing start with
  | nil => exact h.1
  | cons g before ih =>
    rw [ih h.2]
    exact Nat.add_assoc _ _ _

/-- The place behind a field is in the range unless the record is too large. -/
theorem fields_below (regular : t.Regular) (found : t.record? id = some r) (complete : r.complete) {limit : Nat} (large : 0 < limit) :
    (∀ before f after, r.fields = before ++ f :: after → f.slot = t.fieldSlots before ∧ f.slot + t.slots f.ty < limit) ↔
      t.slots (.record id) < limit := by
  obtain ⟨ids, -, rests⟩ := regular.layered.rests found complete
  rw [regular.slots_record found]
  constructor
  · intro places
    induction fields : r.fields using List.reverseRecOn with
    | nil => exact large
    | append_singleton before f _ =>
      obtain ⟨place, below⟩ := places before f [] fields
      rw [fieldSlots_append, ← place]
      exact below
  · intro below before f after fields
    have placed := rests.placed
    rw [fields] at placed below
    have place : f.slot = t.fieldSlots before := placed.split.trans (Nat.zero_add _)
    rw [fieldSlots_append] at below
    have behind : t.fieldSlots (f :: after) = t.slots f.ty + t.fieldSlots after := rfl
    exact ⟨place, by omega⟩

end TypeTable

/-! ## Local objects -/

/-- The slots that objects take together. -/
def rowSlots (t : TypeTable) (vs : List VarDecl) : Nat := (vs.map fun v => t.stride v.ty).foldr (· + ·) 0

theorem rowSlots_append (t : TypeTable) (vs ws : List VarDecl) : rowSlots t (vs ++ ws) = rowSlots t vs + rowSlots t ws := by
  induction vs with
  | nil => exact (Nat.zero_add _).symm
  | cons v vs ih =>
    show t.stride v.ty + rowSlots t (vs ++ ws) = t.stride v.ty + rowSlots t vs + rowSlots t ws
    rw [ih, Nat.add_assoc]

theorem Typed.InRow.split {t : TypeTable} {start stop : Nat} {before after : List VarDecl} {v : VarDecl}
    (h : InRow t start (before ++ v :: after) stop) (counted : InRow.Counted t start (before ++ v :: after)) :
    v.storage = .local (start + rowSlots t before) := by
  induction before generalizing start with
  | nil => exact h.1
  | cons w before ih =>
    obtain ⟨fits, rest⟩ := counted.head
    have behind := h.2.2
    rw [fits] at behind
    rw [ih behind rest]
    exact congrArg Typed.VarStorage.local (Nat.add_assoc _ _ _)

/-- The place behind a local object is in the range, and so is the number of its slots, unless all objects together are too
large. -/
theorem locals_below {t : TypeTable} {start stop : Nat} {vs : List VarDecl} (row : InRow t start vs stop) :
    (start < UInt32.size ∧ ∀ before v after, vs = before ++ v :: after → v.storage = .local (start + rowSlots t before) ∧
      t.stride v.ty < UInt32.size ∧ start + rowSlots t before + t.stride v.ty < UInt32.size) ↔ InRow.Counted t start vs := by
  constructor
  · rintro ⟨first, places⟩
    show start + rowSlots t vs < UInt32.size
    induction vs using List.reverseRecOn with
    | nil => exact first
    | append_singleton before v _ =>
      obtain ⟨-, -, below⟩ := places before v [] rfl
      rw [rowSlots_append]
      have last : rowSlots t [v] = t.stride v.ty := Nat.add_zero _
      omega
  · intro counted
    have all : start + rowSlots t vs < UInt32.size := counted
    refine ⟨by omega, fun before v after split => ?_⟩
    subst split
    rw [rowSlots_append] at all
    have behind : rowSlots t (v :: after) = t.stride v.ty + rowSlots t after := rfl
    exact ⟨row.split counted, by omega, by omega⟩

/-! ## Accepted programs -/

namespace Analysis

/-- The arithmetic of sizes and addresses in a program with the types and the function of an analysed group. -/
structure InRange (t : TypeTable) (group : Typed.TopLevel) : Prop where
  slots : ∀ ty, (∀ n, t.SlotStep ty n → n < UInt64.size) ↔ ∀ p, t.Inside p ty → t.slots p < UInt64.size
  sizes : ∀ ty, (∀ n, t.SizeStep ty n → n < UInt64.size) ↔
    ∀ p size, t.Inside p ty → t.size? p = some size → size < UInt64.size
  fields : ∀ id r, t.record? id = some r → r.complete →
    ((∀ before f after, r.fields = before ++ f :: after →
      f.slot = t.fieldSlots before ∧ f.slot + t.slots f.ty < UInt64.size) ↔ t.slots (.record id) < UInt64.size)
  locals : ∀ f s, group.function? = some f → group.body = some s →
    ((f.params.length < UInt32.size ∧ ∀ before v after, stmtLocals s = before ++ v :: after →
      v.storage = .local (f.params.length + rowSlots t before) ∧ t.stride v.ty < UInt32.size ∧
        f.params.length + rowSlots t before + t.stride v.ty < UInt32.size) ↔
      InRow.Counted t f.params.length (stmtLocals s))
  /-- In whatever program a pointer difference is taken. -/
  differences : ∀ {η : Type} (evaluate : List Value → Exec η Value) (ret : Option Scalar) (base : Nat) (stride : Int64)
    (w : World η) (p q : Value) (rest : List Value), w.machine.operands = q :: p :: rest → IsPlace p.bits → IsPlace q.bits →
    -2 ^ 63 < distance p.bits q.bits ∧ distance p.bits q.bits < 2 ^ 63 ∧
      ∃ n : Int64, n.toInt = (distance p.bits q.bits).tdiv (max stride.toInt 1) ∧
        Exec.act evaluate ret base (.ptrDiff stride) w =
          .ok () { w with machine := { w.machine with operands := .int n :: rest } }

theorem Reached.regular {a : Analysis} (h : a.Reached) : a.types.Regular :=
  ⟨h.layered, fun id r found incomplete => (h.sound.record id r found).incomplete incomplete,
    fun id r found f mem => ((h.sound.record id r found).fields f mem).definite⟩

/-- No sum, product or difference of sizes and addresses leaves its range unless an object of the program is too large
itself, or a pointer is no address. -/
theorem analyze_in_range {a : Analysis} (h : a.Reached) {t : Syntax.TopLevel} {t' : Typed.TopLevel} (written : t.Written)
    (accepted : (a.analyze t).1 = .ok t') : InRange (a.analyze t).2.types t' := by
  have regular := (Reached.accepted h written accepted).regular
  constructor
  · exact TypeTable.slotSteps_below regular (by decide)
  · exact TypeTable.sizeSteps_below regular (by decide)
  · exact fun id r found complete => TypeTable.fields_below regular found complete (by decide)
  · exact fun f s function body => locals_below (analyze_framed h accepted function body).row
  · intro η evaluate ret base stride w p q rest operands hp hq
    exact ⟨(distance_in_range hp hq).1, (distance_in_range hp hq).2, act_ptrDiff evaluate ret base stride operands hp hq⟩

/-- An array with more slots than 32 bits can count is accepted, and the next object lies inside of it. -/
theorem large_array_shares_its_slot :
    let text := "int f() \x7b int a[4294967297]; int b = 5; a[1] = 7; return b; \x7d"
    (do
      let t ← Syntax.groupOf? text
      let t' ← (({} : Analysis).analyze t).1.toOption
      let f ← t'.function?
      let s ← t'.body
      return (f.frameSlots, (stmtLocals s).map fun v => (v.name, v.storage, (({} : Analysis).analyze t).2.types.stride v.ty)) :
      Option _) = some (2, [("a", .local 0, 4294967297), ("b", .local 1, 1)]) ∧
    ((compile text {}).toOption.bind fun c =>
      match Machine.link c {} with
      | .error .. => none
      | .ok _ m => match Exec.call none "f" [] (⟨m, ()⟩ : World Unit) with
        | .ok v _ => v
        | .error .. => none) = some (.int 7) := by
  decide +kernel

theorem small_objects_in_range : ∃ t t',
    Syntax.groupOf? "int f(int x) \x7b int a[2][3]; int y = x; return a[1][2] + y; \x7d" = some t ∧
      (({} : Analysis).analyze t).1 = .ok t' ∧ InRange (({} : Analysis).analyze t).2.types t' := by
  have outcome : ((do
      let t ← Syntax.groupOf? "int f(int x) \x7b int a[2][3]; int y = x; return a[1][2] + y; \x7d"
      let t' ← (({} : Analysis).analyze t).1.toOption
      return (t, t')) : Option _).isSome := by
    decide +kernel
  obtain ⟨⟨t, t'⟩, outcome⟩ := Option.isSome_iff_exists.mp outcome
  simp only [Option.bind_eq_bind, Option.bind_eq_some_iff] at outcome
  obtain ⟨t₁, read, t₂, accepted, same⟩ := outcome
  cases same
  have accepted := Syntax.toOption_eq_some accepted
  exact ⟨t, t', read, accepted, analyze_in_range .start (Syntax.groupOf?_written read) accepted⟩

end Analysis

end IncrementalC
