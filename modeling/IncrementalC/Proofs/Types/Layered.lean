import Mathlib.Data.List.Perm.Subperm
import IncrementalC.Types.Table

/-!
# Tables in which records nest

In a `TypeTable.Layered` table the complete records stand in an order in which every record comes after the
records that it contains, and the fields of each lie one behind the other. So the answers of the functions that
iterate the table do not depend on the depth (`Layers.settles`), `slots` is what its name says
(`Layered.slots_record`), and complete types can be taken apart by induction (`Layered.induct`).
-/
namespace IncrementalC
set_option autoImplicit false

namespace Ty

/-- The record that an object of the type contains, itself or through arrays. -/
def innerRecord? : Ty → Option RecordId
  | .array t _ => t.innerRecord?
  | .record id => some id
  | _ => none

theorem slotsWith_congr {f g : RecordId → Nat} {t : Ty} (h : ∀ id, t.innerRecord? = some id → f id = g id) :
    t.slotsWith f = t.slotsWith g := by
  induction t with
  | array t n ih => exact congrArg (· * n.getD 0) (ih h)
  | record id => exact h id rfl
  | _ => rfl

end Ty

namespace TypeTable

variable {t t' : TypeTable}

/-! ## Fields -/

/-- The slots of some fields together. -/
def fieldSlots (t : TypeTable) (fs : List Field) : Nat := (fs.map fun f => t.slots f.ty).foldr (· + ·) 0

/-- The fields lie one behind the other, the first one at `start`. -/
def Placed (t : TypeTable) : Nat → List Field → Prop
  | _, [] => True
  | start, f :: fs => f.slot = start ∧ t.Placed (start + t.slots f.ty) fs

/-- Fields that a record can have. -/
structure Lays (t : TypeTable) (fs : List Field) : Prop where
  complete : ∀ f ∈ fs, t.isComplete f.ty
  placed : t.Placed 0 fs
  distinct : (fs.map (·.name)).Nodup

theorem fieldSlots_append (fs gs : List Field) : t.fieldSlots (fs ++ gs) = t.fieldSlots fs + t.fieldSlots gs := by
  induction fs with
  | nil => exact (Nat.zero_add _).symm
  | cons f fs ih =>
    show t.slots f.ty + t.fieldSlots (fs ++ gs) = t.slots f.ty + t.fieldSlots fs + t.fieldSlots gs
    rw [ih, Nat.add_assoc]

theorem Placed.append {fs gs : List Field} {start : Nat} (h : t.Placed start fs)
    (h' : t.Placed (start + t.fieldSlots fs) gs) : t.Placed start (fs ++ gs) := by
  induction fs generalizing start with
  | nil => exact h'
  | cons f fs ih =>
    refine ⟨h.1, ih h.2 ?_⟩
    rwa [Nat.add_assoc]

theorem Placed.congr {fs : List Field} {start : Nat} (h : t.Placed start fs)
    (same : ∀ f ∈ fs, t'.slots f.ty = t.slots f.ty) : t'.Placed start fs := by
  induction fs generalizing start with
  | nil => trivial
  | cons f fs ih =>
    refine ⟨h.1, ?_⟩
    rw [same f List.mem_cons_self]
    exact ih h.2 fun g mem => same g (List.mem_cons_of_mem f mem)

theorem fieldSlots_congr {fs : List Field} (same : ∀ f ∈ fs, t'.slots f.ty = t.slots f.ty) :
    t'.fieldSlots fs = t.fieldSlots fs :=
  congrArg (List.foldr (· + ·) 0) (List.map_congr_left same)

theorem isComplete_record {id : RecordId} (h : t.isComplete (.record id)) :
    ∃ r, t.record? id = some r ∧ r.complete := by
  have found : (t.record? id).any (·.complete) = true := h
  cases entry : t.record? id with
  | none =>
    rw [entry] at found
    cases found
  | some r =>
    rw [entry] at found
    exact ⟨r, rfl, found⟩

theorem isComplete_of_record {id : RecordId} {r : RecordDef} (found : t.record? id = some r) (complete : r.complete) :
    t.isComplete (.record id) := by
  show (t.record? id).any (·.complete) = true
  rw [found]
  exact complete

theorem isComplete_array {ty : Ty} {n : Option Nat} (h : t.isComplete (.array ty n)) :
    (∃ k, n = some k) ∧ t.isComplete ty := by
  obtain ⟨known, complete⟩ := (Bool.and_eq_true _ _).mp h
  exact ⟨Option.isSome_iff_exists.mp known, complete⟩

/-- The record in a complete type is complete. -/
theorem isComplete_inner {ty : Ty} {id : RecordId} (h : t.isComplete ty) (inner : ty.innerRecord? = some id) :
    ∃ r, t.record? id = some r ∧ r.complete := by
  induction ty with
  | array ty n ih => exact ih (isComplete_array h).2 inner
  | record id' =>
    cases inner
    exact isComplete_record h
  | _ => cases inner

theorem isComplete_mono {ty : Ty} (kept : ∀ id r, t.record? id = some r → r.complete → t'.record? id = some r)
    (h : t.isComplete ty) : t'.isComplete ty := by
  induction ty with
  | void => cases h
  | array ty n ih =>
    obtain ⟨⟨k, rfl⟩, complete⟩ := isComplete_array h
    exact ih complete
  | record id =>
    obtain ⟨r, found, complete⟩ := isComplete_record h
    show (t'.record? id).any (·.complete) = true
    rw [kept id r found complete]
    exact complete
  | _ => rfl

/-! ## The order of records -/

/-- A record contains complete records from a list only. -/
structure Rests (t : TypeTable) (ids : List RecordId) (r : RecordDef) : Prop extends t.Lays r.fields where
  within : ∀ f ∈ r.fields, ∀ id, f.ty.innerRecord? = some id → id ∈ ids

/-- Complete records, those that were completed last first. -/
inductive Layers (t : TypeTable) : List RecordId → Prop where
  | nil : Layers t []
  | cons {ids : List RecordId} {id : RecordId} {r : RecordDef} (below : Layers t ids) (fresh : id ∉ ids)
      (found : t.record? id = some r) (complete : r.complete) (rests : t.Rests ids r) : Layers t (id :: ids)

def Layered (t : TypeTable) : Prop :=
  ∃ ids, t.Layers ids ∧ ∀ id r, t.record? id = some r → r.complete → id ∈ ids

namespace Layers

variable {ids : List RecordId} {id : RecordId}

theorem found (h : t.Layers ids) (mem : id ∈ ids) : ∃ r, t.record? id = some r ∧ r.complete ∧ t.Rests ids r := by
  induction h with
  | nil => cases mem
  | @cons ids id' r below fresh found complete rests ih =>
    have wider {r : RecordDef} (rests : t.Rests ids r) : t.Rests (id' :: ids) r :=
      { rests with within := fun f hf id inner => List.mem_cons_of_mem _ (rests.within f hf id inner) }
    cases mem with
    | head => exact ⟨r, found, complete, wider rests⟩
    | tail _ mem =>
      obtain ⟨r', found', complete', rests'⟩ := ih mem
      exact ⟨r', found', complete', wider rests'⟩

/-- There are not more complete records than records. -/
theorem length_le (h : t.Layers ids) : ids.length ≤ t.size := by
  have nodup : ids.Nodup := by
    induction h with
    | nil => exact .nil
    | cons _ fresh _ _ _ ih => exact List.nodup_cons.mpr ⟨fresh, ih⟩
  have inside : ids ⊆ List.range t.size := fun id mem => by
    obtain ⟨r, found, -⟩ := h.found mem
    exact List.mem_range.mpr (Array.getElem?_eq_some_iff.mp found).1
  simpa using (List.subperm_of_subset nodup inside).length_le

/-- The answer for a record that is put together from those for the records in it does not change any more once
the iteration is deep enough, and two tables that agree on the records give the same answer. -/
theorem settles {α : Type} {F G : Nat → RecordId → α} (h : t.Layers ids) (step : RecordDef → (RecordId → α) → α)
    (atF : ∀ d, ∀ id ∈ ids, ∀ r, t.record? id = some r → F (d + 1) id = step r (F d))
    (atG : ∀ d, ∀ id ∈ ids, ∀ r, t.record? id = some r → G (d + 1) id = step r (G d))
    (congr : ∀ r f g, (∀ x ∈ r.fields, ∀ id, x.ty.innerRecord? = some id → f id = g id) → step r f = step r g)
    {d d' : Nat} (deep : ids.length ≤ d) (deep' : ids.length ≤ d') : ∀ id ∈ ids, F d id = G d' id := by
  induction h generalizing d d' with
  | nil => exact fun _ mem => nomatch mem
  | @cons ids id r below fresh found complete rests ih =>
    have below (d d' : Nat) (deep : ids.length ≤ d) (deep' : ids.length ≤ d') : ∀ id ∈ ids, F d id = G d' id :=
      ih (fun d id mem => atF d id (List.mem_cons_of_mem _ mem))
        (fun d id mem => atG d id (List.mem_cons_of_mem _ mem)) deep deep'
    intro id' mem
    cases mem with
    | head =>
      obtain ⟨e, rfl⟩ := Nat.exists_eq_add_one_of_ne_zero (Nat.ne_zero_of_lt deep)
      obtain ⟨e', rfl⟩ := Nat.exists_eq_add_one_of_ne_zero (Nat.ne_zero_of_lt deep')
      rw [atF e id List.mem_cons_self r found, atG e' id List.mem_cons_self r found]
      exact congr r _ _ fun x hx inner same =>
        below e e' (Nat.le_of_succ_le_succ deep) (Nat.le_of_succ_le_succ deep') inner (rests.within x hx inner same)
    | tail _ mem => exact below d d' (Nat.le_of_succ_le deep) (Nat.le_of_succ_le deep') id' mem

/-! ## Slots -/

/-- The slots of a record, given the slots of the records in it. -/
def slotsStep (r : RecordDef) (slots : RecordId → Nat) : Nat :=
  (r.fields.map fun f => f.ty.slotsWith slots).foldr (· + ·) 0

theorem recordSlots_succ {r : RecordDef} (d : Nat) (found : t.record? id = some r) :
    t.recordSlots (d + 1) id = slotsStep r (t.recordSlots d) := by
  rw [recordSlots, found]
  rfl

/-- Tables that agree on the records count the same slots, to any depth that is enough. -/
theorem recordSlots_eq (h : t.Layers ids) (kept : ∀ id ∈ ids, t'.record? id = t.record? id) {d d' : Nat}
    (deep : ids.length ≤ d) (deep' : ids.length ≤ d') :
    ∀ id ∈ ids, t.recordSlots d id = t'.recordSlots d' id := by
  refine h.settles slotsStep (fun d id _ r found => recordSlots_succ d found)
    (fun d id mem r found => recordSlots_succ d ((kept id mem).trans found)) (fun r f g same => ?_) deep deep'
  exact congrArg (List.foldr (· + ·) 0) (List.map_congr_left fun x hx => Ty.slotsWith_congr (same x hx))

theorem slots_record (h : t.Layers ids) (mem : id ∈ ids) {r : RecordDef} (found : t.record? id = some r) :
    t.slots (.record id) = t.fieldSlots r.fields := by
  have deeper : _ = t.recordSlots _ _ := h.recordSlots_eq (fun _ _ => rfl) h.length_le (Nat.le_succ_of_le h.length_le) id mem
  exact deeper.trans (recordSlots_succ _ found)

/-- Another table with the same complete records. -/
theorem slots_kept (h : t.Layers ids) (kept : ∀ id ∈ ids, t'.record? id = t.record? id)
    (size : ids.length ≤ t'.size) {ty : Ty} (inner : ∀ id, ty.innerRecord? = some id → id ∈ ids) :
    t'.slots ty = t.slots ty :=
  Ty.slotsWith_congr fun id same => (h.recordSlots_eq kept h.length_le size id (inner id same)).symm

/-- Records that are complete stay so while the table grows. -/
theorem mono (h : t.Layers ids) (kept : ∀ id r, t.record? id = some r → r.complete → t'.record? id = some r) :
    t'.Layers ids := by
  induction h with
  | nil => exact .nil
  | @cons ids id r below fresh found complete rests ih =>
    have same : ∀ id ∈ ids, t'.record? id = t.record? id := fun id mem => by
      obtain ⟨r, found, complete, -⟩ := below.found mem
      rw [found]
      exact kept id r found complete
    refine .cons ih fresh (kept id r found complete) complete
      ⟨⟨fun f hf => isComplete_mono kept (rests.complete f hf), ?_, rests.distinct⟩, rests.within⟩
    exact rests.placed.congr fun f hf => below.slots_kept same ih.length_le (rests.within f hf)

end Layers

namespace Layered

variable {id : RecordId} {r : RecordDef}

theorem empty : Layered {} := ⟨[], .nil, fun id r found => by simp [record?] at found⟩

theorem rests (h : t.Layered) (found : t.record? id = some r) (complete : r.complete) :
    ∃ ids, t.Layers ids ∧ t.Rests ids r := by
  obtain ⟨ids, layers, all⟩ := h
  obtain ⟨r', found', -, rests⟩ := layers.found (all id r found complete)
  cases found.symm.trans found'
  exact ⟨ids, layers, rests⟩

theorem slots_record (h : t.Layered) (found : t.record? id = some r) (complete : r.complete) :
    t.slots (.record id) = t.fieldSlots r.fields := by
  obtain ⟨ids, layers, all⟩ := h
  exact layers.slots_record (all id r found complete) found

/-- A table that grows counts the slots of complete types as before. -/
theorem slots_mono (h : t.Layered) (kept : ∀ id r, t.record? id = some r → r.complete → t'.record? id = some r)
    {ty : Ty} (complete : t.isComplete ty) : t'.slots ty = t.slots ty := by
  obtain ⟨ids, layers, all⟩ := h
  refine layers.slots_kept (fun id mem => ?_) (layers.mono kept).length_le fun id inner => ?_
  · obtain ⟨r, found, complete, -⟩ := layers.found mem
    rw [found]
    exact kept id r found complete
  · obtain ⟨r, found, complete⟩ := isComplete_inner complete inner
    exact all id r found complete

/-- Other incomplete records do not matter. -/
theorem mono (h : t.Layered) (kept : ∀ id r, t.record? id = some r → r.complete → t'.record? id = some r)
    (same : ∀ id r, t'.record? id = some r → r.complete → t.record? id = some r) : t'.Layered := by
  obtain ⟨ids, layers, all⟩ := h
  exact ⟨ids, layers.mono kept, fun id r found complete => all id r (same id r found complete) complete⟩

theorem lays_mono (h : t.Layered) (kept : ∀ id r, t.record? id = some r → r.complete → t'.record? id = some r)
    {fs : List Field} (lays : t.Lays fs) : t'.Lays fs :=
  ⟨fun f mem => isComplete_mono kept (lays.complete f mem),
    lays.placed.congr fun f mem => h.slots_mono kept (lays.complete f mem), lays.distinct⟩

/-- One more record is completed. -/
theorem completed (h : t.Layered) (fresh : ∀ r, t.record? id = some r → r.complete = false)
    (found : t'.record? id = some r) (complete : r.complete)
    (same : ∀ id', id' ≠ id → t'.record? id' = t.record? id') (lays : t.Lays r.fields) : t'.Layered := by
  have kept (id' : RecordId) (r' : RecordDef) (old : t.record? id' = some r') (complete : r'.complete) :
      t'.record? id' = some r' := by
    rw [same id', old]
    rintro rfl
    rw [fresh r' old] at complete
    cases complete
  have lays' := h.lays_mono kept lays
  obtain ⟨ids, layers, all⟩ := h
  refine ⟨id :: ids, .cons (layers.mono kept) (fun mem => ?_) found complete { lays' with within := ?_ },
    fun id' r' found' complete' => ?_⟩
  · obtain ⟨r', found', complete', -⟩ := layers.found mem
    exact absurd (fresh r' found') (by simp [complete'])
  · intro f mem id' inner
    obtain ⟨r', found', complete'⟩ := isComplete_inner (lays.complete f mem) inner
    exact all id' r' found' complete'
  · by_cases new : id' = id
    · exact new ▸ List.mem_cons_self
    · exact List.mem_cons_of_mem _ (all id' r' (same id' new ▸ found') complete')

/-! ## Induction -/

/-- A property of complete types that arrays take from their elements and records from their fields. -/
theorem induct {P : Ty → Prop} (h : t.Layered)
    (leaf : ∀ ty : Ty, ty.isAggregate = false → ty.isVoid = false → P ty)
    (array : ∀ ty n, t.isComplete ty → P ty → P (.array ty (some n)))
    (record : ∀ id r, t.record? id = some r → r.complete → (∀ f ∈ r.fields, t.isComplete f.ty ∧ P f.ty) →
      P (.record id)) : ∀ ty, t.isComplete ty → P ty := by
  obtain ⟨ids, layers, all⟩ := h
  -- a type, once the records in it are done
  have lift (done : List RecordId) (records : ∀ id ∈ done, P (.record id)) (ty : Ty) (complete : t.isComplete ty)
      (inside : ∀ id, ty.innerRecord? = some id → id ∈ done) : P ty := by
    induction ty with
    | array ty n ih =>
      obtain ⟨⟨k, rfl⟩, complete⟩ := isComplete_array complete
      exact array ty k complete (ih complete inside)
    | record id => exact records id (inside id rfl)
    | void => cases complete
    | _ => exact leaf _ rfl rfl
  have records : ∀ id ∈ ids, P (.record id) := by
    clear all
    induction layers with
    | nil => exact fun _ mem => nomatch mem
    | @cons ids id r below fresh found complete rests ih =>
      intro id' mem
      cases mem with
      | head =>
        exact record id r found complete fun f hf =>
          ⟨rests.complete f hf, lift ids ih f.ty (rests.complete f hf) (rests.within f hf)⟩
      | tail _ mem => exact ih id' mem
  intro ty complete
  refine lift ids records ty complete fun id inner => ?_
  obtain ⟨r, found, done⟩ := isComplete_inner complete inner
  exact all id r found done

end Layered

end TypeTable

end IncrementalC
