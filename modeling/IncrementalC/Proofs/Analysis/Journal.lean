import IncrementalC.Proofs.Analysis.UnitChanges

/-!
# The journal takes every change back

`Restores a n`: undoing the journal of `a` gives the names `n`. Every change keeps this, so rolling
an analysis back always gives the names of the last commit. Names are compared by what they say of
each identifier and by the table of records.
-/
namespace IncrementalC
set_option autoImplicit false
open Relation

/-! ## Names that say the same -/

/-- Two sets of names agree on every identifier and on the first `size` records. -/
structure Names.AgreeTo (size : Nat) (n m : Names) : Prop where
  types : n.types.truncate size = m.types.truncate size
  globals : ∀ name, n.globals.get? name = m.globals.get? name
  tags : ∀ name, n.tags.get? name = m.tags.get? name

/-- Two sets of names agree on every identifier and on all records. -/
structure Names.Same (n m : Names) : Prop where
  types : n.types = m.types
  globals : ∀ name, n.globals.get? name = m.globals.get? name
  tags : ∀ name, n.tags.get? name = m.tags.get? name

namespace Names

variable {n m k : Names} {size : Nat}

theorem Same.refl (n : Names) : n.Same n := ⟨rfl, fun _ => rfl, fun _ => rfl⟩

theorem Same.trans (h : n.Same m) (h' : m.Same k) : n.Same k :=
  ⟨h.types.trans h'.types, fun name => (h.globals name).trans (h'.globals name),
    fun name => (h.tags name).trans (h'.tags name)⟩

theorem Same.agreeTo (h : n.Same m) (size : Nat) : n.AgreeTo size m :=
  ⟨by rw [h.types], h.globals, h.tags⟩

end Names

/-! ## Cutting off the table of records -/

namespace TypeTable

theorem ext_records {t s : TypeTable} (h : ∀ id, t.record? id = s.record? id) : t = s := by
  obtain ⟨t⟩ := t
  obtain ⟨s⟩ := s
  exact congrArg mk (Array.ext_getElem? h)

theorem record?_truncate (t : TypeTable) (size id : Nat) :
    (t.truncate size).record? id = if id < size then t.record? id else none := by
  unfold truncate record? Array.take
  rw [Array.getElem?_extract]
  simp only [Nat.zero_add, Nat.sub_zero, Nat.lt_min]
  by_cases h : id < size
  · by_cases h' : id < t.records.size
    · simp [h, h']
    · simp [h, h']
  · simp [h]

theorem record?_set (t : TypeTable) (id other : RecordId) (r : RecordDef) :
    (t.set id r).record? other
      = if id = other then if id < t.size then some r else none else t.record? other :=
  Array.getElem?_setIfInBounds

theorem record?_add (t : TypeTable) (id : RecordId) (r : RecordDef) :
    (t.add r).record? id = if id = t.size then some r else t.record? id :=
  Array.getElem?_push

theorem lt_size {t : TypeTable} {id : RecordId} {r : RecordDef} (h : t.record? id = some r) :
    id < t.size :=
  (Array.getElem?_eq_some_iff.mp h).1

theorem size_set (t : TypeTable) (id : RecordId) (r : RecordDef) : (t.set id r).size = t.size :=
  Array.size_setIfInBounds

theorem truncate_size (t : TypeTable) : t.truncate t.size = t := by
  unfold truncate size
  simp

theorem truncate_truncate (t : TypeTable) {size k : Nat} (h : k ≤ size) :
    (t.truncate size).truncate k = t.truncate k := by
  refine ext_records fun id => ?_
  rw [record?_truncate, record?_truncate, record?_truncate]
  split
  · rename_i below
    rw [if_pos (Nat.lt_of_lt_of_le below h)]
  · rfl

theorem truncate_set (t : TypeTable) (id : RecordId) (r : RecordDef) (size : Nat) :
    (t.set id r).truncate size = (t.truncate size).set id r := by
  refine ext_records fun other => ?_
  have cut : (t.truncate size).size = min size t.size := by
    unfold truncate TypeTable.size
    simp
  rw [record?_truncate, record?_set, record?_set, record?_truncate, cut]
  by_cases same : id = other
  · subst same
    have both : id < min size t.size ↔ id < size ∧ id < t.size := Nat.lt_min
    by_cases below : id < size <;> simp [both, below]
  · simp only [same, if_false]

theorem truncate_add (t : TypeTable) (r : RecordDef) {size : Nat} (h : size ≤ t.size) :
    (t.add r).truncate size = t.truncate size := by
  refine ext_records fun id => ?_
  rw [record?_truncate, record?_truncate, record?_add]
  split
  · rename_i below
    rw [if_neg (Nat.ne_of_lt (Nat.lt_of_lt_of_le below h))]
  · rfl

theorem set_set {t : TypeTable} {id : RecordId} {old : RecordDef} (r : RecordDef)
    (h : t.record? id = some old) : (t.set id r).set id old = t := by
  refine ext_records fun other => ?_
  rw [record?_set, record?_set, size_set]
  have := lt_size h
  by_cases same : id = other
  · subst same
    simp [this, h]
  · simp [same]

end TypeTable

/-! ## Undoing -/

namespace Names

variable {n m : Names} {size : Nat}

theorem AgreeTo.apply (h : n.AgreeTo size m) (u : Undo) : (u.apply n).AgreeTo size (u.apply m) := by
  cases u with
  | global name old =>
    refine ⟨h.types, fun other => ?_, h.tags⟩
    simp only [Undo.apply, NameMap.get?_restore, h.globals]
  | tag name old =>
    refine ⟨h.types, h.globals, fun other => ?_⟩
    simp only [Undo.apply, NameMap.get?_restore, h.tags]
  | record id old =>
    refine ⟨?_, h.globals, h.tags⟩
    simp only [Undo.apply, TypeTable.truncate_set, h.types]

theorem AgreeTo.foldl (h : n.AgreeTo size m) (journal : List Undo) :
    (journal.foldl (fun n u => u.apply n) n).AgreeTo size
      (journal.foldl (fun n u => u.apply n) m) := by
  induction journal generalizing n m with
  | nil => exact h
  | cons u journal ih => exact ih (h.apply u)

theorem AgreeTo.mono (h : n.AgreeTo size m) {k : Nat} (hk : k ≤ size) : n.AgreeTo k m := by
  refine ⟨?_, h.globals, h.tags⟩
  rw [← TypeTable.truncate_truncate n.types hk, h.types, TypeTable.truncate_truncate m.types hk]

theorem size_apply (n : Names) (u : Undo) : (u.apply n).types.size = n.types.size := by
  cases u with
  | record id old => exact TypeTable.size_set _ _ _
  | global _ _ | tag _ _ => rfl

theorem size_foldl (n : Names) (journal : List Undo) :
    (journal.foldl (fun n u => u.apply n) n).types.size = n.types.size := by
  induction journal generalizing n with
  | nil => rfl
  | cons u journal ih => exact (ih (u.apply n)).trans (size_apply n u)

end Names

/-! ## The invariant -/

/-- Undoing the journal of the analysis gives the names `n`. -/
structure Analysis.Restores (a : Analysis) (n : Names) : Prop where
  names : (a.names.undo a.journal a.recordMark).Same n
  mark : ∀ size, a.recordMark = some size → size ≤ a.types.size

namespace Names

variable {n m : Names}

theorem Same.of_agreeTo (h : ∀ size, n.AgreeTo size m) : n.Same m := by
  refine ⟨TypeTable.ext_records fun id => ?_, (h 0).globals, (h 0).tags⟩
  have cut := congrArg (·.record? id) (h (id + 1)).types
  simpa only [TypeTable.record?_truncate, Nat.lt_succ_self, if_true] using cut

theorem Same.undo (h : n.Same m) (journal : List Undo) (mark : Option Nat) :
    (n.undo journal mark).Same (m.undo journal mark) := by
  cases mark with
  | none => exact .of_agreeTo fun size => (h.agreeTo size).foldl journal
  | some k =>
    have agree := (h.agreeTo k).foldl journal
    exact ⟨agree.types, agree.globals, agree.tags⟩

/-- A record above the mark is gone after undoing, whatever stood in it. -/
theorem AgreeTo.undo {mark : Option Nat} (h : n.AgreeTo m.types.size m)
    (inside : ∀ k, mark = some k → k ≤ m.types.size) (journal : List Undo) :
    (n.undo journal (mark <|> some m.types.size)).Same (m.undo journal mark) := by
  cases mark with
  | none =>
    have agree := h.foldl journal
    refine ⟨agree.types.trans ?_, agree.globals, agree.tags⟩
    rw [← size_foldl m journal, TypeTable.truncate_size]
    rfl
  | some k =>
    have agree := (h.mono (inside k rfl)).foldl journal
    exact ⟨agree.types, agree.globals, agree.tags⟩

end Names

namespace Analysis

variable {a b : Analysis} {n : Names}

theorem Restores.of_eq (h : a.Restores n) (names : b.names = a.names) (journal : b.journal = a.journal)
    (mark : b.recordMark = a.recordMark) : b.Restores n := by
  refine ⟨?_, ?_⟩
  · rw [names, journal, mark]
    exact h.names
  · intro size hsize
    rw [mark] at hsize
    rw [Analysis.types, names]
    exact h.mark size hsize

/-- A change is taken back by the entry of the journal that was written for it. -/
theorem Restores.entry (h : a.Restores n) {u : Undo} (names : b.names.types.size = a.names.types.size)
    (inverse : (u.apply b.names).Same a.names) (journal : b.journal = u :: a.journal)
    (mark : b.recordMark = a.recordMark) : b.Restores n := by
  refine ⟨?_, ?_⟩
  · rw [journal, mark]
    exact (inverse.undo a.journal a.recordMark).trans h.names
  · intro size hsize
    rw [mark] at hsize
    rw [Analysis.types, names]
    exact h.mark size hsize

end Analysis

namespace Analyze

variable {a b : Analysis} {n : Names}

theorem restores_setGlobal (h : a.Restores n) (name : String) (s : Symbol) :
    ((setGlobal name s).run a).2.Restores n := by
  refine h.entry (u := .global name (a.names.globals.get? name)) rfl ⟨rfl, fun other => ?_, fun _ => rfl⟩
    rfl rfl
  show ((a.names.globals.insert name s).restore name (a.names.globals.get? name)).get? other = _
  rw [NameMap.get?_restore, NameMap.get?_insert]
  split
  · rename_i same
    rw [same]
  · rfl

theorem restores_setTag (h : a.Restores n) (name : String) (t : Tag) :
    ((setTag name t).run a).2.Restores n := by
  refine h.entry (u := .tag name (a.names.tags.get? name)) rfl ⟨rfl, fun _ => rfl, fun other => ?_⟩
    rfl rfl
  show ((a.names.tags.insert name t).restore name (a.names.tags.get? name)).get? other = _
  rw [NameMap.get?_restore, NameMap.get?_insert]
  split
  · rename_i same
    rw [same]
  · rfl

theorem restores_addRecord (h : a.Restores n) (r : RecordDef) :
    ((addRecord r).run a).2.Restores n := by
  have cut : ({ a.names with types := a.types.add r } : Names).AgreeTo a.types.size a.names :=
    ⟨TypeTable.truncate_add _ _ (Nat.le_refl _), fun _ => rfl, fun _ => rfl⟩
  refine ⟨(cut.undo h.mark a.journal).trans h.names, ?_⟩
  intro size hsize
  have added : (a.types.add r).size = a.types.size + 1 := Array.size_push _
  have inside : size ≤ a.types.size := by
    cases hmark : a.recordMark with
    | none =>
      have : (a.recordMark <|> some a.types.size) = some size := hsize
      rw [hmark] at this
      cases this
      exact Nat.le_refl _
    | some k =>
      have : (a.recordMark <|> some a.types.size) = some size := hsize
      rw [hmark] at this
      cases this
      exact h.mark _ hmark
  show size ≤ (a.types.add r).size
  omega

theorem restores_defineRecord (h : a.Restores n) (id : RecordId) (r : RecordDef) :
    ((defineRecord id r).run a).2.Restores n := by
  rw [run_defineRecord]
  split
  · rename_i old present
    refine h.entry (u := .record id old) (TypeTable.size_set _ _ _)
      ⟨TypeTable.set_set r present, fun _ => rfl, fun _ => rfl⟩ rfl rfl
  · exact h

theorem Report.restores (h : Report a b) (ha : a.Restores n) : b.Restores n := by
  cases h
  exact ha.of_eq rfl rfl rfl

theorem Mention.restores (h : Mention a b) (ha : a.Restores n) : b.Restores n := by
  cases h with
  | report h => exact h.restores ha
  | record _ => exact restores_setTag (restores_addRecord ha _) _ _
  | value _ _ => exact (restores_setGlobal ha _ _).of_eq rfl rfl rfl

theorem Change.restores (h : Change a b) (ha : a.Restores n) : b.Restores n := by
  cases h with
  | mention h => exact h.restores ha
  | global _ => exact restores_setGlobal ha _ _
  | enum _ => exact restores_setTag ha _ _
  | complete _ _ _ _ => exact restores_defineRecord ha _ _
  | scopes _ | function _ => exact ha.of_eq rfl rfl rfl

theorem Changes.restores (h : ReflTransGen Change a b) (ha : a.Restores n) : b.Restores n := by
  induction h with
  | refl => exact ha
  | tail _ h ih => exact h.restores ih

end Analyze

/-! ## Commit, rollback and whole groups -/

namespace Analysis

variable {a : Analysis} {n : Names}

theorem restores_commit (a : Analysis) : a.commit.Restores a.names :=
  ⟨Names.Same.refl _, fun _ h => by cases h⟩

theorem restores_rollback (h : a.Restores n) : a.rollback.Restores n :=
  ⟨h.names, fun _ h => by cases h⟩

theorem restores_analyze (h : a.Restores n) (t : Syntax.TopLevel) : (a.analyze t).2.Restores n := by
  have started : { a with errors := #[] }.Restores n := h.of_eq rfl rfl rfl
  have analysed := Analyze.Changes.restores (analyze_changes a t) started
  exact analysed.of_eq rfl rfl rfl

end Analysis

end IncrementalC
