import IncrementalC.Proofs.Analysis.UnitAccepted

/-!
# Reachable states are sound, and their records nest

`Analysis.Reached a`: groups that were accepted or rejected, commits, rollbacks and settings lead from
the empty state to `a`. Such a state is sound (`Analysis.Reached.sound`): a rejected group may leave
anything behind, but its rollback gives the names of the last commit, and those were sound.

Only the definition of a record completes one, and its fields are complete by then and lie one behind the other.
So the table of every state that groups, commits and rollbacks lead to is layered (`Analysis.Reached.layered`).
-/
namespace IncrementalC
set_option autoImplicit false
open Relation
/-- What is bound for a name that nobody declared is an object. -/
def Fallback.Sound (f : Fallback) : Prop :=
  ∀ name ty v, f.lookup? name = some (.bind ty v) → ty.IsObject

namespace Analysis

inductive Reached : Analysis → Prop where
  | start : Reached {}
  | accepted {a : Analysis} (h : Reached a) {t : Syntax.TopLevel} {t' : Typed.TopLevel}
      (written : t.Written) (accepted : (a.analyze t).1 = .ok t') : Reached (a.analyze t).2
  | rejected {a : Analysis} (h : Reached a) {t : Syntax.TopLevel} : Reached (a.analyze t).2.rollback
  | commit {a : Analysis} (h : Reached a) : Reached a.commit
  | rollback {a : Analysis} (h : Reached a) : Reached a.rollback
  | fallback {a : Analysis} (h : Reached a) (fallback : Option Fallback)
      (sound : ∀ f, fallback = some f → f.Sound) : Reached { a with fallback }
  | hooks {a : Analysis} (h : Reached a) (hasHooks : Bool) : Reached { a with hasHooks }
  | handedOut {a : Analysis} (h : Reached a) (synthesized : Array Typed.Decl) :
      Reached { a with synthesized }

/-- A rollback gives sound names. -/
def Recoverable (a : Analysis) : Prop :=
  ∃ n : Names, a.Restores n ∧ Sound { names := n, fallback := a.fallback }

variable {a b : Analysis}

theorem Sound.of_same (h : a.Sound) (names : b.names.Same a.names) (fallback : b.fallback = a.fallback)
    (scopes : b.scopes = []) : b.Sound where
  global name s hs := h.global name s (by rw [← names.globals]; exact hs)
  record id r hr := h.record id r (by rw [types, ← names.types]; exact hr)
  scopes scope hscope := by
    rw [scopes] at hscope
    cases hscope
  fallback name ty v hv := h.fallback name ty v (by rw [← fallback]; exact hv)

theorem Recoverable.rollback (h : a.Recoverable) : a.rollback.Sound ∧ a.rollback.Recoverable := by
  obtain ⟨n, restores, sound⟩ := h
  exact ⟨sound.of_same restores.names rfl rfl, n, restores_rollback restores, sound⟩

theorem Recoverable.analyze (h : a.Recoverable) (t : Syntax.TopLevel) :
    (a.analyze t).2.Recoverable := by
  obtain ⟨n, restores, sound⟩ := h
  have fallback : (a.analyze t).2.fallback = a.fallback :=
    (Analyze.Changes.extends (analyze_changes a t)).fallback
  refine ⟨n, restores_analyze restores t, ?_⟩
  rw [fallback]
  exact sound

theorem sound_empty : Sound {} where
  global _ _ h := by cases h
  record id r h := by
    have none : (#[] : Array RecordDef)[id]? = some r := h
    simp at none
  scopes _ h := by cases h
  fallback _ _ _ h := by cases h

theorem Reached.invariant (h : Reached a) : a.Sound ∧ a.Recoverable := by
  induction h with
  | start => exact ⟨sound_empty, {}, restores_commit {}, sound_empty⟩
  | accepted _ written accepted ih => exact ⟨(ih.1.analyze written accepted).1, ih.2.analyze _⟩
  | rejected _ ih => exact (ih.2.analyze _).rollback
  | @commit a _ ih =>
    exact ⟨{ ih.1 with }, a.names, restores_commit a, { ih.1 with scopes := fun _ h => by cases h }⟩
  | rollback _ ih => exact ih.2.rollback
  | fallback _ f sound ih =>
    have bound (name : String) (ty : Ty) (v : Constant)
        (hv : f.bind (·.lookup? name) = some (.bind ty v)) : ty.IsObject := by
      cases f with
      | none => cases hv
      | some f => exact sound f rfl name ty v hv
    obtain ⟨n, restores, names⟩ := ih.2
    exact ⟨{ ih.1 with fallback := bound }, n, restores.of_eq rfl rfl rfl, { names with fallback := bound }⟩
  | hooks _ _ ih | handedOut _ _ ih =>
    obtain ⟨n, restores, names⟩ := ih.2
    exact ⟨{ ih.1 with }, n, restores.of_eq rfl rfl rfl, names⟩

theorem Reached.sound (h : Reached a) : a.Sound := h.invariant.1

end Analysis

/-! ## The table of records -/

namespace Analyze

variable {a b : Analysis}

theorem Change.layered (h : Change a b) (layered : a.types.Layered) : b.types.Layered := by
  cases h with
  | mention h => exact (Mentions.layered (.single h)).mp layered
  | @complete id old name fields present incomplete _ lays =>
    rw [run_defineRecord, present]
    have fresh (r : RecordDef) (found : a.types.record? id = some r) : r.complete = false := by
      rw [present] at found
      cases found
      exact incomplete
    have defined (id' : RecordId) : (a.types.set id ⟨name, fields, true⟩).record? id' =
        if id = id' then some ⟨name, fields, true⟩ else a.types.record? id' := by
      rw [TypeTable.record?_set, if_pos (TypeTable.lt_size present)]
    exact layered.completed fresh ((defined id).trans (if_pos rfl)) rfl
      (fun id' other => (defined id').trans (if_neg other.symm)) (lays layered)
  | global _ | enum _ | scopes _ | function _ => exact layered

theorem Changes.layered (h : ReflTransGen Change a b) (layered : a.types.Layered) : b.types.Layered := by
  induction h with
  | refl => exact layered
  | tail _ h ih => exact h.layered ih

end Analyze

namespace Analysis

variable {a : Analysis}

theorem layered_analyze (layered : a.types.Layered) (t : Syntax.TopLevel) : (a.analyze t).2.types.Layered := by
  have changed : ((Analyze.topLevel t).run { a with errors := #[] }).2.types.Layered :=
    Analyze.Changes.layered (analyze_changes a t) layered
  exact changed

/-- The present table is layered, and so is the one that a rollback leads back to. -/
theorem Reached.tables (h : Reached a) : a.types.Layered ∧ ∃ n : Names, a.Restores n ∧ n.types.Layered := by
  have back {a : Analysis} {n : Names} (restores : a.Restores n) (layered : n.types.Layered) :
      a.rollback.types.Layered ∧ ∃ n : Names, a.rollback.Restores n ∧ n.types.Layered :=
    ⟨show a.rollback.names.types.Layered from restores.names.types ▸ layered, n, restores_rollback restores, layered⟩
  induction h with
  | start => exact ⟨.empty, {}, restores_commit {}, .empty⟩
  | @accepted a _ t _ _ _ ih =>
    obtain ⟨layered, n, restores, before⟩ := ih
    exact ⟨layered_analyze layered t, n, restores_analyze restores t, before⟩
  | @rejected a _ t ih =>
    obtain ⟨-, n, restores, before⟩ := ih
    exact back (restores_analyze restores t) before
  | @commit a _ ih => exact ⟨ih.1, a.names, restores_commit a, ih.1⟩
  | rollback _ ih =>
    obtain ⟨-, n, restores, before⟩ := ih
    exact back restores before
  | fallback _ _ _ ih | hooks _ _ ih | handedOut _ _ ih =>
    obtain ⟨layered, n, restores, before⟩ := ih
    exact ⟨layered, n, restores.of_eq rfl rfl rfl, before⟩

theorem Reached.layered (h : Reached a) : a.types.Layered := h.tables.1

end Analysis

end IncrementalC
