import IncrementalC.Proofs.Analysis.Journal
import IncrementalC.Unit.Basic

/-!
# A rejected fragment leaves no trace

`Reached u kept`: some sequence of fragments, commits, rollbacks and settings leads from the empty
unit to `u`, and the last commit kept `kept`. The invariant `Holds` says that a rollback of `u`
would give what was kept; reading a fragment preserves it at each step, so that it also holds at
the point where the fragment is rejected.

A commit does not keep all that a single text carries along. Records without a tag are numbered anew
in each text, so that a text may be rejected that is accepted as part of a longer one
(`anonymous_records_collide`).
-/
namespace IncrementalC.GrowingUnit
set_option autoImplicit false

/-- What a commit keeps. -/
structure Kept where
  names : Names := {}
  included : List String := []

def kept (u : GrowingUnit) : Kept :=
  ⟨u.analysis.names, u.included ++ u.stagedIncludes⟩

inductive Reached : GrowingUnit → Kept → Prop where
  | start : Reached {} {}
  | parseNamed {u : GrowingUnit} {k : Kept} (h : Reached u k) {σ : Type} (files : FileTree)
      (name text : String) (c : Consumer σ) (start : σ) :
      Reached (u.parseNamed files name text c start).2 k
  | parse {u : GrowingUnit} {k : Kept} (h : Reached u k) {σ : Type} (files : FileTree)
      (text : String) (c : Consumer σ) (start : σ) : Reached (u.parse files text c start).2 k
  | commit {u : GrowingUnit} {k : Kept} (h : Reached u k) : Reached u.commit u.kept
  | rollback {u : GrowingUnit} {k : Kept} (h : Reached u k) : Reached u.rollback k
  | fallback {u : GrowingUnit} {k : Kept} (h : Reached u k) (fallback : Option Fallback) :
      Reached { u with analysis := { u.analysis with fallback } } k
  | dynamic {u : GrowingUnit} {k : Kept} (h : Reached u k) (on : Bool) : Reached (u.setDynamic on) k
  | hooks {u : GrowingUnit} {k : Kept} (h : Reached u k) : Reached u.installHooks k
  | includePath {u : GrowingUnit} {k : Kept} (h : Reached u k) (path : String) :
      Reached (u.addIncludePath path) k
  | forget {u : GrowingUnit} {k : Kept} (h : Reached u k) : Reached u.clearDeferrals k

/-- Nothing is staged, and the program is what was kept. -/
structure Clean (u : GrowingUnit) (k : Kept) : Prop where
  names : u.analysis.names.Same k.names
  included : u.included = k.included
  names_staged : u.analysis.staged = false
  includes_staged : u.stagedIncludes = []

/-- A rollback would give what was kept. -/
structure Holds (u : GrowingUnit) (k : Kept) : Prop where
  restores : u.analysis.Restores k.names
  included : u.included = k.included

variable {σ : Type} {u : GrowingUnit} {k : Kept}

theorem Holds.clean_rollback (h : u.Holds k) : u.rollback.Clean k :=
  ⟨h.restores.names, h.included, rfl, rfl⟩

/-! ## Reading -/

/-- A property of units that no part of reading takes away. -/
structure Readable (P : GrowingUnit → Prop) : Prop where
  sources : ∀ u sources stagedIncludes, P u → P { u with sources, stagedIncludes }
  analyze : ∀ (u : GrowingUnit) t, P u → P { u with analysis := (u.analysis.analyze t).2 }
  transform : ∀ (u : GrowingUnit) t t', P u → u.deferred.enabled →
    P { u with analysis := (u.analysis.analyze t).2
               deferred := (u.deferred.transform (u.analysis.analyze t).2 t').2 }
  synthesized : ∀ u, P u → P { u with analysis := { u.analysis with synthesized := #[] } }
  nextId : ∀ u nextId, P u → P { u with nextId }

/-- A step of reading preserves the property, whatever its outcome. -/
def Preserves {α : Type} (P : GrowingUnit → Prop) (m : Read σ α) : Prop :=
  ∀ p : Progress σ, P p.unit → P (m.run.run p).2.unit

namespace Preserves

variable {α β : Type} {P : GrowingUnit → Prop}

theorem pure (x : α) : Preserves P (Pure.pure x : Read σ α) := fun _ h => h

theorem throw (r : Rejection) : Preserves P (MonadExcept.throw r : Read σ α) := fun _ h => h

theorem run_bind (m : Read σ α) (f : α → Read σ β) (p : Progress σ) :
    (m >>= f).run.run p = match m.run.run p with
      | (.ok x, p') => (f x).run.run p'
      | (.error r, p') => (.error r, p') := by
  show (ExceptT.bindCont f (m.run.run p).1).run (m.run.run p).2 = _
  cases m.run.run p with
  | mk r p' => cases r <;> rfl

theorem bind {m : Read σ α} {f : α → Read σ β} (hm : Preserves P m) (hf : ∀ x, Preserves P (f x)) :
    Preserves P (m >>= f) := by
  intro p h
  have first := hm p h
  rw [run_bind]
  split
  · rename_i x p' run
    rw [run] at first
    exact hf x p' first
  · rename_i r p' run
    rw [run] at first
    exact first

theorem get : Preserves P (MonadState.get : Read σ (Progress σ)) := fun _ h => h

theorem update {g : Progress σ → Progress σ} (hg : ∀ p, P p.unit → P (g p).unit) :
    Preserves P (modify g : Read σ PUnit) := hg

/-- A step that depends on how far the reading is. -/
theorem read {f : Progress σ → Read σ β} (hf : ∀ p, P p.unit → P ((f p).run.run p).2.unit) :
    Preserves P (MonadState.get >>= f) := fun p h => hf p h

/-- A step that depends on the unit as it is. -/
theorem readUnit {f : GrowingUnit → Read σ β}
    (hf : ∀ p : Progress σ, P p.unit → P ((f p.unit).run.run p).2.unit) :
    Preserves P (readUnit >>= f) := hf

theorem reject (e : CompileError) : Preserves P (reject e : Read σ α) := throw _

/-! ## The steps of reading -/

theorem consume (c : Consumer σ) (t : Typed.TopLevel) : Preserves P (consume c t) := by
  unfold GrowingUnit.consume
  refine read fun p h => ?_
  split
  · exact h
  · exact h

variable (readable : Readable P)
include readable

theorem readTokens (files : FileTree) (name text : String) :
    Preserves P (readTokens files name text : Read σ (List Token)) := by
  unfold GrowingUnit.readTokens
  refine readUnit fun p h => ?_
  dsimp only
  refine bind (P := P) ?_ (fun _ => ?_) p h
  · exact fun _ _ => readable.sources _ _ _ h
  · split
    · exact pure _
    · exact reject _

theorem analyzeGroup (t : Syntax.TopLevel) :
    Preserves P (analyzeGroup t : Read σ Typed.TopLevel) := by
  unfold GrowingUnit.analyzeGroup
  refine readUnit fun p h => ?_
  have analysed := readable.analyze p.unit t h
  dsimp only
  refine bind (P := P) ?_ (fun _ => ?_) p h
  · exact fun _ _ => analysed
  · split
    · exact reject _
    · split
      · exact pure _
      · rename_i group _ enabled
        refine bind (P := P) ?_ fun _ => ?_
        · exact fun _ _ => readable.transform p.unit t group h (by simpa using enabled)
        · split
          · exact reject _
          · exact pure _

theorem consumeMadeUp (c : Consumer σ) (span : Span) : Preserves P (consumeMadeUp c span) := by
  unfold GrowingUnit.consumeMadeUp
  refine readUnit fun p h => ?_
  dsimp only
  split
  · refine bind (P := P) ?_ (fun _ => consume c _) p h
    exact fun _ _ => readable.synthesized _ h
  · exact h

theorem readGroup (c : Consumer σ) (t : Syntax.TopLevel) : Preserves P (readGroup c t) := by
  refine bind (analyzeGroup readable t) fun group => bind (consumeMadeUp readable c _) fun _ => ?_
  exact bind (consume c group) fun _ => update fun _ h => h

theorem readGroups (c : Consumer σ) (count : Nat) (cursor : Syntax.Cursor) :
    Preserves P (readGroups c count cursor) := by
  induction count generalizing cursor with
  | zero => exact pure _
  | succ count ih =>
    unfold GrowingUnit.readGroups
    split
    · exact throw _
    · exact pure _
    · exact bind (readGroup readable c _) fun _ => ih _

theorem readFragment (files : FileTree) (name text : String) (c : Consumer σ) :
    Preserves P (readFragment files name text c) := by
  unfold GrowingUnit.readFragment
  refine readUnit fun p h => ?_
  refine bind (readTokens readable files name text) (fun tokens => ?_) p h
  refine bind (readGroups readable c _ _) fun cursor => ?_
  refine bind (update fun _ h => readable.nextId _ _ h) fun _ => ?_
  exact bind get fun _ => pure _

end Preserves

/-- A step that succeeds is its first part and what follows it. -/
theorem read_bind_ok {α β : Type} {m : Read σ α} {f : α → Read σ β} {p p'' : Progress σ} {y : β}
    (h : (m >>= f).run.run p = (.ok y, p'')) : ∃ x p', m.run.run p = (.ok x, p') ∧ (f x).run.run p' = (.ok y, p'') := by
  rw [Preserves.run_bind] at h
  split at h
  · exact ⟨_, _, ‹_›, h⟩
  · cases h

theorem readable_holds (k : Kept) : Readable fun u => u.Holds k where
  sources _ _ _ h := ⟨h.restores, h.included⟩
  analyze _ t h := ⟨Analysis.restores_analyze h.restores t, h.included⟩
  transform _ t _ h _ := ⟨Analysis.restores_analyze h.restores t, h.included⟩
  synthesized _ h := ⟨h.restores.of_eq rfl rfl rfl, h.included⟩
  nextId _ _ h := ⟨h.restores, h.included⟩

/-! ## The invariant of reached units -/

/-- The unit at the point where the reading of a fragment ends. -/
theorem parseNamed_cases {P : GrowingUnit → Prop} (readable : Readable P) (u : GrowingUnit) (files : FileTree)
    (name text : String) (c : Consumer σ) (start : σ) (h : P u) :
    ∃ v : GrowingUnit, P v ∧
      match (u.parseNamed files name text c start).1.1 with
      | .ok _ => (u.parseNamed files name text c start).2 = { v with errorCount := 0 }
      | .error r => (u.parseNamed files name text c start).2
          = { v.rollback with errorCount := r.errors.length } := by
  have read : P (ExceptT.run (readFragment files name text c) { unit := u, seen := start }).2.unit :=
    Preserves.readFragment readable files name text c { unit := u, seen := start } h
  unfold GrowingUnit.parseNamed
  cases run : ExceptT.run (readFragment files name text c) { unit := u, seen := start } with
  | mk result p =>
    rw [run] at read
    refine ⟨p.unit, read, ?_⟩
    cases result <;> rfl

theorem Holds.parseNamed (h : u.Holds k) (files : FileTree) (name text : String) (c : Consumer σ)
    (start : σ) : (u.parseNamed files name text c start).2.Holds k := by
  obtain ⟨v, hv, after⟩ := parseNamed_cases (readable_holds k) u files name text c start h
  split at after
  · rw [after]
    exact ⟨hv.restores, hv.included⟩
  · rw [after]
    exact ⟨Analysis.restores_rollback hv.restores, hv.included⟩

theorem Holds.counted (h : u.Holds k) (inputCount : Nat) : { u with inputCount }.Holds k :=
  ⟨h.restores, h.included⟩

theorem Reached.holds (h : Reached u k) : u.Holds k := by
  induction h with
  | start => exact ⟨⟨Names.Same.refl _, fun _ h => by cases h⟩, rfl⟩
  | parseNamed _ files name text c start ih => exact ih.parseNamed files name text c start
  | parse _ files text c start ih => exact (ih.counted _).parseNamed files _ text c start
  | @commit u _ _ ih => exact ⟨Analysis.restores_commit u.analysis, rfl⟩
  | rollback _ ih => exact ⟨Analysis.restores_rollback ih.restores, ih.included⟩
  | fallback _ _ ih => exact ⟨ih.restores.of_eq rfl rfl rfl, ih.included⟩
  | dynamic _ _ ih => exact ⟨ih.restores.of_eq rfl rfl rfl, ih.included⟩
  | hooks _ ih => exact ⟨ih.restores.of_eq rfl rfl rfl, ih.included⟩
  | includePath _ _ ih =>
    unfold addIncludePath
    split
    · exact ih
    · exact ⟨ih.restores, ih.included⟩
  | forget _ ih => exact ⟨ih.restores, ih.included⟩

theorem Holds.clean_rejected (h : u.Holds k) (files : FileTree) (name text : String)
    (c : Consumer σ) (start : σ) {r : Rejection}
    (rejected : (u.parseNamed files name text c start).1.1 = .error r) :
    (u.parseNamed files name text c start).2.Clean k := by
  obtain ⟨v, hv, after⟩ := parseNamed_cases (readable_holds k) u files name text c start h
  rw [rejected] at after
  rw [after]
  exact ⟨hv.restores.names, hv.included, rfl, rfl⟩

/-! ## The result -/

/-- Whatever a unit has gone through, a rejected fragment and a rollback both lead back to what the
last commit kept, with nothing staged. -/
theorem rejected_or_rolled_back_is_kept {u : GrowingUnit} {k : Kept} (h : Reached u k) :
    u.rollback.Clean k ∧
      ∀ (σ : Type) (files : FileTree) (text : String) (c : Consumer σ) (start : σ),
        (∀ name r, (u.parseNamed files name text c start).1.1 = .error r →
          (u.parseNamed files name text c start).2.Clean k) ∧
        (∀ r, (u.parse files text c start).1.1 = .error r →
          (u.parse files text c start).2.Clean k) := by
  refine ⟨h.holds.clean_rollback, fun σ files text c start => ⟨?_, ?_⟩⟩
  · intro name r rejected
    exact h.holds.clean_rejected files name text c start rejected
  · intro r rejected
    exact (h.holds.counted _).clean_rejected files _ text c start rejected

/-- After `int a;` was committed, a fragment fails behind declarations of its own. -/
theorem kept_after_undeclared_name :
    let u := (({} : GrowingUnit).parse {} "int a;" Consumer.none ()).2
    let after := u.commit.parse {} "struct A { int x; }; int a = 1; int b = c;" Consumer.none ()
    after.1.1.toOption.isNone ∧ after.2.Clean u.kept := by
  intro u after
  have rejected : after.1.1.toOption.isNone := by decide +kernel
  refine ⟨rejected, ?_⟩
  have reached : Reached u.commit u.kept := .commit (.parse .start {} "int a;" Consumer.none ())
  have clean := (rejected_or_rolled_back_is_kept reached).2 Unit {}
    "struct A { int x; }; int a = 1; int b = c;" Consumer.none ()
  cases outcome : after.1.1 with
  | ok fragment =>
    rw [outcome] at rejected
    cases rejected
  | error r => exact clean.2 r outcome

/-! ## One text or two -/

/-- The complaint about a text that is rejected. -/
def complaint? (u : GrowingUnit) (text : String) : Option String :=
  match (u.parse {} text .code {}).1.1 with
  | .ok _ => none
  | .error r => some r.message

/-- Records without a tag are numbered from one in each text. The number of a record that was committed is given to
the next one again, while in one text the two have different numbers. -/
theorem anonymous_records_collide :
    let first := "typedef struct \x7b int a; \x7d *P;"
    let second := "typedef struct \x7b int b; \x7d *Q;"
    let u := (({} : GrowingUnit).parse {} first .code {}).2.commit
    complaint? {} first = none ∧ complaint? {} (first ++ "\n" ++ second) = none ∧
      u.complaint? second = some "redefinition of '__cinder_anon_1'" := by
  decide +kernel

end IncrementalC.GrowingUnit
