import IncrementalC.Proofs.Analysis.NumberedBody
import IncrementalC.Proofs.Deferred.Outcome
import Mathlib.Data.List.Forall2

/-!
# Unknown names are eliminated, and nothing else changes

A group that was read and accepted holds no unknown name once its dependent expressions are replaced.
Node by node, what held no dependent expression is what it was; the marked statements of a body are
those that held one (`transform_eliminates`).
-/
namespace IncrementalC.Deferred
set_option autoImplicit false
open Typed

/-! ## What stays -/

/-- Without dependent expressions `x` stays what it is. -/
def Kept {α : Type} (exprs : α → List Expr) (x y : α) : Prop := NoneDependent (exprs x) → y = x

/-- Whatever the state, the step gives something that satisfies `Q`. -/
def Gives {α : Type} (m : Transform α) (Q : α → Prop) : Prop := ∀ s, Q (m.run s).1

namespace Gives

variable {α β : Type} {m : Transform α} {P : α → Prop} {Q : β → Prop}

theorem pure {x : β} (h : Q x) : Gives (Pure.pure x) Q := fun _ => h

theorem skip {f : α → Transform β} (hf : ∀ x, Gives (f x) Q) : Gives (m >>= f) Q :=
  fun s => hf (m.run s).1 (m.run s).2

theorem bind {f : α → Transform β} (hm : Gives m P) (hf : ∀ x, P x → Gives (f x) Q) :
    Gives (m >>= f) Q :=
  fun s => hf (m.run s).1 (hm s) (m.run s).2

theorem mapM {R : β → β → Prop} {g : α → List β} {f : α → Transform α} {xs : List α}
    (hf : ∀ x ∈ xs, Gives (f x) fun y => List.Forall₂ R (g x) (g y)) :
    Gives (xs.mapM f) fun ys => List.Forall₂ R (xs.flatMap g) (ys.flatMap g) := by
  induction xs with
  | nil => exact pure .nil
  | cons x xs ih =>
    rw [List.mapM_cons]
    obtain ⟨head, tail⟩ := List.forall_mem_cons.mp hf
    refine bind head fun y hy => bind (ih tail) fun ys hys => pure ?_
    rw [List.flatMap_cons, List.flatMap_cons]
    exact List.rel_append hy hys

end Gives

variable {c : Context}

theorem ReplacesIn.kept {α : Type} {exprs : α → List Expr} {x : α} {m : Transform α}
    (h : ReplacesIn c exprs x m) : Gives m (Kept exprs x) := by
  intro s free
  obtain ⟨ds, es, -, outcome⟩ := h s
  obtain ⟨hds, hes⟩ := outcome.untouched free
  exact outcome.same hds hes

/-! ## Initial values -/

abbrev KeptInits : List Initializer → List Initializer → Prop := List.Forall₂ (Kept Initializer.exprs)

theorem nested_of_inner (sound : c.analysis.Sound) {ty : Ty} (definite : ty.Definite) {i : Initializer}
    (h : AcceptedInit c.analysis ty i)
    (inner : Gives (initializer c ty i) fun j => KeptInits (Initializer.inner i) (Initializer.inner j)) :
    Gives (initializer c ty i) fun j => KeptInits (Initializer.nested i) (Initializer.nested j) :=
  fun s => .cons ((replaces_initializer sound definite h).kept s) (inner s)

mutual

theorem inner_initializer (sound : c.analysis.Sound) {ty : Ty} (definite : ty.Definite) :
    ∀ {i : Initializer}, AcceptedInit c.analysis ty i →
      Gives (initializer c ty i) fun j => KeptInits (Initializer.inner i) (Initializer.inner j)
  | .expr e, _ => .skip fun _ => .pure .nil
  | .construct args span, _ => by
    unfold initializer
    exact .skip fun _ => .pure .nil
  | .list items span, h => by
    rw [AcceptedInit.eq_def] at h
    unfold initializer
    cases ty with
    | array elem n =>
      have inside : elem.Definite := definite
      exact .bind (nested_elements sound inside h) fun _ kept => .pure kept
    | record id =>
      obtain ⟨r, found, -, members⟩ := h
      have fields : ∀ f ∈ r.fields, f.ty.Definite :=
        fun f hf => ((sound.record id r found).fields f hf).definite
      dsimp only
      rw [found]
      exact .bind (nested_members sound fields members) fun _ kept => .pure kept
    | _ =>
      refine .bind (nested_elements sound definite (acceptedElements_of_scalar h)) fun _ kept => .pure kept

theorem nested_elements (sound : c.analysis.Sound) {elem : Ty} (definite : elem.Definite) :
    ∀ {is : List Initializer}, AcceptedElements c.analysis elem is →
      Gives (elements c elem is) fun js => KeptInits (Initializer.nestedAll is) (Initializer.nestedAll js)
  | [], _ => .pure .nil
  | i :: is, h => by
    unfold elements
    have head := nested_of_inner sound definite h.1 (inner_initializer sound definite h.1)
    refine .bind head fun j hj =>
      .bind (nested_elements sound definite h.2) fun js hjs => .pure ?_
    exact List.rel_append hj hjs

theorem nested_members (sound : c.analysis.Sound) : ∀ {fields : List Field} {is : List Initializer},
    (∀ f ∈ fields, f.ty.Definite) → AcceptedMembers c.analysis fields is →
      Gives (members c fields is) fun js => KeptInits (Initializer.nestedAll is) (Initializer.nestedAll js)
  | _, [], _, _ => by unfold members; exact .pure .nil
  | [], _ :: _, _, h => by cases h
  | f :: fields, i :: is, definite, h => by
    unfold members
    obtain ⟨first, rest⟩ := List.forall_mem_cons.mp definite
    have head := nested_of_inner sound first h.1 (inner_initializer sound first h.1)
    refine .bind head fun j hj =>
      .bind (nested_members sound rest h.2) fun js hjs => .pure ?_
    exact List.rel_append hj hjs

end

theorem kept_decl (sound : c.analysis.Sound) {d : Decl} (h : d.kind.Accepted c.analysis) :
    Gives (decl c d) fun d' => KeptInits (d.initializer?.toList.flatMap Initializer.nested)
      (d'.initializer?.toList.flatMap Initializer.nested) := by
  obtain ⟨kind, span⟩ := d
  unfold decl
  cases kind with
  | var v =>
    obtain ⟨name, ty, init, storage, linkName, isExtern, constantInit⟩ := v
    cases init with
    | none => exact .pure .nil
    | some init =>
      have accepted := h.init init rfl
      have nested := nested_of_inner sound h.object.definite accepted
        (inner_initializer sound h.object.definite accepted)
      refine .bind nested fun j hj => .pure ?_
      show KeptInits (Initializer.nested init ++ []) (Initializer.nested j ++ [])
      rw [List.append_nil, List.append_nil]
      exact hj
  | _ => exact .pure .nil

theorem kept_declGroup (sound : c.analysis.Sound) {g : DeclGroup}
    (h : AcceptedDecls c.analysis g.decls) :
    Gives (declGroup c g) fun g' => KeptInits g.initializers g'.initializers :=
  .bind (.mapM fun d hd => kept_decl sound (h d hd)) fun _ kept => .pure kept

/-! ## Statements -/

abbrev KeptStmts : List Stmt → List Stmt → Prop := List.Forall₂ (Kept Stmt.exprs)

/-- What stays inside of a statement. -/
structure KeptInside (s s' : Stmt) : Prop where
  stmts : KeptStmts s.inner s'.inner
  inits : KeptInits (Stmt.initializers s) (Stmt.initializers s')

/-- What stays in a list of statements. -/
structure KeptAll (ss ss' : List Stmt) : Prop where
  stmts : KeptStmts (Statement.nestedAll ss) (Statement.nestedAll ss')
  inits : KeptInits (Statement.collectAll (fun _ => []) DeclGroup.initializers ss)
    (Statement.collectAll (fun _ => []) DeclGroup.initializers ss')

theorem kept_forInit (sound : c.analysis.Sound) {i : ForInit Expr DeclGroup}
    (h : AcceptedForInit c.analysis i) :
    Gives (forInit c i) fun i' => KeptInits (i.collect (fun _ => []) DeclGroup.initializers)
      (i'.collect (fun _ => []) DeclGroup.initializers) := by
  cases i with
  | none => exact .pure .nil
  | decl node g => exact .bind (kept_declGroup sound h) fun _ kept => .pure kept
  | expr node e => exact .skip fun _ => .pure .nil

/-- Expressions hold no initial values. -/
theorem collect_none (e? : Option Expr) :
    e?.toList.flatMap (fun _ => ([] : List Initializer)) = [] := by
  cases e? <;> rfl

/-- The statement itself and what is inside of it. -/
theorem kept_of_inside (sound : c.analysis.Sound) (definite : c.ret.Definite) {inLoop : Bool} {s : Stmt}
    (h : AcceptedStmt c.analysis c.ret inLoop s) (inside : Gives (stmt c s) (KeptInside s)) :
    Gives (stmt c s) fun s' => Kept Stmt.exprs s s' ∧ KeptInside s s' :=
  fun state => ⟨(replaces_stmt sound definite h).kept state, inside state⟩

mutual

theorem inside_stmt (sound : c.analysis.Sound) (definite : c.ret.Definite) {inLoop : Bool} :
    ∀ {s : Stmt}, AcceptedStmt c.analysis c.ret inLoop s → Gives (stmt c s) (KeptInside s)
  | .null _, _ | .break _, _ | .continue _, _ => .pure ⟨.nil, .nil⟩
  | .expr .., _ => .skip fun _ => .pure ⟨.nil, .nil⟩
  | .decl node g, h => .bind (kept_declGroup sound h) fun _ kept => .pure ⟨.nil, kept⟩
  | .compound node ss, h =>
    .bind (kept_stmts sound definite h) fun _ kept => .pure ⟨kept.stmts, kept.inits⟩
  | .ifThen node x yes, h => by
    refine .skip fun _ => .bind (kept_of_inside sound definite h.2 (inside_stmt sound definite h.2)) fun yes' kept => .pure ?_
    exact ⟨.cons kept.1 kept.2.stmts, kept.2.inits⟩
  | .ifElse node x yes no, h => by
    refine .skip fun _ => .bind (kept_of_inside sound definite h.2.1 (inside_stmt sound definite h.2.1)) fun yes' hyes =>
      .bind (kept_of_inside sound definite h.2.2 (inside_stmt sound definite h.2.2)) fun no' hno => .pure ⟨?_, ?_⟩
    · exact List.rel_append (.cons hyes.1 hyes.2.stmts) (.cons hno.1 hno.2.stmts)
    · exact List.rel_append hyes.2.inits hno.2.inits
  | .while node x body, h => by
    refine .skip fun _ => .bind (kept_of_inside sound definite h.2 (inside_stmt sound definite h.2)) fun body' kept => .pure ?_
    exact ⟨.cons kept.1 kept.2.stmts, kept.2.inits⟩
  | .doWhile node body x, h => by
    refine .skip fun _ => .bind (kept_of_inside sound definite h.2 (inside_stmt sound definite h.2)) fun body' kept => .pure ?_
    exact ⟨.cons kept.1 kept.2.stmts, List.rel_append kept.2.inits .nil⟩
  | .for node init x step body, h => by
    refine .bind (kept_forInit sound h.1) fun init' hinit => .skip fun x' => .skip fun step' =>
      .bind (kept_of_inside sound definite h.2.2.2 (inside_stmt sound definite h.2.2.2)) fun body' kept => .pure ⟨.cons kept.1 kept.2.stmts, ?_⟩
    refine List.rel_append hinit ?_
    rw [collect_none, collect_none, collect_none, collect_none]
    exact kept.2.inits
  | .return node value, h => by
    refine .skip fun value' => .pure ⟨.nil, ?_⟩
    show KeptInits (value.toList.flatMap fun _ => []) (value'.toList.flatMap fun _ => [])
    rw [collect_none, collect_none]
    exact .nil

theorem kept_stmts (sound : c.analysis.Sound) (definite : c.ret.Definite) {inLoop : Bool} :
    ∀ {ss : List Stmt}, AcceptedStmts c.analysis c.ret inLoop ss → Gives (stmts c ss) (KeptAll ss)
  | [], _ => .pure ⟨.nil, .nil⟩
  | s :: ss, h => by
    refine .bind (kept_of_inside sound definite h.1 (inside_stmt sound definite h.1)) fun s' hs => .bind (kept_stmts sound definite h.2)
      fun ss' hss => .pure ⟨?_, ?_⟩
    · exact List.rel_append (.cons hs.1 hs.2.stmts) hss.stmts
    · exact List.rel_append hs.2.inits hss.inits

end

/-! ## Bodies -/

/-- What replacing in the statements `ss` of a body comes to. -/
structure BodyOutcome (ss : List Stmt) (ds : List Deferral) (es : List AnalysisError) (ss' : List Stmt) :
    Prop where
  owner : ∀ d ∈ ds, ∃ s ∈ ss, d.stmt = some s.node.id
  marked : es = [] → ∀ s ∈ ss,
    (∃ d ∈ ds, d.stmt = some s.node.id) ↔ ∃ e ∈ Stmt.exprs s, e.ty.isDependent
  settled : es = [] → AllDefinite (Statement.collectAll Expr.parts DeclGroup.exprs ss')
  kept : KeptAll ss ss'
  free : NoneDependent (Statement.collectAll Expr.parts DeclGroup.exprs ss) → ss' = ss

theorem not_noneDependent {es : List Expr} : ¬NoneDependent es ↔ ∃ e ∈ es, e.ty.isDependent := by
  simp [NoneDependent]

/-- Without an error, something was replaced in a statement exactly if it held a dependent expression. -/
theorem Outcome.replaced_iff {α : Type} {exprs : α → List Expr} {id : Nat} {ds : List Deferral} {x y : α}
    (h : Outcome (some id) (NoneDependent (exprs x)) (· = x) (fun y => AllDefinite (exprs y)) ds [] y) :
    (∃ d ∈ ds, d.stmt = some id) ↔ ∃ e ∈ exprs x, e.ty.isDependent := by
  rw [← not_noneDependent]
  constructor
  · rintro ⟨d, hd, -⟩ free
    rw [(h.untouched free).1] at hd
    cases hd
  · intro dependent
    cases ds with
    | nil =>
      have same : y = x := h.same rfl rfl
      exact absurd (fun e he => (h.settled rfl e (same ▸ he)).ty) dependent
    | cons d ds => exact ⟨d, List.mem_cons_self, h.owner d List.mem_cons_self⟩

theorem bodyStmts_outcome {a : Analysis} (sound : a.Sound) {ret : Ty} (definite : ret.Definite)
    {ss : List Stmt} (accepted : AcceptedStmts a ret false ss) (numbered : Numbered ss) :
    ∀ s : State, ∃ ds es, Adds s ((bodyStmts a ret ss).run s).2 ds es ∧
      BodyOutcome ss ds es ((bodyStmts a ret ss).run s).1 := by
  induction ss with
  | nil =>
    intro s
    exact ⟨[], [], .refl s, nofun, fun _ => nofun, fun _ => nofun, ⟨.nil, .nil⟩, fun _ => rfl⟩
  | cons st ss ih =>
    intro s
    let c : Context := { analysis := a, stmt := some st.node.id, ret }
    obtain ⟨fresh, distinct⟩ := List.nodup_cons.mp numbered
    obtain ⟨ds, es, added, first⟩ := replaces_stmt (c := c) sound definite accepted.1 s
    have kept := kept_of_inside (c := c) sound definite accepted.1
      (inside_stmt (c := c) sound definite accepted.1) s
    have run : (bodyStmts a ret (st :: ss)).run s =
        (((stmt c st).run s).1 :: ((bodyStmts a ret ss).run ((stmt c st).run s).2).1,
          ((bodyStmts a ret ss).run ((stmt c st).run s).2).2) := by
      unfold bodyStmts
      rw [List.mapM_cons]
      rfl
    obtain ⟨ds', es', added', rest⟩ := ih accepted.2 distinct ((stmt c st).run s).2
    rw [run]
    refine ⟨ds ++ ds', es ++ es', added.trans added', ?_, fun hes => ?_, fun hes => ?_, ?_, fun free => ?_⟩
    · intro d hd
      rcases List.mem_append.mp hd with hd | hd
      · exact ⟨st, List.mem_cons_self, first.owner d hd⟩
      · obtain ⟨st', hst', owner⟩ := rest.owner d hd
        exact ⟨st', List.mem_cons_of_mem _ hst', owner⟩
    · obtain ⟨rfl, hes'⟩ := List.append_eq_nil_iff.mp hes
      have apart : ∀ st' ∈ ss, st'.node.id ≠ st.node.id :=
        fun st' hst' same => fresh (List.mem_map.mpr ⟨st', hst', same⟩)
      refine List.forall_mem_cons.mpr ⟨?_, fun st' hst' => ?_⟩
      · rw [← Outcome.replaced_iff first]
        refine exists_congr fun d => and_congr_left fun owner => ?_
        rw [List.mem_append, or_iff_left]
        intro hd
        obtain ⟨st', hst', owner'⟩ := rest.owner d hd
        rw [owner] at owner'
        exact apart st' hst' (Option.some.inj owner').symm
      · rw [← rest.marked hes' st' hst']
        refine exists_congr fun d => and_congr_left fun owner => ?_
        rw [List.mem_append, or_iff_right]
        intro hd
        have owner' := first.owner d hd
        rw [owner] at owner'
        exact apart st' hst' (Option.some.inj owner')
    · obtain ⟨hes, hes'⟩ := List.append_eq_nil_iff.mp hes
      exact List.forall_mem_append.mpr ⟨first.settled hes, rest.settled hes'⟩
    · exact ⟨List.rel_append (.cons kept.1 kept.2.stmts) rest.kept.stmts,
        List.rel_append kept.2.inits rest.kept.inits⟩
    · obtain ⟨free, free'⟩ := List.forall_mem_append.mp free
      rw [kept.1 free, rest.free free']

/-! ## Groups -/

/-- What replacing in the group `t` comes to. -/
structure GroupOutcome (t : TopLevel) (ds : List Deferral) (es : List AnalysisError) (t' : TopLevel) :
    Prop where
  marked : es = [] → ∀ s ∈ t.statements?.getD [],
    (∃ d ∈ ds, d.stmt = some s.node.id) ↔ ∃ e ∈ Stmt.exprs s, e.ty.isDependent
  settled : es = [] → AllDefinite t'.exprs
  stmts : KeptStmts t.allStatements t'.allStatements
  inits : KeptInits t.initializers t'.initializers

theorem topLevel_outcome {a : Analysis} (sound : a.Sound) {t : TopLevel} (accepted : t.Accepted a)
    (numbered : ∀ s, t.body = some s → (∃ fn, t.function? = some fn) ∧ NumberedBlock s) (s : State) :
    ∃ ds es, Adds s ((topLevel a t).run s).2 ds es ∧ GroupOutcome t ds es ((topLevel a t).run s).1 := by
  let c : Context := { analysis := a }
  obtain ⟨ds, es, added, outcome⟩ := replaces_declGroup (c := c) sound accepted.decls s
  have inits := kept_declGroup (c := c) sound accepted.decls s
  obtain ⟨g, body⟩ := t
  cases body with
  | none =>
    have run : (topLevel a ⟨g, none⟩).run s =
        (⟨((declGroup c g).run s).1, none⟩, ((declGroup c g).run s).2) := rfl
    rw [run]
    refine ⟨ds, es, added, fun _ => nofun, fun hes => ?_, .nil, ?_⟩
    · exact List.forall_mem_append.mpr ⟨outcome.settled hes, nofun⟩
    · exact List.rel_append inits .nil
  | some body =>
    obtain ⟨⟨fn, function⟩, node, ss, rfl, distinct⟩ := numbered body rfl
    have ret : fn.ret.Definite := by
      obtain ⟨d, last, kind⟩ := TopLevel.function?_eq_some function
      have declared := accepted.decls d (List.mem_of_getLast? last)
      rw [kind] at declared
      exact declared.sound.ret
    have accepted := accepted.body fn _ function rfl
    obtain ⟨ds', es', added', rest⟩ :=
      bodyStmts_outcome sound ret accepted distinct ((declGroup c g).run s).2
    have run : (topLevel a ⟨g, some (.compound node ss)⟩).run s =
        (⟨((declGroup c g).run s).1,
          some (.compound node ((bodyStmts a fn.ret ss).run ((declGroup c g).run s).2).1)⟩,
          ((bodyStmts a fn.ret ss).run ((declGroup c g).run s).2).2) := by
      unfold topLevel
      rw [function]
      rfl
    rw [run]
    refine ⟨ds ++ ds', es ++ es', added.trans added', fun hes s' hs' => ?_, fun hes => ?_, ?_, ?_⟩
    · rw [← rest.marked (List.append_eq_nil_iff.mp hes).2 s' hs']
      refine exists_congr fun d => and_congr_left fun owner => ?_
      rw [List.mem_append, or_iff_right]
      intro hd
      rw [outcome.owner d hd] at owner
      cases owner
    · obtain ⟨hes, hes'⟩ := List.append_eq_nil_iff.mp hes
      refine List.forall_mem_append.mpr ⟨outcome.settled hes, List.forall_mem_append.mpr ⟨?_, nofun⟩⟩
      exact rest.settled hes'
    · refine List.rel_append (.cons (fun free => ?_) rest.kept.stmts) .nil
      rw [rest.free free]
    · exact List.rel_append inits (List.rel_append rest.kept.inits .nil)

/-- Once a group was read and accepted and its dependent expressions are replaced without a complaint,
no expression in it has dependent type or refers to an unknown name. The statements of its body that
are marked are those that held a dependent expression, and these are the ones for which there is a
record of a replacement. Every statement and every initial value that held none is what it was. -/
theorem transform_eliminates {a : Analysis} (reached : a.Reached) {cursor rest : Syntax.Cursor}
    (written : cursor.Written) {t : Syntax.TopLevel} (read : Syntax.topLevel? cursor = .ok (some t, rest))
    {t' : TopLevel} (accepted : (a.analyze t).1 = .ok t') {s s' : DeferredState} (unmarked : s.dirty = [])
    {t'' : TopLevel} (replaced : s.transform (a.analyze t).2 t' = (.ok t'', s')) :
    (∀ e ∈ t''.exprs, e.Definite) ∧
    (∃ ds, s'.records.toList = s.records.toList ++ ds ∧ ∀ stmt ∈ t'.statements?.getD [],
      (stmt.node.id ∈ s'.dirty ↔ ∃ d ∈ ds, d.stmt = some stmt.node.id) ∧
      (stmt.node.id ∈ s'.dirty ↔ ∃ e ∈ Stmt.exprs stmt, e.ty.isDependent)) ∧
    List.Forall₂ (Kept Stmt.exprs) t'.allStatements t''.allStatements ∧
    List.Forall₂ (Kept Initializer.exprs) t'.initializers t''.initializers := by
  obtain ⟨sound, group⟩ := reached.sound.analyze ((Syntax.topLevel?_written written read).2 t rfl) accepted
  have numbered := Analysis.analyze_numbered (Syntax.topLevel?_numbered written read) accepted
  obtain ⟨ds, es, added, outcome⟩ := topLevel_outcome sound group numbered { deferred := s }
  unfold DeferredState.transform at replaced
  generalize (topLevel (a.analyze t).2 t').run { deferred := s } = r at replaced added outcome
  obtain ⟨result, state⟩ := r
  obtain ⟨ok, rfl⟩ := Prod.mk.inj replaced
  split at ok
  · rename_i quiet
    cases ok
    have noErrors : es = [] := by
      have all := added.errors
      rw [show state.errors.toList = [] by simpa using quiet] at all
      exact (List.append_eq_nil_iff.mp all.symm).2
    refine ⟨outcome.settled noErrors, ⟨ds, added.records, fun stmt hstmt => ?_⟩, outcome.stmts, outcome.inits⟩
    have marked : stmt.node.id ∈ state.deferred.dirty ↔ ∃ d ∈ ds, d.stmt = some stmt.node.id := by
      rw [added.dirty, show ({ deferred := s } : State).deferred.dirty = [] from unmarked]
      simp
    exact ⟨marked, marked.trans (outcome.marked noErrors stmt hstmt)⟩
  · cases ok

/-- The second one of three statements holds an unknown name. -/
theorem transform_eliminates_second :
    let start : Analysis := { fallback := some .deferAll, hasHooks := true }
    ∃ session t t' s' t'', Syntax.groupOf? "long gCinder;" = some session ∧
      Syntax.groupOf? "int f(int x) \x7b int y = x; y = z + x; return y; \x7d" = some t ∧
      ((start.analyze session).2.analyze t).1 = .ok t' ∧
      ({} : DeferredState).transform ((start.analyze session).2.analyze t).2 t' = (.ok t'', s') ∧
      (t'.statements?.getD []).map (·.node.id) = [0, 1, 2] ∧ s'.dirty = [1] ∧
      ∀ e ∈ t''.exprs, e.Definite := by
  intro start
  have outcome : (do
      let session ← Syntax.groupOf? "long gCinder;"
      let t ← Syntax.groupOf? "int f(int x) \x7b int y = x; y = z + x; return y; \x7d"
      let _ ← (start.analyze session).1.toOption
      let t' ← ((start.analyze session).2.analyze t).1.toOption
      let _ ← (({} : DeferredState).transform ((start.analyze session).2.analyze t).2 t').1.toOption
      return ((t'.statements?.getD []).map (·.node.id),
        (({} : DeferredState).transform ((start.analyze session).2.analyze t).2 t').2.dirty)) =
          some ([0, 1, 2], [1]) := by
    decide +kernel
  obtain ⟨session, readSession, outcome⟩ := Option.bind_eq_some_iff.mp outcome
  obtain ⟨t, read, outcome⟩ := Option.bind_eq_some_iff.mp outcome
  obtain ⟨session', acceptedSession, outcome⟩ := Option.bind_eq_some_iff.mp outcome
  obtain ⟨t', accepted, outcome⟩ := Option.bind_eq_some_iff.mp outcome
  obtain ⟨t'', replaced, outcome⟩ := Option.bind_eq_some_iff.mp outcome
  obtain ⟨numbers, dirty⟩ := Prod.mk.inj (Option.some.inj outcome)
  have accepted := Syntax.toOption_eq_some accepted
  have replaced : ({} : DeferredState).transform ((start.analyze session).2.analyze t).2 t' =
      (.ok t'', (({} : DeferredState).transform ((start.analyze session).2.analyze t).2 t').2) :=
    Prod.ext (Syntax.toOption_eq_some replaced) rfl
  have reached : start.Reached := .hooks (.fallback .start (some .deferAll) fun f hf => by
    cases hf
    exact nofun) true
  have reached := reached.accepted (Syntax.groupOf?_written readSession)
    (Syntax.toOption_eq_some acceptedSession)
  obtain ⟨cursor, rest, written, readGroup⟩ := Syntax.groupOf?_read read
  refine ⟨session, t, t', _, t'', readSession, read, accepted, replaced, numbers, dirty, ?_⟩
  exact (transform_eliminates reached written readGroup accepted rfl replaced).1

end IncrementalC.Deferred
