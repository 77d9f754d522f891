import IncrementalC.Proofs.Analysis.Reached
import IncrementalC.Proofs.Deferred.Template
import IncrementalC.Proofs.Syntax.UnitWritten

/-!
# What is left to run time

`Records Q m`: every record that the step `m` adds satisfies `Q`. Only `replace` adds any, and what it
replaces is an accepted expression of dependent type, so each record is `MadeFrom` such an expression.
With `substitute_template` this says when the addresses of its variables can be filled in.
-/
namespace IncrementalC.Deferred
set_option autoImplicit false
open Typed

/-- The record of the replacement of `e`. -/
structure MadeFrom (a : Analysis) (e : Expr) (d : Deferral) : Prop where
  accepted : e.Accepted a
  dependent : e.ty.isDependent
  template : d.template = template a.types e
  captured : d.captured = (uses {} e).captured.map fun c => (c.1, c.2.2)

def Records {α : Type} (Q : Deferral → Prop) (m : Transform α) : Prop :=
  ∀ s : State, ∃ ds, (m.run s).2.deferred.records.toList = s.deferred.records.toList ++ ds ∧ ∀ d ∈ ds, Q d

namespace Records

variable {α β : Type} {Q : Deferral → Prop}

theorem pure (x : α) : Records Q (Pure.pure x : Transform α) :=
  fun _ => ⟨[], (List.append_nil _).symm, nofun⟩

theorem bind {m : Transform α} {f : α → Transform β} (hm : Records Q m) (hf : ∀ x, Records Q (f x)) :
    Records Q (m >>= f) := by
  intro s
  obtain ⟨ds, first, all⟩ := hm s
  obtain ⟨ds', second, all'⟩ := hf (m.run s).1 (m.run s).2
  refine ⟨ds ++ ds', ?_, fun d hd => ?_⟩
  · rw [← List.append_assoc, ← first]
    exact second
  · rcases List.mem_append.mp hd with hd | hd
    · exact all d hd
    · exact all' d hd

theorem map {m : Transform α} (f : α → β) (hm : Records Q m) : Records Q (f <$> m) :=
  fun s => hm s

theorem report (problem : Problem) (span : Span) : Records Q (report problem span) :=
  fun _ => ⟨[], (List.append_nil _).symm, nofun⟩

theorem record {d : Deferral} (h : Q d) : Records Q (record d) :=
  fun s => ⟨[d], Array.toList_push, fun d' hd => by rw [List.mem_singleton.mp hd]; exact h⟩

theorem mapM {f : α → Transform β} {xs : List α} (hf : ∀ x ∈ xs, Records Q (f x)) :
    Records Q (xs.mapM f) := by
  induction xs with
  | nil => exact pure []
  | cons x xs ih =>
    rw [List.mapM_cons]
    refine bind (hf x List.mem_cons_self) fun y => bind (ih fun x hx => ?_) fun ys => pure _
    exact hf x (List.mem_cons_of_mem _ hx)

end Records

/-! ## Expressions -/

variable {c : Context}

/-- The record was made from some accepted expression. -/
def Made (a : Analysis) (d : Deferral) : Prop := ∃ e, MadeFrom a e d

theorem records_replace {e : Expr} (expected : Option Ty) (accepted : e.Accepted c.analysis)
    (dependent : e.ty.isDependent) : Records (Made c.analysis) (replace c expected e) := by
  unfold replace
  dsimp only
  split
  · exact .bind (.report _ _) fun _ => .pure _
  · split
    · exact .bind (.report _ _) fun _ => .pure _
    · refine .bind (.record ⟨e, accepted, dependent, rfl, rfl⟩) fun _ => ?_
      split <;> exact .pure _

mutual

theorem records_expr : ∀ {e : Expr} (expected : Option Ty), e.Accepted c.analysis →
    Records (Made c.analysis) (expr c expected e)
  | e, expected, h => by
    unfold expr
    split
    · exact records_replace expected h ‹_›
    · match e, h with
      | .unary .., h | .sizeofExpr .., h => exact .bind (records_expr _ h.2) fun _ => .pure _
      | .cast .., h | .member .., h => exact .bind (records_expr _ h.2.2) fun _ => .pure _
      | .binary .., h | .index .., h | .comma .., h =>
        exact .bind (records_expr _ h.2.1) fun _ => .bind (records_expr _ h.2.2) fun _ => .pure _
      | .assign .., h =>
        exact .bind (records_expr _ h.2.2.1) fun _ => .bind (records_expr _ h.2.2.2) fun _ => .pure _
      | .conditional .., h =>
        exact .bind (records_expr _ h.2.1) fun _ => .bind (records_expr _ h.2.2.1) fun _ =>
          .bind (records_expr _ h.2.2.2) fun _ => .pure _
      | .call .., h => exact .bind (records_exprs _ h.2.1) fun _ => .pure _
      | .int .., _ | .float .., _ | .char .., _ | .str .., _ | .bool .., _ | .null _, _
      | .ident .., _ | .sizeofType .., _ => exact .pure _

theorem records_exprs : ∀ {es : List Expr} (expected : List Ty), AcceptedAll c.analysis es →
    Records (Made c.analysis) (exprs c expected es)
  | [], _, _ => .pure _
  | e :: es, expected, h => by
    unfold exprs
    exact .bind (records_expr _ h.1) fun _ => .bind (records_exprs _ h.2) fun _ => .pure _

end

theorem records_exprsOf {ty : Ty} : ∀ {es : List Expr}, (∀ e ∈ es, e.Accepted c.analysis) →
    Records (Made c.analysis) (exprsOf c ty es)
  | [], _ => .pure _
  | e :: es, h => by
    unfold exprsOf
    exact .bind (records_expr _ (h e List.mem_cons_self)) fun _ =>
      .bind (records_exprsOf fun e he => h e (List.mem_cons_of_mem _ he)) fun _ => .pure _

theorem records_expr? {e? : Option Expr} (expected : Option Ty)
    (h : ∀ e, e? = some e → e.Accepted c.analysis) :
    Records (Made c.analysis) (expr? c expected e?) := by
  cases e? with
  | none => exact .pure _
  | some e => exact .map _ (records_expr expected (h e rfl))

/-! ## Initial values -/

mutual

theorem records_initializer {ty : Ty} : ∀ {i : Initializer}, AcceptedInit c.analysis ty i →
    Records (Made c.analysis) (initializer c ty i)
  | .expr e, h => .bind (records_expr _ h.1) fun _ => .pure _
  | .construct args _, h => by
    unfold initializer
    refine .bind (records_exprsOf ?_) fun _ => .pure _
    match args, h with
    | [], _ => exact nofun
    | [e], h => exact fun e' he => by rw [List.mem_singleton.mp he]; exact h.2.1
  | .list items _, h => by
    rw [AcceptedInit.eq_def] at h
    unfold initializer
    cases ty with
    | array elem n => exact .bind (records_elements h) fun _ => .pure _
    | record id =>
      obtain ⟨r, found, -, members⟩ := h
      dsimp only
      rw [found]
      exact .bind (records_members members) fun _ => .pure _
    | _ =>
      refine .bind (m := elements c _ items) ?_ fun _ => .pure _
      match items, h with
      | [], _ => unfold elements; exact .pure _
      | [item], h =>
        unfold elements
        refine .bind (records_initializer h) fun _ => .bind ?_ fun _ => .pure _
        unfold elements
        exact .pure _

theorem records_elements {elem : Ty} : ∀ {is : List Initializer},
    AcceptedElements c.analysis elem is → Records (Made c.analysis) (elements c elem is)
  | [], _ => by unfold elements; exact .pure _
  | _ :: _, h => by
    unfold elements
    exact .bind (records_initializer h.1) fun _ => .bind (records_elements h.2) fun _ => .pure _

theorem records_members : ∀ {fields : List Field} {is : List Initializer},
    AcceptedMembers c.analysis fields is → Records (Made c.analysis) (members c fields is)
  | _, [], _ => by unfold members; exact .pure _
  | [], _ :: _, h => by cases h
  | _ :: _, _ :: _, h => by
    unfold members
    exact .bind (records_initializer h.1) fun _ => .bind (records_members h.2) fun _ => .pure _

end

/-! ## Declarations and statements -/

theorem records_decl {d : Decl} (h : d.kind.Accepted c.analysis) :
    Records (Made c.analysis) (decl c d) := by
  unfold decl
  split
  · rename_i v kind
    rw [kind] at h
    split
    · exact .bind (records_initializer (h.init _ ‹_›)) fun _ => .pure _
    · exact .pure _
  · exact .pure _

theorem records_declGroup {g : DeclGroup} (h : AcceptedDecls c.analysis g.decls) :
    Records (Made c.analysis) (declGroup c g) :=
  .bind (.mapM fun d hd => records_decl (h d hd)) fun _ => .pure _

theorem records_forInit {i : ForInit Expr DeclGroup} (h : AcceptedForInit c.analysis i) :
    Records (Made c.analysis) (forInit c i) := by
  cases i with
  | none => exact .pure _
  | decl node g => exact .bind (records_declGroup h) fun _ => .pure _
  | expr node e => exact .bind (records_expr _ h) fun _ => .pure _

theorem accepted_of_result {a : Analysis} {ret : Ty} {value : Option Expr}
    (h : AcceptedResult a ret value) : ∀ e, value = some e → e.Accepted a := by
  rintro e rfl
  exact h.1

mutual

theorem records_stmt {ret : Ty} {inLoop : Bool} : ∀ {s : Stmt},
    AcceptedStmt c.analysis ret inLoop s → Records (Made c.analysis) (stmt c s)
  | .null _, _ | .break _, _ | .continue _, _ => .pure _
  | .expr .., h => .bind (records_expr _ h) fun _ => .pure _
  | .decl .., h => .bind (records_declGroup h) fun _ => .pure _
  | .compound .., h => .bind (records_stmts h) fun _ => .pure _
  | .ifThen .., h => .bind (records_expr _ h.1.1) fun _ => .bind (records_stmt h.2) fun _ => .pure _
  | .ifElse .., h =>
    .bind (records_expr _ h.1.1) fun _ => .bind (records_stmt h.2.1) fun _ =>
      .bind (records_stmt h.2.2) fun _ => .pure _
  | .while .., h => .bind (records_expr _ h.1.1) fun _ => .bind (records_stmt h.2) fun _ => .pure _
  | .doWhile .., h => .bind (records_expr _ h.1.1) fun _ => .bind (records_stmt h.2) fun _ => .pure _
  | .for .., h =>
    .bind (records_forInit h.1) fun _ => .bind (records_expr? _ fun e he => (h.2.1 e he).1) fun _ =>
      .bind (records_expr? _ h.2.2.1) fun _ => .bind (records_stmt h.2.2.2) fun _ => .pure _
  | .return .., h => .bind (records_expr? _ (accepted_of_result h)) fun _ => .pure _

theorem records_stmts {ret : Ty} {inLoop : Bool} : ∀ {ss : List Stmt},
    AcceptedStmts c.analysis ret inLoop ss → Records (Made c.analysis) (stmts c ss)
  | [], _ => .pure _
  | _ :: _, h => .bind (records_stmt h.1) fun _ => .bind (records_stmts h.2) fun _ => .pure _

end

theorem AcceptedStmts.of_mem {a : Analysis} {ret : Ty} {inLoop : Bool} {ss : List Stmt}
    (h : AcceptedStmts a ret inLoop ss) : ∀ s ∈ ss, AcceptedStmt a ret inLoop s := by
  induction ss with
  | nil => exact nofun
  | cons s ss ih =>
    intro s' hs
    cases hs with
    | head => exact h.1
    | tail _ hs => exact ih h.2 s' hs

theorem records_topLevel {a : Analysis} {t : TopLevel} (h : t.Accepted a) :
    Records (Made a) (topLevel a t) := by
  unfold topLevel
  refine .bind (records_declGroup h.decls) fun _ => ?_
  split
  · rename_i f ss hf hss
    refine .bind (.mapM fun s hs => ?_) fun _ => .pure _
    have body : ∃ node, t.body = some (.compound node ss) := by
      unfold TopLevel.statements? at hss
      split at hss
      · cases hss
        exact ⟨_, ‹_›⟩
      · cases hss
    obtain ⟨node, body⟩ := body
    exact records_stmt (AcceptedStmts.of_mem (h.body f _ hf body) s hs)
  · exact .pure _

/-! ## Filling in the addresses -/

/-- Each record that the replacing in an accepted group adds was made from an accepted expression of
dependent type. With as many addresses as there are captured variables, its template becomes that
expression with every variable accessed through its own address, unless a variable occurs twice: a
template asks for an address at each occurrence. -/
theorem substitute_transformed {a : Analysis} (reached : a.Reached) {t : Syntax.TopLevel}
    (written : t.Written) {t' : TopLevel} (accepted : (a.analyze t).1 = .ok t') (s : DeferredState) :
    ∃ ds, (s.transform (a.analyze t).2 t').2.records.toList = s.records.toList ++ ds ∧
      ∀ d ∈ ds, ∃ e, MadeFrom (a.analyze t).2 e d ∧
        ∀ addresses, addresses.length = d.captured.length →
          substitute d.template addresses =
            if ((occurrences e).map Occurrence.key).Nodup then
              .ok (accessed (a.analyze t).2.types (addressAt (uses {} e).captured addresses) e)
            else .error (.tooFewAddresses d.template) := by
  obtain ⟨sound, group⟩ := reached.sound.analyze written accepted
  obtain ⟨ds, added, made⟩ := records_topLevel group { deferred := s }
  refine ⟨ds, added, fun d hd => ?_⟩
  obtain ⟨e, from_⟩ := made d hd
  refine ⟨e, from_, fun addresses length => ?_⟩
  rw [from_.captured, List.length_map] at length
  rw [from_.template]
  exact substitute_template sound from_.accepted length

/-- The variable `x` stands once in the first value that is left to run time and twice in the second
one. -/
theorem substitute_once_and_twice :
    let a : Analysis := { fallback := some .deferAll, hasHooks := true }
    ∃ t t' ds, Syntax.groupOf? "long gCinder, x, y = z + x, w = z + x * x;" = some t ∧
      (a.analyze t).1 = .ok t' ∧
      (({} : DeferredState).transform (a.analyze t).2 t').2.records.toList = ds ∧
      (ds.map fun d => (d.captured.length, (substitute d.template [16]).toOption)) =
        [(1, some "z + (*(long *)0x10)"), (1, none)] ∧
      ∀ d ∈ ds, ∃ e, MadeFrom (a.analyze t).2 e d := by
  intro a
  have outcome : (Syntax.groupOf? "long gCinder, x, y = z + x, w = z + x * x;").map (fun t =>
      match (a.analyze t).1 with
      | .ok t' => (({} : DeferredState).transform (a.analyze t).2 t').2.records.toList.map
          fun d => (d.captured.length, (substitute d.template [16]).toOption)
      | .error _ => []) = some [(1, some "z + (*(long *)0x10)"), (1, none)] := by decide +kernel
  have reached : a.Reached := .hooks (.fallback .start (some .deferAll) fun f hf => by
    cases hf
    exact nofun) true
  cases read : Syntax.groupOf? "long gCinder, x, y = z + x, w = z + x * x;" with
  | none =>
    rw [read] at outcome
    cases outcome
  | some t =>
    rw [read, Option.map_some] at outcome
    cases accepted : (a.analyze t).1 with
    | error es =>
      rw [accepted] at outcome
      cases outcome
    | ok t' =>
      rw [accepted] at outcome
      obtain ⟨ds, added, made⟩ :=
        substitute_transformed reached (Syntax.groupOf?_written read) accepted {}
      have added : (({} : DeferredState).transform (a.analyze t).2 t').2.records.toList = ds := added
      have filled := Option.some.inj outcome
      dsimp only at filled
      rw [added] at filled
      refine ⟨t, t', ds, rfl, accepted, added, filled, fun d hd => ?_⟩
      obtain ⟨e, from_, -⟩ := made d hd
      exact ⟨e, from_⟩

end IncrementalC.Deferred
