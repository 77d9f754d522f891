import IncrementalC.Proofs.Analysis.Known
import IncrementalC.Proofs.Deferred.Parts
import IncrementalC.Proofs.Deferred.Records

/-!
# What replacing does

`Replaces c free same settled m`: the step `m` adds records and errors to the state and marks the
statement of each record. It adds nothing if `free` holds; what it gives is `same` if it adds nothing,
and `settled` if it adds no error. `replaces_expr` and its like are shown over accepted trees: an
expression of dependent type is replaced as a whole, any other one is definite itself and goes on to
its operands.
-/
namespace IncrementalC.Deferred
set_option autoImplicit false
open Typed

/-! ## What is added -/

/-- The step from `s` to `s'` adds the records `ds`, marks their statements and adds the errors `es`. -/
structure Adds (s s' : State) (ds : List Deferral) (es : List AnalysisError) : Prop where
  records : s'.deferred.records.toList = s.deferred.records.toList ++ ds
  errors : s'.errors.toList = s.errors.toList ++ es
  dirty : ∀ id, id ∈ s'.deferred.dirty ↔ id ∈ s.deferred.dirty ∨ ∃ d ∈ ds, d.stmt = some id

theorem Adds.refl (s : State) : Adds s s [] [] :=
  ⟨(List.append_nil _).symm, (List.append_nil _).symm, fun _ => by simp⟩

theorem Adds.trans {s s' s'' : State} {ds ds' : List Deferral} {es es' : List AnalysisError}
    (h : Adds s s' ds es) (h' : Adds s' s'' ds' es') : Adds s s'' (ds ++ ds') (es ++ es') where
  records := by rw [h'.records, h.records, List.append_assoc]
  errors := by rw [h'.errors, h.errors, List.append_assoc]
  dirty id := by
    rw [h'.dirty, h.dirty, or_assoc]
    simp only [List.mem_append, or_and_right, exists_or]

structure Outcome {α : Type} (stmt : Option Nat) (free : Prop) (same settled : α → Prop)
    (ds : List Deferral) (es : List AnalysisError) (x : α) : Prop where
  owner : ∀ d ∈ ds, d.stmt = stmt
  untouched : free → ds = [] ∧ es = []
  same : ds = [] → es = [] → same x
  settled : es = [] → settled x

def Replaces {α : Type} (c : Context) (free : Prop) (same settled : α → Prop) (m : Transform α) : Prop :=
  ∀ s, ∃ ds es, Adds s (m.run s).2 ds es ∧ Outcome c.stmt free same settled ds es (m.run s).1

namespace Replaces

variable {α β : Type} {c : Context} {free free' : Prop} {same settled : α → Prop}
  {same' settled' : β → Prop}

theorem pure {x : β} (hsame : same' x) (hsettled : settled' x) :
    Replaces c True same' settled' (Pure.pure x) :=
  fun s => ⟨[], [], .refl s, nofun, fun _ => ⟨rfl, rfl⟩, fun _ _ => hsame, fun _ => hsettled⟩

theorem bind {m : Transform α} {f : α → Transform β} (hm : Replaces c free same settled m)
    (hf : ∀ x, Replaces c free' (fun y => same x → same' y) (fun y => settled x → settled' y) (f x)) :
    Replaces c (free ∧ free') same' settled' (m >>= f) := by
  intro s
  obtain ⟨ds, es, added, first⟩ := hm s
  obtain ⟨ds', es', added', second⟩ := hf (m.run s).1 (m.run s).2
  refine ⟨ds ++ ds', es ++ es', added.trans added', fun d hd => ?_, fun h => ?_, fun hds hes => ?_,
    fun hes => ?_⟩
  · exact (List.mem_append.mp hd).elim (first.owner d) (second.owner d)
  · obtain ⟨rfl, rfl⟩ := first.untouched h.1
    exact second.untouched h.2
  · obtain ⟨hds, hds'⟩ := List.append_eq_nil_iff.mp hds
    obtain ⟨hes, hes'⟩ := List.append_eq_nil_iff.mp hes
    exact second.same hds' hes' (first.same hds hes)
  · obtain ⟨hes, hes'⟩ := List.append_eq_nil_iff.mp hes
    exact second.settled hes' (first.settled hes)

theorem mono {m : Transform β} (hm : Replaces c free same' settled' m) (h : free' → free) :
    Replaces c free' same' settled' m := by
  intro s
  obtain ⟨ds, es, added, outcome⟩ := hm s
  exact ⟨ds, es, added, { outcome with untouched := fun h' => outcome.untouched (h h') }⟩

end Replaces

/-! ## Expressions -/

def NoneDependent (es : List Expr) : Prop := ∀ e ∈ es, e.ty.isDependent = false

def AllDefinite (es : List Expr) : Prop := ∀ e ∈ es, e.Definite

variable {c : Context}

/-- Replacing in `x`, whose expressions are `exprs x`. -/
def ReplacesIn {α : Type} (c : Context) (exprs : α → List Expr) (x : α) (m : Transform α) : Prop :=
  Replaces c (NoneDependent (exprs x)) (· = x) (fun y => AllDefinite (exprs y)) m

namespace ReplacesIn

variable {α β γ : Type} {exprs₁ : α → List Expr} {exprs₂ : β → List Expr} {exprs : γ → List Expr}
  {x : α} {y : β} {m : Transform α} {n : Transform β}

theorem unchanged (h : AllDefinite (exprs₁ x)) : ReplacesIn c exprs₁ x (pure x) :=
  Replaces.mono (Replaces.pure rfl h) fun _ => trivial

theorem map {f : α → γ} (hm : ReplacesIn c exprs₁ x m)
    (down : NoneDependent (exprs (f x)) → NoneDependent (exprs₁ x))
    (up : ∀ x', AllDefinite (exprs₁ x') → AllDefinite (exprs (f x'))) :
    ReplacesIn c exprs (f x) (do return f (← m)) := by
  refine Replaces.mono (.bind hm fun x' => .pure ?_ (up x')) fun free => ⟨down free, trivial⟩
  rintro rfl
  rfl

theorem map₂ {f : α → β → γ} (hm : ReplacesIn c exprs₁ x m) (hn : ReplacesIn c exprs₂ y n)
    (down : NoneDependent (exprs (f x y)) → NoneDependent (exprs₁ x) ∧ NoneDependent (exprs₂ y))
    (up : ∀ x' y', AllDefinite (exprs₁ x') → AllDefinite (exprs₂ y') → AllDefinite (exprs (f x' y'))) :
    ReplacesIn c exprs (f x y) (do let x ← m; return f x (← n)) := by
  refine Replaces.mono (.bind hm fun x' => .bind hn fun y' => .pure ?_ fun hy hx => up x' y' hx hy)
    fun free => ⟨(down free).1, (down free).2, trivial⟩
  rintro rfl rfl
  rfl

theorem map₃ {δ : Type} {exprs₃ : γ → List Expr} {exprs : δ → List Expr} {z : γ} {o : Transform γ}
    {f : α → β → γ → δ} (hm : ReplacesIn c exprs₁ x m) (hn : ReplacesIn c exprs₂ y n)
    (ho : ReplacesIn c exprs₃ z o)
    (down : NoneDependent (exprs (f x y z)) →
      NoneDependent (exprs₁ x) ∧ NoneDependent (exprs₂ y) ∧ NoneDependent (exprs₃ z))
    (up : ∀ x' y' z', AllDefinite (exprs₁ x') → AllDefinite (exprs₂ y') → AllDefinite (exprs₃ z') →
      AllDefinite (exprs (f x' y' z'))) :
    ReplacesIn c exprs (f x y z) (do let x ← m; let y ← n; return f x y (← o)) := by
  refine Replaces.mono (.bind hm fun x' => .bind hn fun y' => .bind ho fun z' => .pure ?_
    fun hz hy hx => up x' y' z' hx hy hz) fun free => ?_
  · rintro rfl rfl rfl
    rfl
  · obtain ⟨hx, hy, hz⟩ := down free
    exact ⟨hx, hy, hz, trivial⟩

theorem mapM {f : α → Transform α} {xs : List α} (hf : ∀ x ∈ xs, ReplacesIn c exprs₁ x (f x)) :
    ReplacesIn c (·.flatMap exprs₁) xs (xs.mapM f) := by
  induction xs with
  | nil => exact unchanged nofun
  | cons x xs ih =>
    rw [List.mapM_cons]
    obtain ⟨head, tail⟩ := List.forall_mem_cons.mp hf
    refine map₂ (f := List.cons) head (ih tail) (fun free => ?_) fun x' xs' hx hxs => ?_
    · rw [List.flatMap_cons] at free
      exact List.forall_mem_append.mp free
    · rw [List.flatMap_cons]
      exact List.forall_mem_append.mpr ⟨hx, hxs⟩

/-- An expression with its operands in `x`. -/
theorem node {f : α → Expr} (parts : ∀ x', (f x').parts = f x' :: exprs₁ x')
    (definite : ∀ x', (f x').Definite) (hm : ReplacesIn c exprs₁ x m) :
    ReplacesIn c Expr.parts (f x) (do return f (← m)) := by
  refine map hm (fun free => ?_) fun x' settled => ?_
  · rw [parts] at free
    exact (List.forall_mem_cons.mp free).2
  · rw [parts]
    exact List.forall_mem_cons.mpr ⟨definite x', settled⟩

theorem node₂ {f : α → β → Expr} (parts : ∀ x' y', (f x' y').parts = f x' y' :: (exprs₁ x' ++ exprs₂ y'))
    (definite : ∀ x' y', (f x' y').Definite) (hm : ReplacesIn c exprs₁ x m) (hn : ReplacesIn c exprs₂ y n) :
    ReplacesIn c Expr.parts (f x y) (do let x ← m; return f x (← n)) := by
  refine map₂ hm hn (fun free => ?_) fun x' y' hx hy => ?_
  · rw [parts] at free
    exact List.forall_mem_append.mp (List.forall_mem_cons.mp free).2
  · rw [parts]
    exact List.forall_mem_cons.mpr ⟨definite x' y', List.forall_mem_append.mpr ⟨hx, hy⟩⟩

end ReplacesIn

theorem definite_of_globalType? {a : Analysis} (sound : a.Sound) {name : String} {ty : Ty}
    (found : a.globalType? name = some ty) : ty.Definite := by
  unfold Analysis.globalType? at found
  split at found
  · rename_i ty' link defined entry
    cases found
    exact (sound.global name _ entry : ty.IsObject).definite
  · cases found

theorem allDefinite_partsOfList {es : List Expr} (h : ∀ e ∈ es, AllDefinite e.parts) :
    AllDefinite (Expr.partsOfList es) := by
  induction es with
  | nil => exact nofun
  | cons e es ih =>
    obtain ⟨head, tail⟩ := List.forall_mem_cons.mp h
    exact List.forall_mem_append.mpr ⟨head, ih tail⟩

mutual

theorem occurrences_definite {a : Analysis} : ∀ {e : Expr}, e.Accepted a →
    ∀ v ∈ occurrences e, v.2.1.isVariable ∧ v.2.2.Definite
  | .ident i name binding, h, v, hv => by
    unfold occurrences at hv
    split at hv
    · rename_i isVariable
      rw [List.mem_singleton.mp hv]
      exact ⟨isVariable, h.2.definite isVariable⟩
    · cases hv
  | .unary .., h, v, hv | .sizeofExpr .., h, v, hv => occurrences_definite h.2 v hv
  | .cast .., h, v, hv | .member .., h, v, hv => occurrences_definite h.2.2 v hv
  | .binary .., h, v, hv | .index .., h, v, hv | .comma .., h, v, hv =>
    (List.mem_append.mp hv).elim (occurrences_definite h.2.1 v) (occurrences_definite h.2.2 v)
  | .assign .., h, v, hv =>
    (List.mem_append.mp hv).elim (occurrences_definite h.2.2.1 v) (occurrences_definite h.2.2.2 v)
  | .conditional .., h, v, hv => by
    rcases List.mem_append.mp hv with hv | hv
    · exact (List.mem_append.mp hv).elim (occurrences_definite h.2.1 v) (occurrences_definite h.2.2.1 v)
    · exact occurrences_definite h.2.2.2 v hv
  | .call .., h, v, hv => occurrencesOfList_definite h.2.1 v hv
  | .int .., _, _, hv | .float .., _, _, hv | .char .., _, _, hv | .str .., _, _, hv
  | .bool .., _, _, hv | .null _, _, _, hv | .sizeofType .., _, _, hv => by cases hv

theorem occurrencesOfList_definite {a : Analysis} : ∀ {es : List Expr}, AcceptedAll a es →
    ∀ v ∈ occurrencesOfList es, v.2.1.isVariable ∧ v.2.2.Definite
  | [], _, _, hv => by cases hv
  | _ :: _, h, v, hv =>
    (List.mem_append.mp hv).elim (occurrences_definite h.1 v) (occurrencesOfList_definite h.2 v)

end

theorem mem_of_mem_foldl_capture {vs captured : List Occurrence} {v : Occurrence}
    (h : v ∈ vs.foldl capture captured) : v ∈ captured ∨ v ∈ vs := by
  induction vs generalizing captured with
  | nil => exact .inl h
  | cons w vs ih =>
    rcases ih h with h | h
    · unfold capture at h
      split at h
      · exact .inl h
      · rcases List.mem_append.mp h with h | h
        · exact .inl h
        · exact .inr (List.mem_singleton.mp h ▸ List.mem_cons_self)
    · exact .inr (List.mem_cons_of_mem _ h)

theorem captured_definite {a : Analysis} {e : Expr} (accepted : e.Accepted a) :
    ∀ v ∈ (uses {} e).captured, v.2.1.isVariable ∧ v.2.2.Definite := by
  intro v hv
  rw [uses_captured {} accepted] at hv
  rcases mem_of_mem_foldl_capture hv with hv | hv
  · cases hv
  · exact occurrences_definite accepted v hv

/-- The call that takes the place of an expression refers to objects and builtins only. -/
theorem definite_evalCall {a : Analysis} {e : Expr} (span : Span) (text : String) {handleTy : Ty}
    (handle : handleTy.Definite) (accepted : e.Accepted a) :
    AllDefinite (evalCall span handleTy text (uses {} e).captured).parts := by
  have single {x : Expr} (h : x.Definite) : AllDefinite [x] := by
    intro y hy
    rw [List.mem_singleton.mp hy]
    exact h
  refine List.forall_mem_cons.mpr ⟨⟨rfl, nofun⟩, allDefinite_partsOfList fun x hx => ?_⟩
  rcases List.mem_cons.mp hx with rfl | hx
  · exact single ⟨handle.not_isDependent, nofun⟩
  rcases List.mem_cons.mp hx with rfl | hx
  · exact single ⟨rfl, nofun⟩
  · obtain ⟨⟨name, binding, ty⟩, hv, rfl⟩ := List.mem_map.mp hx
    obtain ⟨isVariable, definite⟩ := captured_definite accepted _ hv
    refine List.forall_mem_cons.mpr ⟨⟨rfl, nofun⟩, single ⟨definite.not_isDependent, fun placeholder => ?_⟩⟩
    have placeholder : binding = .placeholder := Option.some.inj placeholder
    rw [placeholder] at isVariable
    cases isVariable

/-! ## One replacement -/

theorem adds_report (problem : Problem) (span : Span) (s : State) :
    Adds s ((report problem span).run s).2 [] [⟨problem, span⟩] :=
  ⟨(List.append_nil _).symm, Array.toList_push, fun _ => ⟨.inl, fun h => h.elim (fun h => h) nofun⟩⟩

theorem adds_record (d : Deferral) (s : State) : Adds s ((record d).run s).2 [d] [] := by
  refine ⟨Array.toList_push, (List.append_nil _).symm, fun id => ?_⟩
  simp only [record, StateT.run_modify]
  cases hstmt : d.stmt with
  | none =>
    show id ∈ s.deferred.dirty ↔ _
    simp [hstmt]
  | some marked =>
    show id ∈ (if s.deferred.dirty.contains marked then s.deferred.dirty else marked :: s.deferred.dirty) ↔ _
    split
    · rename_i already
      have already : marked ∈ s.deferred.dirty := by simpa using already
      simp only [List.mem_singleton, exists_eq_left, hstmt, Option.some.injEq]
      exact ⟨.inl, fun h => h.elim (fun h => h) fun same => same ▸ already⟩
    · simp [hstmt, or_comm, eq_comm]

variable {α : Type} {x y : α} {settled : α → Prop}

/-- A complaint in the place of a replacement. -/
theorem replaces_report (problem : Problem) (span : Span) {free : Prop} (notFree : ¬free) :
    Replaces c free (· = x) settled (do report problem span; return x) :=
  fun s => ⟨[], _, adds_report problem span s, nofun, fun h => absurd h notFree, nofun, nofun⟩

theorem replaces_record {d : Deferral} (h : d.stmt = c.stmt) {free : Prop} (notFree : ¬free)
    (hy : settled y) : Replaces c free (· = x) settled (do record d; return y) :=
  fun s => ⟨[d], [], adds_record d s, by simpa using h, fun h => absurd h notFree, nofun, fun _ => hy⟩

theorem replaces_replace (sound : c.analysis.Sound) {e : Expr} {expected : Option Ty}
    (definite : ∀ ty, expected = some ty → ty.Definite) (accepted : e.Accepted c.analysis)
    (dependent : e.ty.isDependent) : ReplacesIn c Expr.parts e (replace c expected e) := by
  have notFree : ¬NoneDependent e.parts := fun free => by
    rw [free e (Expr.self_mem_parts e)] at dependent
    cases dependent
  unfold replace
  dsimp only
  split
  · exact replaces_report _ _ notFree
  · rename_i handleTy found
    split
    · exact replaces_report _ _ notFree
    · have handle : handleTy.Definite :=
        definite_of_globalType? sound (Option.filter_eq_some_iff.mp found).1
      have call := definite_evalCall e.span (template c.analysis.types e) handle accepted
      split
      · rename_i ty _
        refine replaces_record rfl notFree (List.forall_mem_cons.mpr ⟨⟨?_, by rintro ⟨⟩⟩, call⟩)
        exact (definite ty rfl).not_isDependent
      · exact replaces_record rfl notFree call

/-! ## Expressions -/

/-- If a type is asked for, it is definite. -/
def DefiniteTy? (expected : Option Ty) : Prop := ∀ ty, expected = some ty → ty.Definite

theorem definite_none : DefiniteTy? none := nofun

theorem definite_some {ty : Ty} (h : ty.Definite) : DefiniteTy? (some ty) :=
  fun _ same => Option.some.inj same ▸ h

theorem condition_definite : DefiniteTy? (some .bool) := fun _ same => Option.some.inj same ▸ trivial

/-- An assignment takes the type of its target, dependent or not. -/
theorem target_definite {a : Analysis} {op : Option BinaryOp} {x y : Expr} {span : Span} {ty : Ty}
    (rule : Yields a (Analyze.assignType op x y span) ty) (accepted : x.Accepted a)
    (notDependent : ¬ty.isDependent) : x.ty.Definite := by
  refine accepted.known.definite fun dependent => notDependent ?_
  obtain ⟨b, -, -, run⟩ := rule
  unfold Analyze.assignType at run
  rw [if_pos dependent] at run
  rw [← (Prod.mk.inj run).1]
  rfl

/-- A call of an unknown name waits for run time as a whole. -/
theorem target_known {a : Analysis} {name : String} {target : Binding} {callee : Analyze.Callee}
    {args : List Expr} {span : Span} {ty : Ty} (resolved : Resolved a name target callee)
    (rule : Yields a (Analyze.callType name callee args span) ty) (notDependent : ¬ty.isDependent) :
    target ≠ .placeholder ∧ ∀ t ∈ paramTypes a name target, t.Definite := by
  cases resolved with
  | function declared sound =>
    refine ⟨nofun, fun t ht => (sound.params t ?_).definite⟩
    unfold paramTypes at ht
    rw [declared] at ht
    exact ht
  | builtin b =>
    refine ⟨nofun, fun t ht => ?_⟩
    unfold paramTypes at ht
    dsimp only at ht
    cases signature : b.signature? with
    | none =>
      rw [signature] at ht
      cases ht
    | some sig =>
      rw [signature] at ht
      exact ((Builtin.signature?_sound signature).params t ht).definite
  | placeholder _ =>
    obtain ⟨b, -, -, run⟩ := rule
    exact absurd (by rw [← (Prod.mk.inj run).1]; rfl) notDependent

theorem isDependent_of_placeholder {a : Analysis} {binding : Binding} {ty : Ty} (h : Bound a binding ty)
    (placeholder : binding = .placeholder) : ty.isDependent := by
  cases h with
  | object isVariable _ => rw [placeholder] at isVariable; cases isVariable
  | enumConst _ _ => cases placeholder
  | placeholder _ => rfl

mutual

theorem replaces_expr (sound : c.analysis.Sound) : ∀ {e : Expr} {expected : Option Ty},
    DefiniteTy? expected → e.Accepted c.analysis → ReplacesIn c Expr.parts e (expr c expected e)
  | e, expected, definite, h => by
    unfold expr
    split
    · exact replaces_replace sound definite h ‹_›
    · rename_i dependent
      have ty := Bool.eq_false_iff.mpr dependent
      match e, h with
      | .unary .., h | .sizeofExpr .., h =>
        exact .node (fun _ => rfl) (fun _ => ⟨ty, nofun⟩) (replaces_expr sound definite_none h.2)
      | .member .., h => exact .node (fun _ => rfl) (fun _ => ⟨ty, nofun⟩) (replaces_expr sound definite_none h.2.2)
      | .cast i target x, h =>
        exact .node (fun _ => rfl) (fun _ => ⟨ty, nofun⟩)
          (replaces_expr sound (definite_some h.1.definite) h.2.2)
      | .binary .., h | .index .., h | .comma .., h =>
        exact .node₂ (fun _ _ => rfl) (fun _ _ => ⟨ty, nofun⟩) (replaces_expr sound definite_none h.2.1) (replaces_expr sound definite_none h.2.2)
      | .assign i op x y, h =>
        have asked := definite_some (target_definite h.2.1 h.2.2.1 dependent)
        exact .node₂ (fun _ _ => rfl) (fun _ _ => ⟨ty, nofun⟩) (replaces_expr sound definite_none h.2.2.1) (replaces_expr sound asked h.2.2.2)
      | .conditional i x y z, h =>
        have first := replaces_expr sound condition_definite h.2.1
        have yes := replaces_expr sound definite_none h.2.2.1
        have no := replaces_expr sound definite_none h.2.2.2
        refine .map₃ first yes no (fun free => ?_) fun _ _ _ hx hy hz => ?_
        · obtain ⟨hx, rest⟩ := List.forall_mem_append.mp (List.forall_mem_cons.mp free).2
          exact ⟨hx, List.forall_mem_append.mp rest⟩
        · exact List.forall_mem_cons.mpr ⟨⟨ty, nofun⟩,
            List.forall_mem_append.mpr ⟨hx, List.forall_mem_append.mpr ⟨hy, hz⟩⟩⟩
      | .call i name target args, h =>
        obtain ⟨-, accepted, callee, resolved, rule⟩ := h
        obtain ⟨known, params⟩ := target_known resolved rule dependent
        exact .node (fun _ => rfl) (fun _ => ⟨ty, fun h => known (Option.some.inj h)⟩) (replaces_exprs sound params accepted)
      | .ident i name binding, h =>
        refine .unchanged (List.forall_mem_singleton.mpr ⟨ty, fun placeholder => ?_⟩)
        exact dependent (isDependent_of_placeholder h.2 (Option.some.inj placeholder))
      | .int .., _ | .float .., _ | .char .., _ | .str .., _ | .bool .., _ | .null _, _
      | .sizeofType .., _ => exact .unchanged (List.forall_mem_singleton.mpr ⟨ty, nofun⟩)

theorem replaces_exprs (sound : c.analysis.Sound) : ∀ {es : List Expr} {expected : List Ty},
    (∀ ty ∈ expected, ty.Definite) → AcceptedAll c.analysis es →
      ReplacesIn c Expr.partsOfList es (exprs c expected es)
  | [], _, _, _ => .unchanged nofun
  | e :: es, expected, definite, h => by
    unfold exprs
    have asked : DefiniteTy? expected.head? := fun ty hty => definite ty (List.mem_of_mem_head? hty)
    have head := replaces_expr sound asked h.1
    have tail := replaces_exprs sound (fun ty hty => definite ty (List.mem_of_mem_tail hty)) h.2
    exact .map₂ head tail List.forall_mem_append.mp fun _ _ he hes => List.forall_mem_append.mpr ⟨he, hes⟩

end

theorem replaces_exprsOf (sound : c.analysis.Sound) {ty : Ty} (definite : ty.Definite) :
    ∀ {es : List Expr}, (∀ e ∈ es, e.Accepted c.analysis) →
      ReplacesIn c Expr.partsOfList es (exprsOf c ty es)
  | [], _ => .unchanged nofun
  | e :: es, h => by
    unfold exprsOf
    obtain ⟨first, rest⟩ := List.forall_mem_cons.mp h
    have head := replaces_expr sound (definite_some definite) first
    have tail := replaces_exprsOf sound definite rest
    exact .map₂ head tail List.forall_mem_append.mp fun _ _ he hes => List.forall_mem_append.mpr ⟨he, hes⟩

theorem replaces_expr? (sound : c.analysis.Sound) {expected : Option Ty} (definite : DefiniteTy? expected)
    {e? : Option Expr} (h : ∀ e, e? = some e → e.Accepted c.analysis) :
    ReplacesIn c (fun e? => e?.toList.flatMap Expr.parts) e? (expr? c expected e?) := by
  cases e? with
  | none => exact .unchanged nofun
  | some e =>
    have parts (e : Expr) : (some e).toList.flatMap Expr.parts = e.parts := List.append_nil _
    refine .map (f := some) (replaces_expr sound definite (h e rfl)) (fun free => ?_) fun e' settled => ?_
    · rw [parts] at free
      exact free
    · rw [parts]
      exact settled

/-! ## Initial values -/

/-- In braces a scalar is initialised like the one element of an array. -/
theorem acceptedElements_of_scalar {a : Analysis} {ty : Ty} {items : List Initializer}
    (h : match items with
      | [] => True
      | [item] => AcceptedInit a ty item
      | _ => False) : AcceptedElements a ty items := by
  match items, h with
  | [], _ => trivial
  | [_], h => exact ⟨h, trivial⟩

mutual

theorem replaces_initializer (sound : c.analysis.Sound) {ty : Ty} (definite : ty.Definite) :
    ∀ {i : Initializer}, AcceptedInit c.analysis ty i →
      ReplacesIn c Initializer.exprs i (initializer c ty i)
  | .expr e, h =>
    .map (f := InitialValue.expr) (replaces_expr sound (definite_some definite) h.1)
      (fun free => free) fun _ settled => settled
  | .construct args span, h => by
    unfold initializer
    refine .map (f := (InitialValue.construct · span)) (replaces_exprsOf sound definite ?_) (fun free => free)
      fun _ settled => settled
    match args, h with
    | [], _ => exact nofun
    | [e], h => exact List.forall_mem_singleton.mpr h.2.1
  | .list items span, h => by
    rw [AcceptedInit.eq_def] at h
    unfold initializer
    have list {m : Transform (List Initializer)} (hm : ReplacesIn c Initializer.exprsOfItems items m) :
        ReplacesIn c Initializer.exprs (.list items span) (do return .list (← m) span) :=
      .map (f := (InitialValue.list · span)) hm (fun free => free) fun _ settled => settled
    cases ty with
    | array elem n => 
      have inside : elem.Definite := definite
      exact list (replaces_elements sound inside h)
    | record id =>
      obtain ⟨r, found, -, members⟩ := h
      dsimp only
      rw [found]
      exact list (replaces_members sound (fun f hf => ((sound.record id r found).fields f hf).definite) members)
    | _ => exact list (replaces_elements sound definite (acceptedElements_of_scalar h))

theorem replaces_elements (sound : c.analysis.Sound) {elem : Ty} (definite : elem.Definite) :
    ∀ {is : List Initializer}, AcceptedElements c.analysis elem is →
      ReplacesIn c Initializer.exprsOfItems is (elements c elem is)
  | [], _ => .unchanged nofun
  | i :: is, h => by
    unfold elements
    exact .map₂ (replaces_initializer sound definite h.1) (replaces_elements sound definite h.2)
      List.forall_mem_append.mp fun _ _ hi his => List.forall_mem_append.mpr ⟨hi, his⟩

theorem replaces_members (sound : c.analysis.Sound) : ∀ {fields : List Field} {is : List Initializer},
    (∀ f ∈ fields, f.ty.Definite) → AcceptedMembers c.analysis fields is →
      ReplacesIn c Initializer.exprsOfItems is (members c fields is)
  | _, [], _, _ => by unfold members; exact .unchanged nofun
  | [], _ :: _, _, h => by cases h
  | f :: fields, i :: is, definite, h => by
    unfold members
    obtain ⟨first, rest⟩ := List.forall_mem_cons.mp definite
    exact .map₂ (replaces_initializer sound first h.1) (replaces_members sound rest h.2)
      List.forall_mem_append.mp fun _ _ hi his => List.forall_mem_append.mpr ⟨hi, his⟩

end

/-! ## Declarations and statements -/

theorem replaces_decl (sound : c.analysis.Sound) {d : Decl} (h : d.kind.Accepted c.analysis) :
    ReplacesIn c (fun d => d.initializer?.toList.flatMap Initializer.exprs) d (decl c d) := by
  obtain ⟨kind, span⟩ := d
  unfold decl
  cases kind with
  | var v =>
    obtain ⟨name, ty, init, storage, linkName, isExtern, constantInit⟩ := v
    cases init with
    | none => exact .unchanged nofun
    | some init =>
      let f (init : Initializer) : Decl :=
        ⟨.var ⟨name, ty, some init, storage, linkName, isExtern, constantInit⟩, span⟩
      have exprs (init : Initializer) :
          (f init).initializer?.toList.flatMap Initializer.exprs = Initializer.exprs init :=
        List.append_nil _
      refine .map (f := f) (replaces_initializer sound h.object.definite (h.init init rfl))
        (fun free => ?_) fun init' settled => ?_
      · rw [exprs] at free
        exact free
      · rw [exprs]
        exact settled
  | _ => exact .unchanged nofun

theorem replaces_declGroup (sound : c.analysis.Sound) {g : DeclGroup}
    (h : AcceptedDecls c.analysis g.decls) : ReplacesIn c DeclGroup.exprs g (declGroup c g) := by
  obtain ⟨decls, span⟩ := g
  exact .map (f := (DeclGroup.mk · span)) (.mapM fun d hd => replaces_decl sound (h d hd))
    (fun free => free) fun _ settled => settled

theorem replaces_forInit (sound : c.analysis.Sound) {i : ForInit Expr DeclGroup}
    (h : AcceptedForInit c.analysis i) :
    ReplacesIn c (ForInit.collect Expr.parts DeclGroup.exprs) i (forInit c i) := by
  cases i with
  | none => exact .unchanged nofun
  | decl node g =>
    exact .map (f := ForInit.decl node) (replaces_declGroup sound h) (fun free => free) fun _ settled => settled
  | expr node e =>
    exact .map (f := ForInit.expr node) (replaces_expr sound definite_none h) (fun free => free)
      fun _ settled => settled

/-- A condition and what stands in front of a statement. -/
theorem replaces_condition (sound : c.analysis.Sound) {e : Expr} (h : AcceptedCondition c.analysis e) :
    ReplacesIn c Expr.parts e (expr c (some .bool) e) :=
  replaces_expr sound condition_definite h.1

mutual

theorem replaces_stmt (sound : c.analysis.Sound) (definite : c.ret.Definite) {inLoop : Bool} :
    ∀ {s : Stmt}, AcceptedStmt c.analysis c.ret inLoop s → ReplacesIn c Stmt.exprs s (stmt c s)
  | .null _, _ | .break _, _ | .continue _, _ => .unchanged nofun
  | .expr node e, h =>
    .map (f := Statement.expr node) (replaces_expr sound definite_none h) (fun free => free) fun _ settled => settled
  | .decl node g, h =>
    .map (f := Statement.decl node) (replaces_declGroup sound h) (fun free => free) fun _ settled => settled
  | .compound node ss, h =>
    .map (f := Statement.compound node) (replaces_stmts sound definite h) (fun free => free)
      fun _ settled => settled
  | .ifThen node x yes, h =>
    .map₂ (f := Statement.ifThen node) (replaces_condition sound h.1) (replaces_stmt sound definite h.2)
      List.forall_mem_append.mp fun _ _ hx hyes => List.forall_mem_append.mpr ⟨hx, hyes⟩
  | .ifElse node x yes no, h => by
    refine .map₃ (f := Statement.ifElse node) (replaces_condition sound h.1)
      (replaces_stmt sound definite h.2.1) (replaces_stmt sound definite h.2.2) (fun free => ?_)
      fun _ _ _ hx hyes hno => ?_
    · obtain ⟨hx, rest⟩ := List.forall_mem_append.mp free
      exact ⟨hx, List.forall_mem_append.mp rest⟩
    · exact List.forall_mem_append.mpr ⟨hx, List.forall_mem_append.mpr ⟨hyes, hno⟩⟩
  | .while node x body, h =>
    .map₂ (f := Statement.while node) (replaces_condition sound h.1) (replaces_stmt sound definite h.2)
      List.forall_mem_append.mp fun _ _ hx hbody => List.forall_mem_append.mpr ⟨hx, hbody⟩
  | .doWhile node body x, h => by
    refine .map₂ (f := fun x body => Statement.doWhile node body x) (replaces_condition sound h.1)
      (replaces_stmt sound definite h.2) (fun free => ?_) fun _ _ hx hbody => ?_
    · exact (List.forall_mem_append.mp free).symm
    · exact List.forall_mem_append.mpr ⟨hbody, hx⟩
  | .for node init x step body, h => by
    have condition : ∀ e, x = some e → e.Accepted c.analysis := fun e he => (h.2.1 e he).1
    refine Replaces.mono (.bind (replaces_forInit sound h.1) fun init' =>
      .bind (replaces_expr? sound condition_definite condition) fun x' =>
      .bind (replaces_expr? sound definite_none h.2.2.1) fun step' =>
      .bind (replaces_stmt sound definite h.2.2.2) fun body' => .pure ?_ fun hbody hstep hx hinit => ?_)
      fun free => ?_
    · rintro rfl rfl rfl rfl
      rfl
    · exact List.forall_mem_append.mpr ⟨hinit, List.forall_mem_append.mpr
        ⟨hx, List.forall_mem_append.mpr ⟨hstep, hbody⟩⟩⟩
    · obtain ⟨hinit, free⟩ := List.forall_mem_append.mp free
      obtain ⟨hx, free⟩ := List.forall_mem_append.mp free
      obtain ⟨hstep, hbody⟩ := List.forall_mem_append.mp free
      exact ⟨hinit, hx, hstep, hbody, trivial⟩
  | .return node value, h =>
    .map (f := Statement.return node)
      (replaces_expr? sound (definite_some definite) (accepted_of_result h))
      (fun free => free) fun _ settled => settled

theorem replaces_stmts (sound : c.analysis.Sound) (definite : c.ret.Definite) {inLoop : Bool} :
    ∀ {ss : List Stmt}, AcceptedStmts c.analysis c.ret inLoop ss →
      ReplacesIn c (Statement.collectAll Expr.parts DeclGroup.exprs) ss (stmts c ss)
  | [], _ => .unchanged nofun
  | _ :: _, h =>
    .map₂ (f := List.cons) (replaces_stmt sound definite h.1) (replaces_stmts sound definite h.2)
      List.forall_mem_append.mp fun _ _ hs hss => List.forall_mem_append.mpr ⟨hs, hss⟩

end

end IncrementalC.Deferred
