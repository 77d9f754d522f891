import IncrementalC.Proofs.Analysis.Closed
import IncrementalC.Proofs.Analysis.SizesInRange
import IncrementalC.Proofs.Types.WellFounded

/-!
# Types are well founded in every state

Initial values, declarations, statements and functions enter symbols, tags and fields whose types come from type names and
expressions, and those name records of the table (`Analyze.KeepsClosed`). So a closed state stays closed over a whole group,
whether it is accepted or not (`Analysis.closed_analyze`).

`Analysis.Visited a`: groups, whether they are accepted or not, commits, rollbacks and settings lead from the empty state to
`a`. The names of such a state and those that a rollback leads back to are closed, and their records nest
(`Visited.invariant`). So the recursions over types end, and size, alignment and completeness fit together
(`Visited.types_well_founded`).
-/
namespace IncrementalC
set_option autoImplicit false
open Relation
open Typed (Expr Initializer VarDecl FunctionDecl Param Decl DeclKind Stmt)

namespace Analyze.KeepsClosed

variable {α : Type} {n : Nat} {Q : Nat → α → Prop} {span : Span}

/-! ## Entering names -/

theorem setGlobal {name : String} {s : Symbol} (h : s.Within n) : KeepsClosed n Anyway (setGlobal name s) := by
  rintro a closed rfl
  exact ⟨closed.setGlobal h, Nat.le_refl _, trivial⟩

theorem setTag {name : String} {t : Tag} (h : t.Within n) : KeepsClosed n Anyway (setTag name t) := by
  rintro a closed rfl
  exact ⟨closed.setTag h, Nat.le_refl _, trivial⟩

theorem setLocal {name : String} {s : LocalSymbol} (h : s.Within n) : KeepsClosed n Anyway (setLocal name s) := by
  rintro a closed rfl
  have size : ((Analyze.setLocal name s).run a).2.types.size = a.types.size := by
    rw [run_setLocal]
    split <;> rfl
  exact ⟨closed.setLocal h, Nat.le_of_eq size.symm, trivial⟩

theorem defineRecord {id : RecordId} {r : RecordDef} (h : ∀ f ∈ r.fields, f.ty.Within n) :
    KeepsClosed n Anyway (defineRecord id r) := by
  rintro a closed rfl
  exact ⟨closed.defineRecord h, Nat.le_of_eq (Analysis.size_defineRecord a id r).symm, trivial⟩

theorem setFunction {g : Analysis → Option FunctionContext} :
    KeepsClosed n Anyway (modify fun a => { a with function := g a } : Analyze PUnit) :=
  update fun _ closed size => ⟨{ closed with }, size⟩

theorem inScope {scope : NameMap LocalSymbol} {m : Analyze α} (h : ∀ name s, scope.get? name = some s → s.Within n)
    (hm : KeepsClosed n Q m) : KeepsClosed n Q (inScope scope m) := by
  have opens : KeepsClosed n Anyway (modify fun a : Analysis => { a with scopes := scope :: a.scopes } : Analyze PUnit) := by
    refine update fun a closed size => ⟨closed.withScopes fun scope' mem name s found => ?_, size⟩
    rcases List.mem_cons.mp mem with rfl | mem
    · exact size ▸ h name s found
    · exact closed.scopes scope' mem name s found
  have closes (x : α) (k : Nat) (hx : Q k x) : KeepsClosed k Q (do
      modify fun a : Analysis => { a with scopes := a.scopes.tail }
      return x) := by
    rintro a closed rfl
    exact ⟨closed.withScopes fun scope' mem => closed.scopes scope' (List.mem_of_mem_tail mem), Nat.le_refl _, hx⟩
  intro a closed size
  obtain ⟨opened, -, -⟩ := opens a closed size
  obtain ⟨closed, le, given⟩ := hm _ opened size
  obtain ⟨closed, le', given⟩ := closes _ _ given _ closed rfl
  exact ⟨closed, Nat.le_trans le le', given⟩

/-! ## Initial values -/

theorem stringFor {elem : Ty} {length : Option Nat} {s : String} (h : elem.Within n) :
    KeepsClosed n (fun k ty => ty.Within k) (stringFor elem length s span) := by
  unfold Analyze.stringFor
  cases length with
  | none => exact pure h
  | some size => exact ite (reported h) (pure h)

mutual

theorem initializer (n : Nat) {ty : Ty} (h : ty.Within n) :
    ∀ i : Syntax.Initializer, KeepsClosed n (fun k r => r.1.Within k) (initializer ty i)
  | .expr e => by
    rw [Analyze.initializer.eq_def]
    dsimp only
    split
    · refine ite ?_ (reported h)
      exact bind (stringFor h) fun k ty _ given => bind (expr k _) fun _ _ le _ => pure (given.mono le)
    · exact reported h
    · exact bind (expr n _) fun k e le _ => bind (check (Does.checkAssignable _ e _)) fun _ _ le' _ =>
        pure ((h.mono le).mono le')
  | .list items span => by
    rw [Analyze.initializer.eq_def]
    dsimp only
    have refuse (problem : Problem) : KeepsClosed n (fun k (r : Ty × Initializer) => r.1.Within k) (do
        Analyze.report problem span
        Pure.pure (ty, InitialValue.list (unanalysedList items) span)) := reported h
    cases ty with
    | array elem length =>
      have elem_within : elem.Within n := h
      exact ite (refuse _) (bind (elements n elem_within items) fun _ _ le _ => pure (h.mono le))
    | record id =>
      refine read fun a closed size => ?_
      split
      · exact named fun _ => refuse _
      · rename_i r found
        have entry := (Option.filter_eq_some_iff.mp found).1
        have fields : ∀ f ∈ r.fields, f.ty.Within n := size ▸ closed.field id r entry
        exact ite (refuse _) (bind (members n r.fields fields items) fun _ _ le _ => pure (h.mono le))
    | _ =>
      match items with
      | [] => exact pure h
      | [item] => exact bind (initializer n h item) fun _ _ _ given => pure given
      | _ :: _ :: _ => exact refuse (.excessElements "scalar")
  | .construct args span => by
    rw [Analyze.initializer.eq_def]
    dsimp only
    split
    · exact pure h
    · refine ite (named fun _ => reported h) ?_
      exact bind (expr n _) fun k e le _ => bind (check (Does.checkAssignable _ e _)) fun _ _ le' _ =>
        pure ((h.mono le).mono le')
    · exact ite (named fun _ => reported h) (reported h)

theorem elements (n : Nat) {elem : Ty} (h : elem.Within n) :
    ∀ items : List Syntax.Initializer, KeepsClosed n Anyway (elements elem items)
  | [] => pure trivial
  | item :: items =>
    bind (initializer n h item) fun k _ le _ => bind (elements k (h.mono le) items) fun _ _ _ _ => pure trivial

theorem members (n : Nat) (fields : List Field) (h : ∀ f ∈ fields, f.ty.Within n) :
    ∀ items : List Syntax.Initializer, KeepsClosed n Anyway (members fields items)
  | [] => pure trivial
  | item :: items => by
    rw [Analyze.members.eq_def]
    dsimp only
    cases fields with
    | nil => exact pure trivial
    | cons f fields =>
      obtain ⟨first, rest⟩ := List.forall_mem_cons.mp h
      exact bind (initializer n first item) fun k _ le _ =>
        bind (members k fields (fun f mem => (rest f mem).mono le) items) fun _ _ _ _ => pure trivial

end

/-! ## Objects -/

theorem localVar (isStatic : Bool) {v : VarDecl} (h : v.ty.Within n) (span : Span) :
    KeepsClosed n Anyway (localVar isStatic v span) := by
  unfold Analyze.localVar
  refine read fun a _ _ => ite (reported trivial) ?_
  split
  · exact pure trivial
  · refine ite (ite ?_ ?_) ?_
    · exact bind (report _ _) fun k _ le _ => bind (setLocal (h.mono le)) fun _ _ _ _ => pure trivial
    · exact bind (setLocal h) fun _ _ _ _ => pure trivial
    · exact bind setFunction fun k _ le _ => bind (setLocal (h.mono le)) fun _ _ _ _ => pure trivial

theorem globalVar {v : VarDecl} (h : v.ty.Within n) (span : Span) : KeepsClosed n Anyway (globalVar v span) := by
  unfold Analyze.globalVar
  refine read fun a _ _ => ?_
  extract_lets types image v'
  have enters : KeepsClosed n Anyway (do
      Analyze.setGlobal v.name (.var v'.ty v'.linkName v'.isDefinition)
      Pure.pure v') := bind (setGlobal h) fun _ _ _ _ => pure trivial
  refine read fun b _ _ => ?_
  split
  · exact ite (named fun _ => named fun _ => reported trivial) (ite (reported trivial) enters)
  · exact reported trivial
  · exact enters

theorem enterVar (storage : Syntax.Storage) (name : String) {ty : Ty} (init : Option Initializer) (span : Span)
    (h : ty.Within n) : KeepsClosed n Anyway (enterVar storage name ty init span) := by
  unfold Analyze.enterVar
  extract_lets isExtern v
  refine read fun a _ _ => ite ?_ (read fun b _ _ => ite (localVar _ h _) (globalVar h _))
  split
  · exact reported trivial
  · exact named fun _ => reported trivial

theorem autoVar (storage : Syntax.Storage) (name : String) (nameSpan span : Span) (init : Option Syntax.Initializer) :
    KeepsClosed n Anyway (autoVar storage name nameSpan span init) := by
  unfold Analyze.autoVar
  extract_lets failed deduce
  have deduces (k : Nat) (e : Expr) (value : Initializer) (h : e.ty.Within k) : KeepsClosed k Anyway (deduce e value) :=
    ite (reported trivial) (ite (reported trivial) (enterVar _ _ _ _ h.decay))
  split
  · exact bind (expr n _) fun k e _ he => deduces k e _ he
  · exact bind (expr n _) fun k e _ he => deduces k e _ he
  · exact reported trivial

theorem varDecl (spec : Syntax.DeclSpec) (name : String) (d : Syntax.Declarator) (init : Option Syntax.Initializer)
    (span : Span) : KeepsClosed n Anyway (varDecl spec name d init span) := by
  unfold Analyze.varDecl
  refine ite (autoVar _ _ _ _ _) (bind (baseType spec) fun k base _ hb => bind (declaredType k hb d) fun k ty _ h => ?_)
  refine ite (pure trivial) (ite (reported trivial) ?_)
  cases init with
  | none => exact enterVar _ _ _ _ h
  | some init => exact bind (initializer k h init) fun _ _ _ given => enterVar _ _ _ _ given

/-! ## Functions -/

theorem params (n : Nat) : ∀ (slot : Nat) (ps : List Syntax.Param),
    KeepsClosed n (fun k ps => ∀ p ∈ ps, p.ty.Within k) (params slot ps)
  | _, [] => pure nofun
  | slot, .mk spec d span :: rest => by
    rw [Analyze.params]
    refine bind (baseType spec) fun k base _ hb => bind (declaredType k hb d) fun k ty _ h => ?_
    have behind (k' : Nat) (le : k ≤ k') : KeepsClosed k' (fun k (ps : List Param) => ∀ p ∈ ps, p.ty.Within k) (do
        Pure.pure ({ name := d.name, ty := ty.decay, slot } :: (← Analyze.params (slot + 1) rest))) :=
      bind (params k' (slot + 1) rest) fun _ _ le' given =>
        pure (List.forall_mem_cons.mpr ⟨(h.decay.mono le).mono le', given⟩)
    exact ite (bind (report _ _) fun k' _ le _ => behind k' le) (behind k (Nat.le_refl k))

theorem functionHead (spec : Syntax.DeclSpec) (name : String) (d : Syntax.Declarator) (externC hasBody : Bool) :
    KeepsClosed n (fun k r => ∀ p ∈ r.1.params, p.ty.Within k) (functionHead spec name d externC hasBody) := by
  unfold Analyze.functionHead
  refine bind (baseType spec) fun k base _ hb => ?_
  extract_lets ret f
  split
  · refine bind (params k 0 _) fun k' ps le hps => ?_
    have sig (variadic : Bool) : FunctionSig.Within k' ⟨ret, ps.map (·.ty), variadic⟩ :=
      ⟨(hb.pointers d.pointers).mono le, List.forall_mem_map.mpr hps⟩
    have enters (variadic defined entered : Bool) (f : FunctionDecl) (same : f.params = ps) :
        KeepsClosed k' (fun k (r : FunctionDecl × Bool) => ∀ p ∈ r.1.params, p.ty.Within k) (do
          Analyze.setGlobal name (.function ⟨ret, ps.map (·.ty), variadic⟩ defined)
          Pure.pure (f, entered)) :=
      bind (setGlobal (sig variadic)) fun _ _ le _ => pure fun p mem => (hps p (same ▸ mem)).mono le
    refine read fun a _ _ => ?_
    split
    · exact ite (reported hps) (ite (reported hps) (enters _ _ _ _ rfl))
    · exact reported hps
    · exact enters _ _ _ _ rfl
  · exact reported nofun

/-! ## Records, enumerations, typedefs -/

theorem fields (n : Nat) {base : Ty} (hb : base.Within n) (ds : List Syntax.Declarator) {acc : List Field × Nat}
    (h : ∀ f ∈ acc.1, f.ty.Within n) :
    KeepsClosed n (fun k (r : List Field × Nat) => ∀ f ∈ r.1, f.ty.Within k) (fields base ds acc) := by
  induction ds generalizing n acc with
  | nil => exact pure h
  | cons d ds ih =>
    obtain ⟨before, slot⟩ := acc
    rw [Analyze.fields]
    refine bind (declaredType n hb d) fun k ty le hty => ?_
    have hb := hb.mono le
    have h : ∀ f ∈ before, f.ty.Within k := fun f mem => (h f mem).mono le
    have skipped (problem : Problem) : KeepsClosed k (fun k (r : List Field × Nat) => ∀ f ∈ r.1, f.ty.Within k) (do
        Analyze.report problem d.span
        Analyze.fields base ds (before, slot)) :=
      bind (report _ _) fun k' _ le _ => ih k' (hb.mono le) fun f mem => (h f mem).mono le
    refine ite (ih k hb h) (read fun a _ _ => ite (named fun _ => skipped _) (ite (skipped _) ?_))
    refine read fun a _ _ => ih k hb fun f mem => ?_
    rcases List.mem_append.mp mem with mem | mem
    · exact h f mem
    · rw [List.mem_singleton.mp mem]
      exact hty

theorem fieldDecls (n : Nat) (fds : List Syntax.FieldDecl) {acc : List Field × Nat} (h : ∀ f ∈ acc.1, f.ty.Within n) :
    KeepsClosed n (fun k fs => ∀ f ∈ fs, f.ty.Within k) (fieldDecls fds acc) := by
  induction fds generalizing n acc with
  | nil => exact pure h
  | cons fd fds ih =>
    exact bind (baseType fd.spec) fun k base le hb =>
      bind (fields k hb fd.declarators fun f mem => (h f mem).mono le) fun k acc _ h => ih k h

theorem recordDecl (kind : Syntax.RecordKind) (name : String) (fds : Option (List Syntax.FieldDecl)) (span : Span) :
    KeepsClosed n Anyway (recordDecl kind name fds span) := by
  unfold Analyze.recordDecl
  extract_lets decl define
  have defines (k : Nat) (id : RecordId) : KeepsClosed k Anyway (define id) := by
    dsimp only [define]
    cases fds with
    | none => exact pure trivial
    | some fds =>
      refine read fun a _ _ => ite (reported trivial) ?_
      exact bind (fieldDecls k fds nofun) fun _ fs _ h => bind (defineRecord h) fun _ _ _ _ => pure trivial
  refine read fun a _ _ => ?_
  split
  · exact defines n _
  · exact reported trivial
  · exact bind (newRecord name) fun k id _ _ => defines k id

theorem enumerators (n : Nat) {ty : Ty} (h : ty.Within n) (next : Int64) (vs : List Syntax.Enumerator) :
    KeepsClosed n Anyway (enumerators ty next vs) := by
  induction vs generalizing n next with
  | nil => exact pure trivial
  | cons v vs ih =>
    have enter (k : Nat) (h : ty.Within k) (value : Int64) : KeepsClosed k Anyway (do
        let a ← MonadState.get
        if a.function.isSome then Analyze.setLocal v.name (.enumConst value ty)
        else if a.names.globals.contains v.name then Analyze.report (.redefinition v.name) v.span
        else Analyze.setGlobal v.name (.enumConst value ty)
        Pure.pure ((v.name, value) :: (← Analyze.enumerators ty (value + 1) vs))) := by
      have rest (k' : Nat) (_ : PUnit) (le : k ≤ k') (_ : True) : KeepsClosed k' Anyway (do
          Pure.pure ((v.name, value) :: (← Analyze.enumerators ty (value + 1) vs))) :=
        bind (ih k' (h.mono le) _) fun _ _ _ _ => pure trivial
      refine read fun a _ _ => ?_
      split
      · exact bind (setLocal h) rest
      · split
        · exact bind (report _ _) rest
        · exact bind (setGlobal h) rest
    rw [Analyze.enumerators]
    dsimp only
    split
    · exact enter n h _
    · refine bind (expr n _) fun k e le _ => read fun a _ _ => ?_
      split
      · exact enter k (h.mono le) _
      · exact bind (report _ _) fun k' _ le' _ => enter k' ((h.mono le).mono le') _

theorem enumDecl (name : Option String) (vs : List Syntax.Enumerator) (span : Span) :
    KeepsClosed n Anyway (enumDecl name vs span) := by
  unfold Analyze.enumDecl
  cases name with
  | none =>
    have plain : Ty.signedInt.Within n := trivial
    exact bind (enumerators n plain _ _) fun _ _ _ _ => pure trivial
  | some tag =>
    have plain (k : Nat) : (Ty.enum tag).Within k := trivial
    refine read fun a _ _ => ite (reported trivial) ?_
    exact bind (setTag trivial) fun k _ _ _ => bind (enumerators k (plain k) _ _) fun _ _ _ _ => pure trivial

theorem typedefDecl (spec : Syntax.DeclSpec) (name : String) (d : Syntax.Declarator) (span : Span) :
    KeepsClosed n Anyway (typedefDecl spec name d span) := by
  unfold Analyze.typedefDecl
  refine bind (baseType spec) fun k base _ hb => bind (declaredType k hb d) fun k ty _ h => read fun a _ _ => ?_
  split
  · exact bind (setLocal h) fun _ _ _ _ => pure trivial
  · split
    · exact ite (named fun _ => named fun _ => reported trivial) (pure trivial)
    · exact reported trivial
    · exact bind (setGlobal h) fun _ _ _ _ => pure trivial

/-! ## Groups -/

theorem declKind (spec : Syntax.DeclSpec) (d : Syntax.Decl) : KeepsClosed n Anyway (declKind spec d) := by
  unfold Analyze.declKind
  cases d.kind with
  | var name declarator init => exact bind (varDecl _ _ _ _ _) fun _ _ _ _ => pure trivial
  | function name declarator externC => exact bind (functionHead _ _ _ _ _) fun _ _ _ _ => pure trivial
  | record kind name fds => exact recordDecl _ _ _ _
  | enum name variants => exact enumDecl _ _ _
  | typedef name declarator => exact typedefDecl _ _ _ _

theorem decls (n : Nat) (spec : Syntax.DeclSpec) (ds : List Syntax.Decl) : KeepsClosed n Anyway (decls spec ds) := by
  induction ds generalizing n with
  | nil => exact pure trivial
  | cons d ds ih => exact bind (declKind spec d) fun k _ _ _ => bind (ih k) fun _ _ _ _ => pure trivial

theorem declGroup (g : Syntax.DeclGroup) : KeepsClosed n Anyway (declGroup g) :=
  bind (decls n g.spec g.decls) fun _ _ _ _ => pure trivial

/-! ## Statements -/

theorem condition (e : Syntax.Expr) : KeepsClosed n Anyway (condition e) := by
  refine bind (expr n e) fun k e _ _ => ?_
  exact ite (named fun _ => reported trivial) (pure trivial)

theorem condition? (e : Option Syntax.Expr) : KeepsClosed n Anyway (condition? e) := by
  cases e with
  | none => exact pure trivial
  | some e => exact fun a closed size => condition e a closed size

theorem expr? (e : Option Syntax.Expr) : KeepsClosed n Anyway (expr? e) := by
  cases e with
  | none => exact pure trivial
  | some e => exact fun a closed size => (expr n e).anyway a closed size

theorem returned (f : FunctionContext) (value : Option Syntax.Expr) (span : Span) :
    KeepsClosed n Anyway (returned f value span) := by
  unfold Analyze.returned
  cases value with
  | none => exact ite (reported trivial) (pure trivial)
  | some e =>
    refine bind (expr n e) fun k e _ _ => ite ?_ ?_
    · exact bind (check (Does.checkAssignable _ e _)) fun _ _ _ _ => pure trivial
    · exact ite (reported trivial) (pure trivial)

theorem forInit (init : ForInit Syntax.Expr Syntax.DeclGroup) : KeepsClosed n Anyway (forInit init) := by
  cases init with
  | none => exact pure trivial
  | decl node g => exact bind (declGroup g) fun _ _ _ _ => pure trivial
  | expr node e => exact bind (expr n e) fun _ _ _ _ => pure trivial

mutual

theorem stmt (n : Nat) (f : FunctionContext) (inLoop : Bool) : ∀ s : Syntax.Stmt, KeepsClosed n Anyway (stmt f inLoop s)
  | .null _ => pure trivial
  | .expr _ e => bind (expr n e) fun _ _ _ _ => pure trivial
  | .decl _ g => bind (declGroup g) fun _ _ _ _ => pure trivial
  | .compound _ ss => bind (inScope nofun (stmts n f inLoop ss)) fun _ _ _ _ => pure trivial
  | .ifThen _ c yes => bind (condition c) fun k _ _ _ => bind (stmt k f inLoop yes) fun _ _ _ _ => pure trivial
  | .ifElse _ c yes no =>
    bind (condition c) fun k _ _ _ => bind (stmt k f inLoop yes) fun k _ _ _ => bind (stmt k f inLoop no) fun _ _ _ _ =>
      pure trivial
  | .while _ c body => bind (condition c) fun k _ _ _ => bind (stmt k f true body) fun _ _ _ _ => pure trivial
  | .doWhile _ body c => bind (stmt n f true body) fun _ _ _ _ => bind (condition c) fun _ _ _ _ => pure trivial
  | .for _ init c step body =>
    inScope nofun <| bind (forInit init) fun _ _ _ _ => bind (condition? c) fun _ _ _ _ =>
      bind (expr? step) fun k _ _ _ => bind (stmt k f true body) fun _ _ _ _ => pure trivial
  | .break _ => ite (reported trivial) (pure trivial)
  | .continue _ => ite (reported trivial) (pure trivial)
  | .return _ value => bind (returned f value _) fun _ _ _ _ => pure trivial

theorem stmts (n : Nat) (f : FunctionContext) (inLoop : Bool) :
    ∀ ss : List Syntax.Stmt, KeepsClosed n Anyway (stmts f inLoop ss)
  | [] => pure trivial
  | s :: ss => bind (stmt n f inLoop s) fun k _ _ _ => bind (stmts k f inLoop ss) fun _ _ _ _ => pure trivial

end

/-! ## Function definitions -/

theorem paramScope_within {ps : List Param} (h : ∀ p ∈ ps, p.ty.Within n) :
    ∀ name s, (paramScope ps).get? name = some s → s.Within n := by
  have within : ∀ name s, ({} : NameMap LocalSymbol).get? name = some s → s.Within n := nofun
  unfold Analyze.paramScope
  generalize ({} : NameMap LocalSymbol) = scope at within ⊢
  induction ps generalizing scope with
  | nil => exact within
  | cons p ps ih =>
    obtain ⟨first, rest⟩ := List.forall_mem_cons.mp h
    refine ih rest _ fun name s found => ?_
    dsimp only at found
    split at found
    · rw [NameMap.get?_insert] at found
      split at found
      · cases found
        exact first
      · exact within name s found
    · exact within name s found

theorem functionBody {f : FunctionDecl} (h : ∀ p ∈ f.params, p.ty.Within n) (body : Syntax.Stmt) :
    KeepsClosed n Anyway (functionBody f body) := by
  unfold Analyze.functionBody
  refine bind setFunction fun k _ le _ => ?_
  refine bind (inScope (paramScope_within fun p mem => (h p mem).mono le) (stmt k _ _ body)) fun k _ _ _ => ?_
  exact read fun a _ _ => bind setFunction fun _ _ _ _ => pure trivial

theorem functionDefinition (spec : Syntax.DeclSpec) (d : Syntax.Decl) (body : Syntax.Stmt) :
    KeepsClosed n Anyway (functionDefinition spec d body) := by
  unfold Analyze.functionDefinition
  split
  · refine bind (functionHead _ _ _ _ _) fun k r _ h => ite (pure trivial) (read fun a _ _ => ite ?_ ?_)
    · exact named fun _ => reported trivial
    · exact bind (functionBody h body) fun _ _ _ _ => pure trivial
  · exact bind (declKind spec d) fun _ _ _ _ => pure trivial

theorem topLevel (t : Syntax.TopLevel) : KeepsClosed n Anyway (topLevel t) := by
  unfold Analyze.topLevel
  dsimp only
  split
  · exact bind (decls n _ _) fun _ _ _ _ => bind (functionDefinition _ _ _) fun _ _ _ _ => pure trivial
  · exact bind (declGroup _) fun _ _ _ _ => pure trivial

end Analyze.KeepsClosed

namespace Analysis

theorem closed_analyze {a : Analysis} (h : a.Closed) (t : Syntax.TopLevel) : (a.analyze t).2.Closed := by
  have started : { a with errors := #[] }.Closed := { h with }
  obtain ⟨closed, -, -⟩ := Analyze.KeepsClosed.topLevel t _ started rfl
  exact { closed with scopes := fun _ mem => by cases mem }

end Analysis

/-! ## Changes -/

namespace Analyze

variable {a b : Analysis}

theorem Mention.nested (h : Mention a b) (nested : a.types.Nested) : b.types.Nested := by
  refine ⟨(Mentions.layered (.single h)).mp nested.layered, fun id r found incomplete => ?_⟩
  cases h with
  | report h =>
    cases h
    exact nested.empty id r found incomplete
  | record _ =>
    rw [record?_withRecord] at found
    split at found
    · cases found
      rfl
    · exact nested.empty id r found incomplete
  | value _ _ => exact nested.empty id r found incomplete

theorem Change.nested (h : Change a b) (nested : a.types.Nested) : b.types.Nested := by
  refine ⟨h.layered nested.layered, fun id r found incomplete => ?_⟩
  cases h with
  | mention h => exact (h.nested nested).empty id r found incomplete
  | @complete id' old name fields present _ _ _ =>
    rw [run_defineRecord, present] at found
    have found : (a.types.set id' ⟨name, fields, true⟩).record? id = some r := found
    rw [TypeTable.record?_set, if_pos (TypeTable.lt_size present)] at found
    split at found
    · cases found
      cases incomplete
    · exact nested.empty id r found incomplete
  | global _ | enum _ | scopes _ | function _ => exact nested.empty id r found incomplete

theorem Changes.nested (h : ReflTransGen Change a b) (nested : a.types.Nested) : b.types.Nested := by
  induction h with
  | refl => exact nested
  | tail _ h ih => exact h.nested ih

end Analyze

/-! ## States -/

/-- The records that are named exist, and they nest. -/
structure Names.Orderly (n : Names) : Prop where
  closed : n.Closed
  nested : n.types.Nested

theorem Names.Orderly.of_same {n m : Names} (h : n.Orderly) (same : m.Same n) : m.Orderly := by
  refine ⟨⟨fun name s found => ?_, fun name t found => ?_, ?_⟩, ?_⟩
  · rw [same.types]
    exact h.closed.global name s (by rw [← same.globals]; exact found)
  · rw [same.types]
    exact h.closed.tag name t (by rw [← same.tags]; exact found)
  · rw [same.types]
    exact h.closed.field
  · rw [same.types]
    exact h.nested

theorem Names.orderly_empty : Names.Orderly {} :=
  ⟨⟨nofun, nofun, fun id r found => by simp [TypeTable.record?] at found⟩, .empty_table⟩

namespace Analysis

variable {a : Analysis}

/-- Groups, commits, rollbacks and settings lead from the empty state to this one. A group that is not accepted need not be
rolled back. -/
inductive Visited : Analysis → Prop where
  | start : Visited {}
  | analyzed {a : Analysis} (h : Visited a) (t : Syntax.TopLevel) : Visited (a.analyze t).2
  | commit {a : Analysis} (h : Visited a) : Visited a.commit
  | rollback {a : Analysis} (h : Visited a) : Visited a.rollback
  | fallback {a : Analysis} (h : Visited a) (fallback : Option Fallback)
      (plain : ∀ f, fallback = some f → f.Plain) : Visited { a with fallback }
  | hooks {a : Analysis} (h : Visited a) (hasHooks : Bool) : Visited { a with hasHooks }
  | handedOut {a : Analysis} (h : Visited a) (synthesized : Array Typed.Decl) : Visited { a with synthesized }

theorem nested_analyze (nested : a.types.Nested) (t : Syntax.TopLevel) : (a.analyze t).2.types.Nested := by
  have changed : ((Analyze.topLevel t).run { a with errors := #[] }).2.types.Nested :=
    Analyze.Changes.nested (analyze_changes a t) nested
  exact changed

/-- The present names are in order, and so are those that a rollback leads back to. -/
theorem Visited.invariant (h : a.Visited) :
    a.Closed ∧ a.types.Nested ∧ ∃ n : Names, a.Restores n ∧ n.Orderly := by
  induction h with
  | start =>
    exact ⟨{ Names.orderly_empty.closed with scopes := nofun, fallback := nofun }, .empty_table, {}, restores_commit {},
      Names.orderly_empty⟩
  | analyzed _ t ih =>
    obtain ⟨closed, nested, n, restores, orderly⟩ := ih
    exact ⟨closed_analyze closed t, nested_analyze nested t, n, restores_analyze restores t, orderly⟩
  | @commit a _ ih =>
    obtain ⟨closed, nested, -⟩ := ih
    exact ⟨{ closed with }, nested, a.names, restores_commit a, closed.toClosed, nested⟩
  | @rollback a _ ih =>
    obtain ⟨closed, -, n, restores, orderly⟩ := ih
    have back : a.rollback.names.Orderly := orderly.of_same restores.names
    exact ⟨{ back.closed with scopes := nofun, fallback := closed.fallback }, back.nested, n, restores_rollback restores,
      orderly⟩
  | fallback _ f plain ih =>
    obtain ⟨closed, nested, n, restores, orderly⟩ := ih
    exact ⟨{ closed with fallback := plain }, nested, n, restores.of_eq rfl rfl rfl, orderly⟩
  | hooks _ _ ih | handedOut _ _ ih =>
    obtain ⟨closed, nested, n, restores, orderly⟩ := ih
    exact ⟨{ closed with }, nested, n, restores.of_eq rfl rfl rfl, orderly⟩

/-- The recursions over the types of the state end, and what they give for a type fits together. -/
structure Founded (a : Analysis) : Prop where
  acyclic : ∀ id, ¬TransGen a.types.Contains id id
  complete : ∀ id r, a.types.record? id = some r → r.complete → ∀ f ∈ r.fields, a.types.isComplete f.ty
  closed : a.Closed
  ends : WellFounded a.types.Part
  unfolds : a.types.Unfolds
  sized : ∀ ty, a.types.Free ty → ((a.types.size? ty).isSome ↔ a.types.isComplete ty)
  aligned : ∀ ty size, a.types.size? ty = some size → a.types.alignment ty ∣ size
  /-- Where rejected groups are rolled back, no field has dependent parts, so a type shows by itself whether it has. -/
  free : a.Reached → ∀ ty, TypeTable.Free {} ty → a.types.Free ty

theorem Reached.free (h : a.Reached) {ty : Ty} (plain : TypeTable.Free {} ty) : a.types.Free ty := by
  intro p inside
  induction inside with
  | self => exact plain p .self
  | element _ ih => exact ih fun q inside => plain q (.element inside)
  | field found mem inside _ => exact h.regular.free (h.regular.definite _ _ found _ mem) p inside

/-- Types are well founded whatever was analysed, committed and rolled back before. -/
theorem Visited.types_well_founded (h : a.Visited) : a.Founded := by
  obtain ⟨closed, nested, -⟩ := h.invariant
  refine ⟨nested.acyclic, fun id r found complete => ?_, closed, nested.wellFounded, nested.unfolds,
    fun ty => nested.isSome_size?, fun ty size => nested.alignment_dvd_size, fun reached ty => reached.free⟩
  obtain ⟨ids, -, rests⟩ := nested.layered.rests found complete
  exact rests.complete

/-- The state after two groups that are committed and one that is rolled back. -/
def thirdRolledBack (t₁ t₂ t₃ : Syntax.TopLevel) : Analysis :=
  ((((({} : Analysis).analyze t₁).2.analyze t₂).2.commit).analyze t₃).2.rollback

/-- A record is named before it is completed, and another one would contain itself. -/
theorem named_before_completed :
    ∃ t₁ t₂ t₃, Syntax.groupOf? "struct A \x7b int n; struct B *next; \x7d;" = some t₁ ∧
      Syntax.groupOf? "struct B \x7b struct A rows[3]; char c; \x7d;" = some t₂ ∧
      Syntax.groupOf? "struct C \x7b struct C inner[2]; \x7d;" = some t₃ ∧
      (thirdRolledBack t₁ t₂ t₃).Visited ∧ (thirdRolledBack t₁ t₂ t₃).Founded ∧
      (thirdRolledBack t₁ t₂ t₃).types.size = 2 ∧ (thirdRolledBack t₁ t₂ t₃).types.size? (.record 1) = some 56 ∧
      (thirdRolledBack t₁ t₂ t₃).types.alignment (.record 1) = 8 := by
  have outcome : ((do
      let t₁ ← Syntax.groupOf? "struct A \x7b int n; struct B *next; \x7d;"
      let t₂ ← Syntax.groupOf? "struct B \x7b struct A rows[3]; char c; \x7d;"
      let t₃ ← Syntax.groupOf? "struct C \x7b struct C inner[2]; \x7d;"
      let types := (thirdRolledBack t₁ t₂ t₃).types
      guard (types.size = 2 ∧ types.size? (.record 1) = some 56 ∧ types.alignment (.record 1) = 8)
      return (t₁, t₂, t₃)) : Option _).isSome := by
    decide +kernel
  obtain ⟨⟨t₁, t₂, t₃⟩, outcome⟩ := Option.isSome_iff_exists.mp outcome
  simp only [Option.bind_eq_bind, Option.bind_eq_some_iff, Option.guard_eq_some'] at outcome
  obtain ⟨u₁, read₁, u₂, read₂, u₃, read₃, -, sizes, same⟩ := outcome
  cases same
  have visited : (thirdRolledBack t₁ t₂ t₃).Visited :=
    .rollback (.analyzed (.commit (.analyzed (.analyzed .start t₁) t₂)) t₃)
  exact ⟨t₁, t₂, t₃, read₁, read₂, read₃, visited, visited.types_well_founded, sizes⟩

end Analysis

end IncrementalC
