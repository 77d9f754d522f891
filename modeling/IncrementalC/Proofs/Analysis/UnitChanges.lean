import IncrementalC.Analysis.Unit
import IncrementalC.Proofs.Analysis.Change

/-!
# What analysing a group changes

Initial values are sequences of `Mention`s, declarations and statements are sequences of `Change`s.
`analyze_changes` gathers this for a whole group: between the two resets of `Analysis.analyze` the
state is changed only in the ways of `Change`.
-/
namespace IncrementalC
set_option autoImplicit false
open Typed (VarDecl FunctionDecl Param Decl DeclKind)
open Relation

namespace Analyze.Does

/-! ## Initial values -/

theorem stringFor (elem : Ty) (length : Option Nat) (s : String) (span : Span) :
    Does Report (stringFor elem length s span) := by
  unfold Analyze.stringFor
  grind

mutual

theorem initializer (ty : Ty) : ∀ i : Syntax.Initializer, Does Mention (initializer ty i)
  | .expr e => by
    rw [Analyze.initializer.eq_def]
    dsimp only
    split
    · refine ite ?_ ?_
      · exact bind (stringFor _ _ _ _).mentions fun _ => bind (expr _) fun _ => pure _
      · grind
    · grind
    · exact bind (expr _) fun e => bind (checkAssignable _ e _).mentions fun _ => pure _
  | .list items span => by
    rw [Analyze.initializer.eq_def]
    dsimp only
    have hrefuse (problem : Problem) : Does Mention (do
        Analyze.report problem span
        Pure.pure (ty, InitialValue.list (unanalysedList items) span)) := by
      grind
    cases ty with
    | array elem length =>
      exact ite (hrefuse _) (bind (elements elem items) fun _ => pure _)
    | record id =>
      refine bind get fun a => ?_
      split
      · exact bind (typeName _) fun _ => hrefuse _
      · rename_i r _
        exact ite (hrefuse _) (bind (members r.fields items) fun _ => pure _)
    | _ =>
      match items with
      | [] => exact pure _
      | [item] => exact bind (initializer _ item) fun _ => pure _
      | _ :: _ :: _ => exact hrefuse (.excessElements "scalar")
  | .construct args span => by
    rw [Analyze.initializer.eq_def]
    dsimp only
    split
    · exact pure _
    · refine ite ?_ ?_
      · grind
      · exact bind (expr _) fun e => bind (checkAssignable _ e _).mentions fun _ => pure _
    · grind

theorem elements (elem : Ty) : ∀ items : List Syntax.Initializer, Does Mention (elements elem items)
  | [] => pure _
  | item :: items => bind (initializer elem item) fun _ => bind (elements elem items) fun _ => pure _

theorem members (fields : List Field) :
    ∀ items : List Syntax.Initializer, Does Mention (members fields items)
  | [] => pure _
  | item :: items => by
    rw [Analyze.members.eq_def]
    dsimp only
    cases fields with
    | nil => exact pure _
    | cons f fields =>
      exact bind (initializer f.ty item) fun _ => bind (members fields items) fun _ => pure _

end

/-! ## Declarations -/

theorem localVar (isStatic : Bool) (v : VarDecl) (span : Span) :
    Does Change (localVar isStatic v span) := by
  unfold Analyze.localVar
  refine bind get fun a => ite (bind (change_report _ _) fun _ => pure _) ?_
  split
  · exact pure _
  · refine ite (ite ?_ ?_) ?_
    · exact bind (change_report _ _) fun _ => bind (setLocal _ _) fun _ => pure _
    · exact bind (setLocal _ _) fun _ => pure _
    · exact bind (update fun a => .single (.function _)) fun _ => bind (setLocal _ _) fun _ => pure _

theorem globalVar (v : VarDecl) (span : Span) : Does Change (globalVar v span) := by
  refine bind get fun a => ?_
  extract_lets types image v'
  refine read fun b => ?_
  split
  · rename_i old _ defined found
    split
    · grind
    · split
      · grind
      · rename_i same _
        refine bindAt (setGlobal fun s hs => ?_) fun _ => pure _
        rw [found] at hs
        cases hs
        rw [Decidable.not_not.mp same]
        exact .var
  · grind
  · rename_i fresh
    exact bindAt (setGlobal_fresh fresh) fun _ => pure _

theorem enterVar (storage : Syntax.Storage) (name : String) (ty : Ty)
    (init : Option Typed.Initializer) (span : Span) :
    Does Change (enterVar storage name ty init span) := by
  unfold Analyze.enterVar
  grind [localVar, globalVar]

theorem autoVar (storage : Syntax.Storage) (name : String) (nameSpan span : Span)
    (init : Option Syntax.Initializer) : Does Change (autoVar storage name nameSpan span init) := by
  unfold Analyze.autoVar
  dsimp only
  split
  · exact bind (expr _).changes fun e => by grind [enterVar]
  · exact bind (expr _).changes fun e => by grind [enterVar]
  · grind

theorem varDecl (spec : Syntax.DeclSpec) (name : String) (d : Syntax.Declarator)
    (init : Option Syntax.Initializer) (span : Span) : Does Change (varDecl spec name d init span) := by
  unfold Analyze.varDecl
  refine ite (autoVar _ _ _ _ _) ?_
  refine bind (baseType spec).changes fun base => bind (declaredType base d).changes fun ty => ?_
  refine ite (pure _) (ite ?_ ?_)
  · grind
  · cases init with
    | none => exact enterVar _ _ _ _ _
    | some init => exact bind (initializer ty init).changes fun _ => enterVar _ _ _ _ _

theorem params : ∀ (slot : Nat) (ps : List Syntax.Param), Does Mention (params slot ps)
  | _, [] => pure _
  | slot, .mk spec d span :: rest => by
    rw [Analyze.params]
    refine bind (baseType spec) fun base => bind (declaredType base d) fun ty => ?_
    have hrest := params (slot + 1) rest
    grind

theorem functionHead (spec : Syntax.DeclSpec) (name : String) (d : Syntax.Declarator)
    (externC hasBody : Bool) : Does Change (functionHead spec name d externC hasBody) := by
  unfold Analyze.functionHead
  refine bind (baseType spec).changes fun base => ?_
  dsimp only
  split
  · refine bind (params _ _).changes fun ps => read fun a => ?_
    split
    · rename_i old defined found
      split
      · grind
      · split
        · grind
        · rename_i same _
          refine bindAt (setGlobal fun s hs => ?_) fun _ => pure _
          rw [found] at hs
          cases hs
          rw [Decidable.not_not.mp same]
          exact .function
    · grind
    · rename_i fresh
      exact bindAt (setGlobal_fresh fresh) fun _ => pure _
  · grind

theorem fields (base : Ty) (ds : List Syntax.Declarator) (acc : List Field × Nat) :
    Does Mention (fields base ds acc) := by
  induction ds generalizing acc with
  | nil => exact pure _
  | cons d ds ih =>
    rw [Analyze.fields]
    refine bind (declaredType base d) fun ty => ?_
    grind

theorem fieldDecls (fds : List Syntax.FieldDecl) (acc : List Field × Nat) :
    Does Mention (fieldDecls fds acc) := by
  induction fds generalizing acc with
  | nil => exact pure _
  | cons fd fds ih =>
    exact bind (baseType fd.spec) fun base => bind (fields base fd.declarators acc) fun acc => ih acc

/-- The fields so far, and the slots that they take together. -/
def Laid (t : TypeTable) (acc : List Field × Nat) : Prop := t.Lays acc.1 ∧ acc.2 = t.fieldSlots acc.1

theorem Laid.mentions {a b : Analysis} {acc : List Field × Nat} (laid : Laid a.types acc) (layered : a.types.Layered)
    (h : ReflTransGen Mention a b) : Laid b.types acc := by
  refine ⟨Mentions.lays h layered laid.1, laid.2.trans (TypeTable.fieldSlots_congr fun f mem => ?_).symm⟩
  exact layered.slots_mono (fun _ _ found complete => (Mentions.completed h complete).mpr found)
    (laid.1.complete f mem)

/-- One more field behind the others. -/
theorem Laid.push {t : TypeTable} {fs : List Field} {slot : Nat} {name : String} {ty : Ty} (laid : Laid t (fs, slot))
    (complete : t.isComplete ty) (fresh : fs.any (·.name == name) = false) :
    Laid t (fs ++ [⟨name, ty, slot⟩], slot + t.slots ty) := by
  obtain ⟨lays, slots⟩ := laid
  refine ⟨⟨fun f mem => ?_, lays.placed.append ⟨?_, trivial⟩, ?_⟩, ?_⟩
  · rcases List.mem_append.mp mem with mem | mem
    · exact lays.complete f mem
    · rw [List.mem_singleton.mp mem]
      exact complete
  · exact slots.trans (Nat.zero_add _).symm
  · rw [List.map_append]
    refine List.nodup_append.mpr ⟨lays.distinct, List.nodup_cons.mpr ⟨List.not_mem_nil, .nil⟩, fun x left y right => ?_⟩
    obtain ⟨f, mem, rfl⟩ := List.mem_map.mp left
    rw [List.mem_singleton.mp right]
    intro same
    exact List.any_eq_false.mp fresh f mem (beq_iff_eq.mpr same)
  · show slot + t.slots ty = t.fieldSlots (fs ++ [⟨name, ty, slot⟩])
    rw [TypeTable.fieldSlots_append, ← slots]
    rfl

/-- The step gives fields that are laid out in the state that it leads to. -/
def Lays (m : Analyze (List Field × Nat)) (a : Analysis) : Prop := Laid (m.run a).2.types (m.run a).1

theorem Lays.bind {β : Type} {m : Analyze β} {f : β → Analyze (List Field × Nat)} {a : Analysis}
    (h : Lays (f (m.run a).1) (m.run a).2) : Lays (m >>= f) a := h

theorem fields_laid {base : Ty} (ds : List Syntax.Declarator) {acc : List Field × Nat} {a : Analysis}
    (layered : a.types.Layered) (laid : Laid a.types acc) : Lays (Analyze.fields base ds acc) a := by
  induction ds generalizing acc a with
  | nil => exact laid
  | cons d ds ih =>
    obtain ⟨before, slot⟩ := acc
    have mentions := declaredType base d a
    rw [Analyze.fields]
    refine .bind ?_
    unfold DoesAt at mentions
    generalize (Analyze.declaredType base d).run a = r at mentions
    obtain ⟨ty, b⟩ := r
    have laid := laid.mentions layered mentions
    have layered : b.types.Layered := (Mentions.layered mentions).mp layered
    dsimp only
    split
    · exact ih layered laid
    · refine .bind ?_
      show Lays (if _ then _ else _) b
      split
      · exact ih (a := { b with errors := _ }) layered laid
      · rename_i complete
        split
        · exact ih (a := { b with errors := _ }) layered laid
        · rename_i fresh
          have complete : b.types.isComplete ty = true := (Bool.not_eq_false _).mp fun h => complete (congrArg not h)
          exact ih layered (laid.push complete (Bool.eq_false_iff.mpr fresh))

theorem fieldDecls_laid (fds : List Syntax.FieldDecl) {acc : List Field × Nat} {a : Analysis}
    (layered : a.types.Layered) (laid : Laid a.types acc) :
    ((Analyze.fieldDecls fds acc).run a).2.types.Lays ((Analyze.fieldDecls fds acc).run a).1 := by
  induction fds generalizing acc a with
  | nil => exact laid.1
  | cons fd fds ih =>
    have mentions := baseType fd.spec a
    have layered' := (Mentions.layered mentions).mp layered
    have mentions' := fields ((Analyze.baseType fd.spec).run a).1 fd.declarators acc
      ((Analyze.baseType fd.spec).run a).2
    exact ih ((Mentions.layered mentions').mp layered') (fields_laid _ layered' (laid.mentions layered mentions))

theorem fieldDecls_lays (fds : List Syntax.FieldDecl) (a : Analysis)
    (layered : ((Analyze.fieldDecls fds ([], 0)).run a).2.types.Layered) :
    ((Analyze.fieldDecls fds ([], 0)).run a).2.types.Lays ((Analyze.fieldDecls fds ([], 0)).run a).1 :=
  fieldDecls_laid fds ((Mentions.layered (fieldDecls fds ([], 0) a)).mpr layered) ⟨⟨nofun, trivial, .nil⟩, rfl⟩

/-- Completes a tagged record, unless it is complete already. -/
theorem define {a : Analysis} {name : String} {id : RecordId} (span : Span)
    (decl : Option RecordId → DeclKind) (fds : List Syntax.FieldDecl)
    (tagged : a.names.tags.get? name = some (.record id)) :
    DoesAt Change (do
      if ((← MonadState.get).types.record? id).any (·.complete) then
        Analyze.report (.redefinition name) span
      else Analyze.defineRecord id ⟨name, ← Analyze.fieldDecls fds ([], 0), true⟩
      Pure.pure (decl (some id))) a := by
  have go : DoesAt Change (if (a.types.record? id).any (·.complete) then do
        Analyze.report (.redefinition name) span
        Pure.pure (decl (some id))
      else do
        let fields ← Analyze.fieldDecls fds ([], 0)
        Analyze.defineRecord id ⟨name, fields, true⟩
        Pure.pure (decl (some id))) a := by
    split
    · grind
    · rename_i h
      have incomplete : ∀ r, a.types.record? id = some r → r.complete = false := by
        intro r hr
        rw [hr] at h
        simpa using h
      have mentions := fieldDecls fds ([], 0) a
      refine (fieldDecls fds ([], 0) a).mono (fun _ _ => .mention) |>.bind ?_
      exact bindAt (defineRecord (Mentions.incomplete mentions incomplete) (Mentions.tag mentions tagged)
        (fieldDecls_lays fds a)) fun _ => pure _
  exact go

theorem recordDecl (kind : Syntax.RecordKind) (name : String)
    (fds : Option (List Syntax.FieldDecl)) (span : Span) :
    Does Change (recordDecl kind name fds span) := by
  unfold Analyze.recordDecl
  extract_lets decl complete
  have completes {a : Analysis} (id : RecordId) (tagged : a.names.tags.get? name = some (.record id)) :
      DoesAt Change (complete id) a := by
    dsimp only [complete]
    cases fds with
    | none => exact .refl
    | some fds => exact define span decl fds tagged
  refine read fun a => ?_
  split
  · rename_i id tagged
    exact completes id tagged
  · grind
  · rename_i fresh
    refine DoesAt.bind (.single (.mention (.record fresh))) (completes _ ?_)
    exact (tags_withRecord a name name).trans (if_pos rfl)

theorem enumerators (ty : Ty) (next : Int64) (vs : List Syntax.Enumerator) :
    Does Change (enumerators ty next vs) := by
  induction vs generalizing next with
  | nil => exact pure _
  | cons v vs ih =>
    have enter (value : Int64) : Does Change (do
        let a ← MonadState.get
        if a.function.isSome then Analyze.setLocal v.name (.enumConst value ty)
        else if a.names.globals.contains v.name then Analyze.report (.redefinition v.name) v.span
        else Analyze.setGlobal v.name (.enumConst value ty)
        Pure.pure ((v.name, value) :: (← Analyze.enumerators ty (value + 1) vs))) := by
      have rest (_ : PUnit) : Does Change (do
          Pure.pure ((v.name, value) :: (← Analyze.enumerators ty (value + 1) vs))) :=
        bind (ih _) fun _ => pure _
      refine read fun a => ?_
      split
      · exact bindAt (setLocal _ _ a) rest
      · split
        · exact bindAt (change_report _ _ a) rest
        · rename_i h
          refine bindAt (setGlobal_fresh ?_) rest
          simpa [NameMap.contains] using h
    rw [Analyze.enumerators]
    dsimp only
    split
    · exact enter _
    · refine bind (expr _).changes fun e => bind get fun a => ?_
      split
      · exact enter _
      · exact bind (change_report _ _) fun _ => enter _

theorem enumDecl (name : Option String) (vs : List Syntax.Enumerator) (span : Span) :
    Does Change (enumDecl name vs span) := by
  unfold Analyze.enumDecl
  cases name with
  | none => exact bind (enumerators _ _ _) fun _ => pure _
  | some tag =>
    refine read fun a => ?_
    split
    · grind
    · rename_i h
      have fresh : a.names.tags.get? tag = none := by simpa [NameMap.contains] using h
      exact bindAt (.single (.enum fresh)) fun _ => bind (enumerators _ _ _) fun _ => pure _

theorem typedefDecl (spec : Syntax.DeclSpec) (name : String) (d : Syntax.Declarator)
    (span : Span) : Does Change (typedefDecl spec name d span) := by
  unfold Analyze.typedefDecl
  refine bind (baseType spec).changes fun base => bind (declaredType base d).changes fun ty => ?_
  refine read fun a => ?_
  split
  · exact bindAt (setLocal _ _ a) fun _ => pure _
  · split
    · grind
    · grind
    · rename_i fresh
      exact bindAt (setGlobal_fresh fresh) fun _ => pure _

/-! ## Groups -/

theorem declKind (spec : Syntax.DeclSpec) (d : Syntax.Decl) : Does Change (declKind spec d) := by
  unfold Analyze.declKind
  cases d.kind with
  | var name declarator init => exact bind (varDecl _ _ _ _ _) fun _ => pure _
  | function name declarator externC => exact bind (functionHead _ _ _ _ _) fun _ => pure _
  | record kind name fds => exact recordDecl _ _ _ _
  | enum name variants => exact enumDecl _ _ _
  | typedef name declarator => exact typedefDecl _ _ _ _

theorem decls (spec : Syntax.DeclSpec) (ds : List Syntax.Decl) : Does Change (decls spec ds) := by
  induction ds with
  | nil => exact pure _
  | cons d ds ih => exact bind (declKind spec d) fun _ => bind ih fun _ => pure _

theorem declGroup (g : Syntax.DeclGroup) : Does Change (declGroup g) :=
  bind (decls g.spec g.decls) fun _ => pure _

/-! ## Statements -/

theorem condition (e : Syntax.Expr) : Does Mention (condition e) := by
  refine bind (expr e) fun e => ?_
  grind

theorem condition? (e : Option Syntax.Expr) : Does Mention (condition? e) := by
  cases e with
  | none => exact pure _
  | some e => exact map _ (condition e)

theorem expr? (e : Option Syntax.Expr) : Does Mention (expr? e) := by
  cases e with
  | none => exact pure _
  | some e => exact map _ (expr e)

theorem returned (f : FunctionContext) (value : Option Syntax.Expr) (span : Span) :
    Does Mention (returned f value span) := by
  unfold Analyze.returned
  cases value with
  | none => grind
  | some e =>
    refine bind (expr e) fun e => ite ?_ ?_
    · exact bind (checkAssignable _ _ _).mentions fun _ => pure _
    · grind

theorem forInit (init : ForInit Syntax.Expr Syntax.DeclGroup) : Does Change (forInit init) := by
  cases init with
  | none => exact pure _
  | decl node g => exact bind (declGroup g) fun _ => pure _
  | expr node e => exact bind (expr e).changes fun _ => pure _

mutual

theorem stmt (f : FunctionContext) (inLoop : Bool) :
    ∀ s : Syntax.Stmt, Does Change (stmt f inLoop s)
  | .null _ => pure _
  | .expr _ e => bind (expr e).changes fun _ => pure _
  | .decl _ g => bind (declGroup g) fun _ => pure _
  | .compound _ ss => bind (inScope _ (stmts f inLoop ss)) fun _ => pure _
  | .ifThen _ c yes => bind (condition c).changes fun _ => bind (stmt f inLoop yes) fun _ => pure _
  | .ifElse _ c yes no =>
    bind (condition c).changes fun _ => bind (stmt f inLoop yes) fun _ =>
      bind (stmt f inLoop no) fun _ => pure _
  | .while _ c body => bind (condition c).changes fun _ => bind (stmt f true body) fun _ => pure _
  | .doWhile _ body c => bind (stmt f true body) fun _ => bind (condition c).changes fun _ => pure _
  | .for _ init c step body =>
    inScope _ <| bind (forInit init) fun _ => bind (condition? c).changes fun _ =>
      bind (expr? step).changes fun _ => bind (stmt f true body) fun _ => pure _
  | .break _ => ite (bind (change_report _ _) fun _ => pure _) (pure _)
  | .continue _ => ite (bind (change_report _ _) fun _ => pure _) (pure _)
  | .return _ value => bind (returned f value _).changes fun _ => pure _

theorem stmts (f : FunctionContext) (inLoop : Bool) :
    ∀ ss : List Syntax.Stmt, Does Change (stmts f inLoop ss)
  | [] => pure _
  | s :: ss => bind (stmt f inLoop s) fun _ => bind (stmts f inLoop ss) fun _ => pure _

end

/-! ## Function definitions -/

theorem functionBody (f : FunctionDecl) (body : Syntax.Stmt) : Does Change (functionBody f body) := by
  refine bind (update fun a => .single (.function _)) fun _ => ?_
  refine bind (inScope _ (stmt _ _ body)) fun _ => bind get fun a => ?_
  exact bind (update fun a => .single (.function _)) fun _ => pure _

theorem functionDefinition (spec : Syntax.DeclSpec) (d : Syntax.Decl) (body : Syntax.Stmt) :
    Does Change (functionDefinition spec d body) := by
  unfold Analyze.functionDefinition
  split
  · refine bind (functionHead _ _ _ _ _) fun r => ite (pure _) (bind get fun a => ite ?_ ?_)
    · grind
    · exact bind (functionBody _ body) fun _ => pure _
  · exact bind (declKind spec d) fun _ => pure _

theorem topLevel (t : Syntax.TopLevel) : Does Change (topLevel t) := by
  unfold Analyze.topLevel
  dsimp only
  split
  · exact bind (decls _ _) fun _ => bind (functionDefinition _ _ _) fun _ => pure _
  · exact bind (declGroup _) fun _ => pure _

end Analyze.Does

/-- The state in which a group is analysed, before the errors and scopes are dropped. -/
theorem analyze_changes (a : Analysis) (t : Syntax.TopLevel) :
    ReflTransGen Analyze.Change { a with errors := #[] }
      ((Analyze.topLevel t).run { a with errors := #[] }).2 :=
  Analyze.Does.topLevel t _

end IncrementalC
