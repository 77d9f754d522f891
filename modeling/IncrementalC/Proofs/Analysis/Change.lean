import IncrementalC.Analysis.Expression
import IncrementalC.Analysis.State
import IncrementalC.Proofs.Types.Layered
import Mathlib.Logic.Relation

/-!
# The changes that an analysis makes

* `Report`: an error was found.
* `Mention`: what the analysis of an expression or of a type name can do to the state.
* `Change`: what the analysis of a declaration or of a statement can do to it.
* `Does R m`: whatever the state, the step `m` is a sequence of changes in `R`.
* `Gives m Q`: whatever the state, the result of the step `m` satisfies `Q`.

What holds of all changes is shown of one change and follows for every analysis. Typing rules only find errors. Names
that are met for the first time may declare records and objects, so an expression as a whole is a sequence of `Mention`s.
-/
namespace IncrementalC.Analyze
set_option autoImplicit false
open Typed Relation

/-! ## Single changes -/

inductive Report : Analysis → Analysis → Prop where
  | error {a : Analysis} (e : AnalysisError) : Report a { a with errors := a.errors.push e }

/-- The state with a new record without fields, declared under `name`. -/
def withRecord (a : Analysis) (name : String) : Analysis := ((newRecord name).run a).2

/-- The state with an object made up for a value that the fallback knows. -/
def withValue (a : Analysis) (name : String) (ty : Ty) (value : Constant) (span : Span) :
    Analysis :=
  ((bindValue name ty value span).run a).2

inductive Mention : Analysis → Analysis → Prop where
  | report {a b : Analysis} (h : Report a b) : Mention a b
  | record {a : Analysis} {name : String} (fresh : a.names.tags.get? name = none) :
      Mention a (withRecord a name)
  | value {a : Analysis} {name : String} {ty : Ty} {value : Constant} {span : Span}
      (fresh : a.names.globals.get? name = none)
      (known : a.fallback.bind (·.lookup? name) = some (.bind ty value)) :
      Mention a (withValue a name ty value span)

/-- A global name keeps what it stands for: an object its type, a function its signature. -/
inductive Redeclares : Symbol → Symbol → Prop where
  | var {ty : Ty} {link link' : String} {defined defined' : Bool} :
      Redeclares (.var ty link defined) (.var ty link' defined')
  | function {sig : FunctionSig} {defined defined' : Bool} :
      Redeclares (.function sig defined) (.function sig defined')

inductive Change : Analysis → Analysis → Prop where
  | mention {a b : Analysis} (h : Mention a b) : Change a b
  | global {a : Analysis} {name : String} {s : Symbol}
      (agrees : ∀ old, a.names.globals.get? name = some old → Redeclares old s) :
      Change a ((setGlobal name s).run a).2
  | enum {a : Analysis} {name : String} (fresh : a.names.tags.get? name = none) :
      Change a ((setTag name .enum).run a).2
  | complete {a : Analysis} {id : RecordId} {old : RecordDef} {name : String}
      {fields : List Field} (present : a.types.record? id = some old)
      (incomplete : old.complete = false) (tagged : a.names.tags.get? name = some (.record id))
      (lays : a.types.Layered → a.types.Lays fields) :
      Change a ((defineRecord id ⟨name, fields, true⟩).run a).2
  | scopes {a : Analysis} (scopes : List (NameMap LocalSymbol)) : Change a { a with scopes }
  | function {a : Analysis} (function : Option FunctionContext) : Change a { a with function }

theorem run_defineRecord (id : RecordId) (r : RecordDef) (a : Analysis) :
    ((defineRecord id r).run a).2 = match a.types.record? id with
      | some old =>
        { a with
          names := { a.names with types := a.types.set id r }
          journal := .record id old :: a.journal }
      | none => a :=
  rfl

theorem run_setLocal (name : String) (s : LocalSymbol) (a : Analysis) :
    ((setLocal name s).run a).2 = match a.scopes with
      | scope :: scopes => { a with scopes := scope.insert name s :: scopes }
      | [] => a :=
  rfl

/-! ## What a mention keeps -/

section

variable {a b : Analysis}

theorem tags_withRecord (a : Analysis) (name other : String) :
    (withRecord a name).names.tags.get? other
      = if other = name then some (.record a.types.size) else a.names.tags.get? other :=
  NameMap.get?_insert _ _ _ _

theorem record?_withRecord (a : Analysis) (name : String) (id : RecordId) :
    (withRecord a name).types.record? id
      = if id = a.types.size then some ⟨name, [], false⟩ else a.types.record? id :=
  Array.getElem?_push

theorem Mention.tag (h : Mention a b) {name : String} {t : Tag}
    (ht : a.names.tags.get? name = some t) : b.names.tags.get? name = some t := by
  cases h with
  | report h => cases h; exact ht
  | record fresh =>
    rw [tags_withRecord]
    split
    · rename_i same
      rw [same, fresh] at ht
      cases ht
    · exact ht
  | value _ _ => exact ht

theorem Mention.incomplete (h : Mention a b) {id : RecordId}
    (hid : ∀ r, a.types.record? id = some r → r.complete = false) :
    ∀ r, b.types.record? id = some r → r.complete = false := by
  cases h with
  | report h => cases h; exact hid
  | record _ =>
    intro r hr
    rw [record?_withRecord] at hr
    split at hr
    · cases hr; rfl
    · exact hid r hr
  | value _ _ => exact hid

theorem Mention.completed (h : Mention a b) {id : RecordId} {r : RecordDef} (complete : r.complete) :
    b.types.record? id = some r ↔ a.types.record? id = some r := by
  cases h with
  | report h => cases h; exact .rfl
  | record _ =>
    rw [record?_withRecord]
    split
    · rename_i same
      refine ⟨fun found => ?_, fun found => ?_⟩
      · cases found
        cases complete
      · exact absurd (Array.getElem?_eq_some_iff.mp found).1 (Nat.not_lt_of_le (Nat.le_of_eq same.symm))
    · exact .rfl
  | value _ _ => exact .rfl

theorem Mentions.completed (h : ReflTransGen Mention a b) {id : RecordId} {r : RecordDef} (complete : r.complete) :
    b.types.record? id = some r ↔ a.types.record? id = some r := by
  induction h with
  | refl => exact .rfl
  | tail _ h ih => exact (h.completed complete).trans ih

/-- A record that is only mentioned is not complete, so the order of the complete ones stays as it is. -/
theorem Mentions.layered (h : ReflTransGen Mention a b) : a.types.Layered ↔ b.types.Layered :=
  ⟨fun layered => layered.mono (fun _ _ found complete => (Mentions.completed h complete).mpr found)
      fun _ _ found complete => (Mentions.completed h complete).mp found,
    fun layered => layered.mono (fun _ _ found complete => (Mentions.completed h complete).mp found)
      fun _ _ found complete => (Mentions.completed h complete).mpr found⟩

theorem Mentions.lays (h : ReflTransGen Mention a b) (layered : a.types.Layered) {fs : List Field}
    (lays : a.types.Lays fs) : b.types.Lays fs :=
  layered.lays_mono (fun _ _ found complete => (Mentions.completed h complete).mpr found) lays

theorem Mentions.tag (h : ReflTransGen Mention a b) {name : String} {t : Tag}
    (ht : a.names.tags.get? name = some t) : b.names.tags.get? name = some t := by
  induction h with
  | refl => exact ht
  | tail _ h ih => exact h.tag ih

theorem Mentions.incomplete (h : ReflTransGen Mention a b) {id : RecordId}
    (hid : ∀ r, a.types.record? id = some r → r.complete = false) :
    ∀ r, b.types.record? id = some r → r.complete = false := by
  induction h with
  | refl => exact hid
  | tail _ h ih => exact h.incomplete ih

end

/-! ## Steps -/

variable {α β : Type} {R S : Analysis → Analysis → Prop}

/-- The step is a sequence of changes in `R` from the state `a`. -/
def DoesAt (R : Analysis → Analysis → Prop) (m : Analyze α) (a : Analysis) : Prop :=
  ReflTransGen R a (m.run a).2

def Does (R : Analysis → Analysis → Prop) (m : Analyze α) : Prop := ∀ a, DoesAt R m a

theorem DoesAt.bind {m : Analyze α} {f : α → Analyze β} {a : Analysis} (hm : DoesAt R m a)
    (hf : DoesAt R (f (m.run a).1) (m.run a).2) : DoesAt R (m >>= f) a :=
  ReflTransGen.trans hm hf

/-- A step that goes on with the state as it is. -/
theorem DoesAt.read {f : Analysis → Analyze β} {a : Analysis} (hf : DoesAt R (f a) a) :
    DoesAt R (MonadState.get >>= f) a :=
  bind ReflTransGen.refl hf

theorem DoesAt.mono {m : Analyze α} {a : Analysis} (hm : DoesAt R m a)
    (h : ∀ a b, R a b → S a b) : DoesAt S m a :=
  ReflTransGen.mono h _ _ hm

namespace Does

theorem mono {m : Analyze α} (hm : Does R m) (h : ∀ a b, R a b → S a b) : Does S m :=
  fun a => (hm a).mono h

@[grind .]
theorem pure (x : α) : Does R (Pure.pure x : Analyze α) := fun _ => ReflTransGen.refl

@[grind .]
theorem get : Does R (MonadState.get : Analyze Analysis) := fun _ => ReflTransGen.refl

@[grind .]
theorem typeName (ty : Ty) : Does R (typeName ty) := fun _ => ReflTransGen.refl

@[grind .]
theorem here {m : Analyze α} (hm : Does R m) (a : Analysis) : DoesAt R m a := hm a

@[grind .]
theorem bind {m : Analyze α} {f : α → Analyze β} (hm : Does R m) (hf : ∀ x, Does R (f x)) :
    Does R (m >>= f) :=
  fun a => (hm a).bind (hf _ _)

theorem bindAt {m : Analyze α} {f : α → Analyze β} {a : Analysis} (hm : DoesAt R m a)
    (hf : ∀ x, Does R (f x)) : DoesAt R (m >>= f) a :=
  hm.bind (hf _ _)

theorem read {f : Analysis → Analyze β} (hf : ∀ a, DoesAt R (f a) a) : Does R (MonadState.get >>= f) :=
  fun a => DoesAt.read (hf a)

theorem ite {c : Prop} [Decidable c] {m m' : Analyze α} (h : Does R m) (h' : Does R m') :
    Does R (if c then m else m') := by
  split
  · exact h
  · exact h'

theorem map {m : Analyze α} (f : α → β) (hm : Does R m) : Does R (f <$> m) :=
  fun a => hm a

theorem forIn {l : List α} {f : α → Analyze (ForInStep PUnit)} (hf : ∀ x, Does R (f x)) :
    Does R (ForIn.forIn l PUnit.unit fun x _ => f x) := by
  induction l with
  | nil => exact pure _
  | cons x l ih =>
    rw [List.forIn_cons]
    refine bind (hf x) fun r => ?_
    cases r with
    | done _ => exact pure _
    | yield _ => exact ih

/-! ## Primitive steps -/

@[grind .]
theorem report (problem : Problem) (span : Span) : Does Report (report problem span) :=
  fun _ => .single (.error _)

@[grind .]
theorem fail (problem : Problem) (span : Span) : Does Report (fail problem span) :=
  bind (report problem span) fun _ => pure _

/-- A step that only finds errors. -/
theorem mentions {m : Analyze α} (hm : Does Report m) : Does Mention m := hm.mono fun _ _ => .report

/-- A step that does what an expression can do. -/
theorem changes {m : Analyze α} (hm : Does Mention m) : Does Change m := hm.mono fun _ _ => .mention

@[grind .]
theorem mention_report (problem : Problem) (span : Span) :
    Does Mention (Analyze.report problem span) := (report problem span).mentions

@[grind .]
theorem mention_fail (problem : Problem) (span : Span) :
    Does Mention (Analyze.fail problem span) := (fail problem span).mentions

@[grind .]
theorem change_report (problem : Problem) (span : Span) :
    Does Change (Analyze.report problem span) := (mention_report problem span).changes

theorem update {g : Analysis → Analysis} (hg : ∀ a, ReflTransGen R a (g a)) :
    Does R (modify g) := hg

theorem setLocal (name : String) (s : LocalSymbol) : Does Change (setLocal name s) := by
  refine update fun a => ?_
  split
  · exact .single (.scopes _)
  · exact .refl

/-- Opening and closing a scope are changes, so a step may run inside one. -/
theorem inScope {m : Analyze α} (scope : NameMap LocalSymbol) (hm : Does Change m) :
    Does Change (inScope scope m) := by
  have opens : Does Change (modify fun a : Analysis => { a with scopes := scope :: a.scopes }) :=
    update fun a => .single (.scopes _)
  have closes : Does Change (modify fun a : Analysis => { a with scopes := a.scopes.tail }) :=
    update fun a => .single (.scopes _)
  exact bind opens fun _ => bind hm fun x => bind closes fun _ => pure x

/-- A name of its own, or one that agrees with its declarations so far. -/
theorem setGlobal {name : String} {s : Symbol} {a : Analysis}
    (agrees : ∀ old, a.names.globals.get? name = some old → Redeclares old s) :
    DoesAt Change (setGlobal name s) a :=
  .single (.global agrees)

theorem setGlobal_fresh {name : String} {s : Symbol} {a : Analysis}
    (fresh : a.names.globals.get? name = none) : DoesAt Change (Analyze.setGlobal name s) a :=
  setGlobal fun old h => by rw [fresh] at h; cases h

/-- A record under whose name it is tagged. -/
theorem defineRecord {id : RecordId} {name : String} {fields : List Field} {a : Analysis}
    (incomplete : ∀ r, a.types.record? id = some r → r.complete = false)
    (tagged : a.names.tags.get? name = some (.record id)) (lays : a.types.Layered → a.types.Lays fields) :
    DoesAt Change (defineRecord id ⟨name, fields, true⟩) a := by
  cases present : a.types.record? id with
  | some old => exact .single (.complete present (incomplete old present) tagged lays)
  | none =>
    rw [DoesAt, run_defineRecord, present]

/-- Asking the fallback about a name that nobody declared may declare an object. -/
theorem recover {name : String} {span : Span} {a : Analysis}
    (fresh : a.names.globals.get? name = none) : DoesAt Mention (recover? name span) a := by
  refine DoesAt.read ?_
  split
  · exact .refl
  · exact .refl
  · rename_i ty value known
    exact .single (.value fresh known)

end Does

/-! ## Results -/

/-- Whatever state it begins in, the step gives something that satisfies `Q`. -/
def Gives {α : Type} (m : Analyze α) (Q : α → Prop) : Prop := ∀ a, Q (m.run a).1

namespace Gives

variable {α β : Type} {m : Analyze α} {Q : β → Prop}

theorem pure {x : β} (h : Q x) : Gives (Pure.pure x) Q := fun _ => h

theorem bind {P : α → Prop} {f : α → Analyze β} (hm : Gives m P) (hf : ∀ x, P x → Gives (f x) Q) :
    Gives (m >>= f) Q :=
  fun a => hf (m.run a).1 (hm a) (m.run a).2

theorem skip {f : α → Analyze β} (hf : ∀ x, Gives (f x) Q) : Gives (m >>= f) Q :=
  fun a => hf (m.run a).1 (m.run a).2

theorem ite {c : Prop} [Decidable c] {m m' : Analyze β} (h : Gives m Q) (h' : Gives m' Q) :
    Gives (if c then m else m') Q := by
  split
  · exact h
  · exact h'

theorem inScope {scope : NameMap LocalSymbol} {m : Analyze β} (hm : Gives m Q) : Gives (inScope scope m) Q :=
  skip fun _ => bind hm fun _ hx => skip fun _ => pure hx

end Gives

end IncrementalC.Analyze

namespace IncrementalC.Analyze
set_option autoImplicit false
open Typed (Expr Binding)
open Relation

/-! ## Typing rules -/

namespace Does

theorem checkAssignable (target : Ty) (e : Expr) (use : Use) :
    Does Report (checkAssignable target e use) := by
  unfold Analyze.checkAssignable
  grind

theorem sizeofType (ty : Ty) (span : Span) : Does Report (sizeofType ty span) := by
  unfold Analyze.sizeofType
  grind

theorem sizeofExprType (e : Expr) (span : Span) : Does Report (sizeofExprType e span) := by
  unfold Analyze.sizeofExprType
  exact ite (fail _ _) (sizeofType _ _)

theorem unaryType (op : UnaryOp) (e : Expr) (span : Span) : Does Report (unaryType op e span) := by
  unfold Analyze.unaryType
  grind

theorem binaryType (op : BinaryOp) (a b : Expr) (span : Span) :
    Does Report (binaryType op a b span) := by
  unfold Analyze.binaryType
  refine ite (pure _) (ite ?_ (ite ?_ (ite ?_ ?_)))
  · grind
  · grind
  · grind
  · cases op <;> grind

theorem assignType (op : Option BinaryOp) (a b : Expr) (span : Span) :
    Does Report (assignType op a b span) := by
  unfold Analyze.assignType
  refine ite (pure _) (ite (fail _ _) (ite ?_ ?_))
  · grind
  · cases op with
    | some op => exact bind (binaryType op a b span) fun _ => pure _
    | none => exact bind (checkAssignable a.ty b .assigning) fun _ => pure _

theorem conditionalType (c a b : Expr) (span : Span) :
    Does Report (conditionalType c a b span) := by
  unfold Analyze.conditionalType
  refine bind get fun _ => ite (pure _) (ite (fail _ _) (ite (pure _) ?_))
  grind

theorem indexType (base index : Expr) (span : Span) : Does Report (indexType base index span) := by
  unfold Analyze.indexType
  grind

theorem fieldType (record : Ty) (field : String) (span : Span) :
    Does Report (fieldType record field span) := by
  unfold Analyze.fieldType
  grind

theorem memberType (base : Expr) (field : String) (arrow : Bool) (span : Span) :
    Does Report (memberType base field arrow span) := by
  unfold Analyze.memberType
  grind [fieldType]

theorem castType (target : Ty) (e : Expr) (span : Span) : Does Report (castType target e span) := by
  unfold Analyze.castType
  grind

theorem checkCall (name : String) (sig : FunctionSig) (args : List Expr) (span : Span) :
    Does Report (checkCall name sig args span) := by
  unfold Analyze.checkCall
  refine ite ?_ (ite ?_ ?_)
  · grind
  · grind
  · have params : ∀ x : Ty × Expr, Does Report (do
        Analyze.checkAssignable x.1 x.2 .passing
        Pure.pure (ForInStep.yield PUnit.unit)) :=
      fun x => bind (checkAssignable x.1 x.2 .passing) fun _ => pure _
    refine bind (forIn params) fun _ => bind (forIn fun arg => ?_) fun _ => pure _
    grind

theorem checkHook (name : String) (b : Builtin) (args : List Expr) (span : Span) :
    Does Report (checkHook name b args span) := by
  unfold Analyze.checkHook
  grind

theorem callType (name : String) (callee : Callee) (args : List Expr) (span : Span) :
    Does Report (callType name callee args span) := by
  unfold Analyze.callType
  grind [checkCall, checkHook]

/-! ## Names -/

theorem identType (name : String) (span : Span) : Does Mention (identType name span) := by
  refine read fun a => ?_
  split
  · grind
  · grind
  · grind
  · split
    · grind
    · grind
    · grind
    · grind
    · rename_i fresh
      split
      · grind
      · refine bindAt (recover fresh) fun found => ?_
        grind

theorem resolveCallee (name : String) (span : Span) : Does Mention (resolveCallee name span) := by
  have notFunction (ty : Ty) : Does Mention (α := Binding × Callee) (do
      Analyze.report (.calledType (← Analyze.typeName ty)) span
      Pure.pure (.unresolved, .dependent)) := by
    grind
  refine read fun a => ?_
  dsimp only
  split
  · grind
  · grind
  · grind
  · split
    · grind
    · grind
    · grind
    · grind
    · rename_i fresh
      split
      · grind
      · refine bindAt (recover fresh) fun found => ?_
        split
        · grind
        · exact notFunction _
        · grind

theorem baseType (spec : Syntax.DeclSpec) : Does Mention (baseType spec) := by
  unfold Analyze.baseType
  split
  case h_8 kind name =>
    refine read fun a => ?_
    split
    · grind
    · grind
    · rename_i fresh
      exact bindAt (.single (.record fresh)) fun id => pure _
  all_goals grind

theorem arrayLength? (e : Expr) : Does Report (arrayLength? e) := by
  unfold Analyze.arrayLength?
  grind

/-! ## Expressions and type names -/

mutual

theorem expr : ∀ e : Syntax.Expr, Does Mention (expr e)
  | .int .. | .float .. | .char .. | .str .. | .bool .. | .null .. => pure _
  | .ident _ name => bind (identType name _) fun _ => pure _
  | .unary _ op e => bind (expr e) fun e => bind (unaryType op e _).mentions fun _ => pure _
  | .binary _ op a b =>
    bind (expr a) fun a => bind (expr b) fun b => bind (binaryType op a b _).mentions fun _ => pure _
  | .assign _ op a b =>
    bind (expr a) fun a => bind (expr b) fun b => bind (assignType op a b _).mentions fun _ => pure _
  | .conditional _ c a b =>
    bind (expr c) fun c => bind (expr a) fun a => bind (expr b) fun b =>
      bind (conditionalType c a b _).mentions fun _ => pure _
  | .call _ callee args => by
    have hcallee := expr callee
    have hargs := exprs args
    cases callee with
    | ident s name =>
      exact bind (resolveCallee name s) fun r => bind hargs fun args =>
        bind (callType name r.2 args _).mentions fun _ => pure _
    | _ =>
      exact bind hcallee fun _ => bind hargs fun _ => bind (mention_fail _ _) fun _ => pure _
  | .index _ base index =>
    bind (expr base) fun b => bind (expr index) fun i => bind (indexType b i _).mentions fun _ => pure _
  | .member _ base field arrow =>
    bind (expr base) fun b => bind (memberType b field arrow _).mentions fun _ => pure _
  | .cast _ spec d e =>
    bind (baseType spec) fun base => bind (declaredType base d) fun target =>
      bind (expr e) fun e => bind (castType target e _).mentions fun _ => pure _
  | .sizeofType _ spec d =>
    bind (baseType spec) fun base => bind (declaredType base d) fun target =>
      bind (sizeofType target _).mentions fun _ => pure _
  | .sizeofExpr _ e => bind (expr e) fun e => bind (sizeofExprType e _).mentions fun _ => pure _
  | .comma _ a b => bind (expr a) fun _ => bind (expr b) fun _ => pure _

theorem exprs : ∀ es : List Syntax.Expr, Does Mention (exprs es)
  | [] => pure _
  | e :: es => bind (expr e) fun _ => bind (exprs es) fun _ => pure _

theorem declaredType (base : Ty) : ∀ d : Syntax.Declarator, Does Mention (declaredType base d)
  | .mk _ n suffixes _ => bind (suffixedType (pointers n base) _ suffixes) fun _ => pure _

theorem suffixedType (base : Ty) (span : Span) :
    ∀ suffixes : List Syntax.Suffix, Does Mention (suffixedType base span suffixes)
  | [] => pure _
  | s :: rest => by
    rw [Analyze.suffixedType]
    refine bind (suffixedType base span rest) fun ty => ?_
    cases ty with
    | none => exact pure _
    | some ty =>
      cases s with
      | unsized => exact pure _
      | sized size =>
        exact bind (expr size) fun size => bind (arrayLength? size).mentions fun _ => pure _
      | function ps variadic => exact bind (mention_report _ _) fun _ => pure _

end

end Does

end IncrementalC.Analyze
