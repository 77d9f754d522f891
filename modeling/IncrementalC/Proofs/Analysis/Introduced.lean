import IncrementalC.Proofs.Analysis.Tame
import IncrementalC.Proofs.Lowering.InitialRoom
import IncrementalC.Proofs.Typed.EveryPart

/-!
# What the analysis takes for defined

The analysed tree of an accepted group introduces all that the analysis takes for defined from then on
(`Analysis.analyze_introduces`): the objects that its declarations define, those that block-scope declarations define, and
the function that it gives a body.

`Brings N D m`: what is in `N`, or is taken for defined behind the step `m` but not before it, is in `D` of the result.
-/
namespace IncrementalC
set_option autoImplicit false
open Relation
open Typed (Expr VarDecl FunctionDecl Decl DeclKind Stmt EveryForInit EveryStmt EveryStmts)

/-! ## Trees -/

namespace Typed

def VarDecl.Introduces (v : VarDecl) (d : Definition) : Prop :=
  v.storage = .global ∧ v.isDefinition ∧ d = .object v.linkName

def Decl.Introduces (x : Decl) (d : Definition) : Prop := ∃ v, x.kind = .var v ∧ v.Introduces d

/-- Some declaration in the statement introduces it. -/
def Stmt.Introduces (s : Stmt) (d : Definition) : Prop := ¬EveryStmt (fun _ => True) (fun x => ¬x.Introduces d) s

/-- The group introduces it outside of its body. -/
def TopLevel.Exposes (t : TopLevel) (d : Definition) : Prop :=
  (∃ x ∈ t.group.decls, x.Introduces d) ∨ ∃ f body, t.function? = some f ∧ t.body = some body ∧ d = .function f.name

/-- The group introduces it inside of its body. -/
def TopLevel.Hides (t : TopLevel) (d : Definition) : Prop := ∃ body, t.body = some body ∧ body.Introduces d

end Typed

namespace Syntax

/-- The declaration is the head of a function. -/
def Decl.Announces (x : Decl) (d : Definition) : Prop :=
  ∃ name declarator externC, x.kind = .function name declarator externC ∧ d = .function name

/-- The group defines the function that its last declaration is the head of. -/
def TopLevel.Announces (t : TopLevel) (d : Definition) : Prop :=
  t.body.isSome ∧ ∃ x, t.group.decls.getLast? = some x ∧ x.Announces d

end Syntax

/-! ## Steps -/

/-- What is defined in `b` was defined in `a` or is in `N`, if no error was found on the way. -/
structure Gains (N : Definition → Prop) (a b : Analysis) : Prop where
  errors : b.errors = #[] → a.errors = #[]
  fallback : b.fallback = a.fallback
  defined : a.fallback = none → b.errors = #[] → ∀ d, b.Defines d → a.Defines d ∨ N d

variable {N M : Definition → Prop} {a b c : Analysis}

namespace Gains

theorem refl (a : Analysis) : Gains N a a := ⟨id, rfl, fun _ _ _ => .inl⟩

theorem trans (h : Gains N a b) (h' : Gains M b c) : Gains (fun d => N d ∨ M d) a c := by
  refine ⟨fun empty => h.errors (h'.errors empty), h'.fallback.trans h.fallback, fun none empty d defined => ?_⟩
  rcases h'.defined (h.fallback.trans none) empty d defined with before | new
  · exact (h.defined none (h'.errors empty) d before).imp_right .inl
  · exact .inr (.inr new)

theorem of_tame (tame : TameBut N a b) (grows : a.Extends b) : Gains N a b :=
  ⟨grows.errors, tame.fallback, fun none _ => tame.defined none⟩

end Gains

namespace Analyze

variable {α β : Type} {D : α → Definition → Prop} {F : β → Definition → Prop}

/-- What is in `N` or was defined by the step belongs to its result. -/
structure BringsAt (N : Definition → Prop) (D : α → Definition → Prop) (m : Analyze α) (a : Analysis) : Prop where
  gains : Gains (D (m.run a).1) a (m.run a).2
  carries : (m.run a).2.errors = #[] → ∀ d, N d → D (m.run a).1 d

def Brings (N : Definition → Prop) (D : α → Definition → Prop) (m : Analyze α) : Prop := ∀ a, BringsAt N D m a

namespace Brings

theorem pure {x : α} (h : ∀ d, N d → D x d) : Brings N D (Pure.pure x) := fun a => ⟨.refl a, fun _ => h⟩

theorem bind {m : Analyze α} {f : α → Analyze β} (hm : Brings N D m) (hf : ∀ x, Brings (D x) F (f x)) :
    Brings N F (m >>= f) := by
  intro a
  obtain ⟨gains, carries⟩ := hm a
  obtain ⟨gains', carries'⟩ := hf (m.run a).1 (m.run a).2
  have both := gains.trans gains'
  refine ⟨⟨both.errors, both.fallback, fun none empty d defined => ?_⟩, fun empty d given => ?_⟩
  · exact (both.defined none empty d defined).imp_right fun new => new.elim (carries' empty d) id
  · exact carries' empty d (carries (gains'.errors empty) d given)

theorem ite {p : Prop} [Decidable p] {m m' : Analyze α} (h : p → Brings N D m) (h' : ¬p → Brings N D m') :
    Brings N D (if p then m else m') := by
  split
  · exact h ‹_›
  · exact h' ‹_›

theorem get {f : Analysis → Analyze α} (h : ∀ a, Brings N D (f a)) : Brings N D (MonadState.get >>= f) :=
  fun a => ⟨(h a a).gains, (h a a).carries⟩

/-- A step that defines nothing. -/
theorem nothing {m : Analyze α} (tame : Does (TameBut fun _ => False) m) (changes : Does Change m) :
    Brings N (fun _ => N) m := by
  intro a
  have gains := Gains.of_tame (tame_of_steps (tame a)) (Changes.extends (changes a))
  exact ⟨⟨gains.errors, gains.fallback, fun none empty d defined =>
    (gains.defined none empty d defined).imp_right False.elim⟩, fun _ _ => id⟩

/-- A step of an expression. -/
theorem mention {m : Analyze α} (hm : Does Mention m) {f : α → Analyze β} (hf : ∀ x, Brings N F (f x)) :
    Brings N F (m >>= f) :=
  (nothing hm.tame hm.changes).bind hf

/-- What an error was found in defines whatever one likes. -/
theorem report (problem : Problem) (span : Span) : Brings N (fun _ => M) (Analyze.report problem span) := by
  intro a
  have found : ((Analyze.report problem span).run a).2.errors ≠ #[] := Array.push_ne_empty
  exact ⟨⟨fun none => absurd none found, rfl, fun _ none => absurd none found⟩, fun none => absurd none found⟩

/-- A refusal. -/
theorem refuse (problem : Problem) (span : Span) (x : α) : Brings N D (do Analyze.report problem span; Pure.pure x) :=
  (report (M := D x) problem span).bind fun _ => pure fun _ => id

/-- A change of nothing but scopes and the function at hand. -/
theorem update {g : Analysis → Analysis} (same : ∀ a : Analysis, (g a).names = a.names ∧ (g a).fallback = a.fallback
    ∧ (g a).errors = a.errors) : Brings N (fun _ => N) (modify g : Analyze PUnit) := by
  intro a
  obtain ⟨names, fallback, errors⟩ := same a
  refine ⟨⟨fun none => errors ▸ none, fallback, fun _ _ d ⟨name, s, found, defined⟩ => .inl ⟨name, s, ?_, defined⟩⟩, fun _ _ => id⟩
  rw [← names]
  exact found

theorem setLocal (name : String) (s : LocalSymbol) : Brings N (fun _ => N) (Analyze.setLocal name s) := by
  refine update fun a => ?_
  split <;> exact ⟨rfl, rfl, rfl⟩

theorem inScope {scope : NameMap LocalSymbol} {m : Analyze α} (hm : Brings N D m) : Brings N D (inScope scope m) :=
  (update (g := fun a => { a with scopes := scope :: a.scopes }) fun _ => ⟨rfl, rfl, rfl⟩).bind fun _ => hm.bind fun _ =>
    (update (g := fun a => { a with scopes := a.scopes.tail }) fun _ => ⟨rfl, rfl, rfl⟩).bind fun _ => pure fun _ => id

theorem fewer {m : Analyze α} (hm : Brings M D m) (h : ∀ d, N d → M d) : Brings N D m :=
  fun a => ⟨(hm a).gains, fun empty d given => (hm a).carries empty d (h d given)⟩

/-- What came before is carried along. -/
theorem beside {m : Analyze α} (hm : Brings M D m) : Brings (fun d => N d ∨ M d) (fun x d => N d ∨ D x d) m := by
  intro a
  obtain ⟨gains, carries⟩ := hm a
  exact ⟨⟨gains.errors, gains.fallback, fun none empty d defined => (gains.defined none empty d defined).imp_right .inr⟩,
    fun empty d given => given.imp_right (carries empty d)⟩

theorem carry {m : Analyze α} (hm : Brings (fun _ => False) D m) : Brings N (fun x d => N d ∨ D x d) m :=
  hm.beside.fewer fun _ => .inl

/-! ## Objects -/

theorem localVar (isStatic : Bool) (v : VarDecl) (span : Span) :
    Brings (fun _ => False) VarDecl.Introduces (Analyze.localVar isStatic v span) := by
  refine get fun a => ite (fun _ => refuse _ _ _) fun _ => ?_
  split
  · exact pure fun _ => False.elim
  · rename_i f _
    refine ite (fun _ => ?_) fun _ => ?_
    · have enter (link : String) (image : Option (List (Nat × Constant))) : Brings (fun _ => False) VarDecl.Introduces (do
          Analyze.setLocal v.name (.var v.ty (.global link))
          return { v with storage := .static, linkName := link, constantInit := image }) :=
        (setLocal _ _).bind fun _ => pure fun _ => False.elim
      exact ite (fun _ => (report _ _).bind fun _ => enter _ _) fun _ => enter _ _
    · let taken (a : Analysis) : FunctionContext := { f with nextSlot := f.nextSlot + a.types.stride v.ty % UInt32.size }
      refine (update (g := fun a => { a with function := some (taken a) }) fun _ => ⟨rfl, rfl, rfl⟩).bind fun _ => ?_
      exact (setLocal _ _).bind fun _ => pure fun _ => False.elim

/-- The object is a global one whose link name is its own. -/
theorem gives_global (v : VarDecl) (span : Span) : Gives (Analyze.globalVar v span) fun r =>
    ∃ image, r = { v with storage := .global, linkName := v.name, constantInit := image } := by
  refine .skip fun a => .skip fun b => ?_
  dsimp only
  split
  · refine .ite ?_ (.ite ?_ ?_)
    · exact .skip fun _ => .skip fun _ => .skip fun _ => .pure ⟨_, rfl⟩
    · exact .skip fun _ => .pure ⟨_, rfl⟩
    · exact .skip fun _ => .pure ⟨_, rfl⟩
  · exact .skip fun _ => .pure ⟨_, rfl⟩
  · exact .skip fun _ => .pure ⟨_, rfl⟩

theorem globalVar (v : VarDecl) (span : Span) :
    Brings (fun _ => False) VarDecl.Introduces (Analyze.globalVar v span) := by
  intro a
  obtain ⟨image, same⟩ := gives_global v span a
  have gains := Gains.of_tame (tame_of_steps (Does.tame_globalVar v span a)) (Changes.extends (Does.globalVar v span a))
  refine ⟨⟨gains.errors, gains.fallback, fun none empty d defined => (gains.defined none empty d defined).imp_right ?_⟩,
    fun _ _ => False.elim⟩
  rintro ⟨defines, rfl⟩
  rw [same]
  exact ⟨rfl, defines, rfl⟩

theorem enterVar (storage : Syntax.Storage) (name : String) (ty : Ty) (init : Option Typed.Initializer) (span : Span) :
    Brings (fun _ => False) VarDecl.Introduces (Analyze.enterVar storage name ty init span) := by
  refine get fun a => ite (fun _ => ?_) fun _ => get fun b => ite (fun _ => localVar _ _ _) fun _ => globalVar _ _
  split
  · exact refuse _ _ _
  · exact mention (Does.typeName _) fun _ => refuse _ _ _

theorem varDecl (spec : Syntax.DeclSpec) (name : String) (d : Syntax.Declarator) (init : Option Syntax.Initializer)
    (span : Span) : Brings (fun _ => False) VarDecl.Introduces (Analyze.varDecl spec name d init span) := by
  refine ite (fun _ => ?_) fun _ => ?_
  · unfold Analyze.autoVar
    dsimp only
    split
    · exact mention (Does.expr _) fun e => ite (fun _ => refuse _ _ _) fun _ => ite (fun _ => refuse _ _ _) fun _ => enterVar _ _ _ _ _
    · exact mention (Does.expr _) fun e => ite (fun _ => refuse _ _ _) fun _ => ite (fun _ => refuse _ _ _) fun _ => enterVar _ _ _ _ _
    · exact refuse _ _ _
  · refine mention (Does.baseType spec) fun base => mention (Does.declaredType base d) fun ty => ?_
    refine ite (fun _ => pure fun _ => False.elim) fun _ => ite (fun _ => refuse _ _ _) fun _ => ?_
    cases init with
    | none => exact enterVar _ _ _ _ _
    | some init => exact mention (Does.initializer ty init) fun r => enterVar _ _ _ _ _

/-! ## Declarations -/

theorem declKind (spec : Syntax.DeclSpec) (d : Syntax.Decl) :
    Brings (fun _ => False) (fun k => (⟨k, d.span⟩ : Decl).Introduces) (Analyze.declKind spec d) := by
  obtain ⟨kind, span⟩ := d
  have other {m : Analyze DeclKind} (tame : Does (TameBut fun _ => False) m) (changes : Does Change m) :
      Brings (fun _ => False) (fun k => (⟨k, span⟩ : Decl).Introduces) m := fun a =>
    ⟨{ (nothing (N := fun _ => False) tame changes a).gains with
        defined := fun none empty d defined =>
          ((nothing (N := fun _ => False) tame changes a).gains.defined none empty d defined).imp_right False.elim },
      fun _ _ => False.elim⟩
  cases kind with
  | var name declarator init => exact (varDecl _ _ _ _ _).bind fun v => pure fun d introduced => ⟨v, rfl, introduced⟩
  | function name declarator externC =>
    refine other (Does.bind (fun a => ?_) fun _ => Does.pure _) (Does.declKind spec ⟨.function name declarator externC, span⟩)
    exact .single ((tame_of_steps (Does.tame_functionHead spec name declarator externC false a)).mono fun _ h => nomatch h.1)
  | record kind name fds => exact other (Does.tame_recordDecl _ _ _ _) (Does.declKind spec ⟨.record kind name fds, span⟩)
  | enum name variants => exact other (Does.tame_enumDecl _ _ _) (Does.declKind spec ⟨.enum name variants, span⟩)
  | typedef name declarator =>
    exact other (Does.tame_typedefDecl _ _ _ _) (Does.declKind spec ⟨.typedef name declarator, span⟩)

theorem decls (spec : Syntax.DeclSpec) (ds : List Syntax.Decl) :
    Brings (fun _ => False) (fun ds d => ∃ x ∈ ds, Decl.Introduces x d) (Analyze.decls spec ds) := by
  induction ds with
  | nil => exact pure fun _ => False.elim
  | cons d ds ih =>
    refine (declKind spec d).bind fun k => (carry ih).bind fun ds => pure fun e given => ?_
    rcases given with first | ⟨x, mem, rest⟩
    · exact ⟨_, List.mem_cons_self, first⟩
    · exact ⟨x, List.mem_cons_of_mem _ mem, rest⟩

theorem declGroup (g : Syntax.DeclGroup) :
    Brings (fun _ => False) (fun g d => ∃ x ∈ g.decls, Decl.Introduces x d) (Analyze.declGroup g) :=
  (decls g.spec g.decls).bind fun _ => pure fun _ => id

/-! ## Statements -/

theorem forInit (i : ForInit Syntax.Expr Syntax.DeclGroup) : Brings (fun _ => False)
    (fun i d => ¬EveryForInit (fun _ => True) (fun x => ¬x.Introduces d) i) (Analyze.forInit i) := by
  cases i with
  | none => exact pure fun _ => False.elim
  | decl node g => exact (declGroup g).bind fun g => pure fun d ⟨x, mem, introduced⟩ every => every x mem introduced
  | expr node e => exact mention (Does.expr e) fun e => pure fun _ => False.elim

mutual

theorem stmt (f : FunctionContext) (inLoop : Bool) : ∀ s : Syntax.Stmt,
    Brings (fun _ => False) Stmt.Introduces (Analyze.stmt f inLoop s)
  | .null _ => pure fun _ => False.elim
  | .expr _ e => mention (Does.expr e) fun _ => pure fun _ => False.elim
  | .decl _ g => (declGroup g).bind fun _ => pure fun _ ⟨x, mem, introduced⟩ every => every x mem introduced
  | .compound _ ss => (inScope (stmts f inLoop ss)).bind fun _ => pure fun _ => id
  | .ifThen _ c yes => mention (Does.condition c) fun _ => (stmt f inLoop yes).bind fun _ =>
      pure fun _ introduced every => introduced every.2
  | .ifElse _ c yes no => mention (Does.condition c) fun _ => (stmt f inLoop yes).bind fun _ =>
      (carry (stmt f inLoop no)).bind fun _ => pure fun _ introduced every =>
        introduced.elim (fun first => first every.2.1) fun second => second every.2.2
  | .while _ c body => mention (Does.condition c) fun _ => (stmt f true body).bind fun _ =>
      pure fun _ introduced every => introduced every.2
  | .doWhile _ body c => (stmt f true body).bind fun _ => mention (Does.condition c) fun _ =>
      pure fun _ introduced every => introduced every.2
  | .for _ init c step body => inScope ((forInit init).bind fun _ => mention (Does.condition? c) fun _ =>
      mention (Does.expr? step) fun _ => (carry (stmt f true body)).bind fun _ => pure fun _ introduced every =>
        introduced.elim (fun first => first every.1) fun second => second every.2.2.2)
  | .break _ => ite (fun _ => refuse _ _ _) fun _ => pure fun _ => False.elim
  | .continue _ => ite (fun _ => refuse _ _ _) fun _ => pure fun _ => False.elim
  | .return _ value => mention (Does.returned f value _) fun _ => pure fun _ => False.elim

theorem stmts (f : FunctionContext) (inLoop : Bool) : ∀ ss : List Syntax.Stmt, Brings (fun _ => False)
    (fun ss d => ¬EveryStmts (fun _ => True) (fun x => ¬x.Introduces d) ss) (Analyze.stmts f inLoop ss)
  | [] => pure fun _ => False.elim
  | s :: ss => (stmt f inLoop s).bind fun _ => (carry (stmts f inLoop ss)).bind fun _ => pure fun _ introduced every =>
      introduced.elim (fun first => first every.1) fun second => second every.2

end

/-! ## Functions and groups -/

/-- Without an error the function is entered under its name. -/
theorem functionHead_entered (spec : Syntax.DeclSpec) (name : String) (d : Syntax.Declarator) (externC hasBody : Bool) :
    Brings (fun _ => True) (fun r _ => r.2 = true ∧ r.1.name = name) (Analyze.functionHead spec name d externC hasBody) := by
  have set (s : Symbol) (f : FunctionDecl) (same : f.name = name) :
      Brings (fun _ => True) (fun r _ => r.2 = true ∧ r.1.name = name) (do
        Analyze.setGlobal name s
        return (f, true)) := by
    have set : Brings (fun _ => True) (fun _ _ => True) (Analyze.setGlobal name s) := fun a =>
      ⟨⟨id, rfl, fun _ _ _ _ => .inr trivial⟩, fun _ _ _ => trivial⟩
    exact set.bind fun _ => pure fun _ _ => ⟨rfl, same⟩
  unfold Analyze.functionHead
  refine mention (Does.baseType spec) fun base => ?_
  dsimp only
  split
  · refine mention (Does.params _ _) fun ps => get fun a => ?_
    split
    · exact ite (fun _ => refuse _ _ _) fun _ => ite (fun _ => refuse _ _ _) fun _ => set _ _ rfl
    · exact refuse _ _ _
    · exact set _ _ rfl
  · exact refuse _ _ _

theorem functionHead (spec : Syntax.DeclSpec) (name : String) (d : Syntax.Declarator) (externC : Bool) :
    Brings (fun d => d = .function name) (fun r d => r.2 = true ∧ d = .function r.1.name)
      (Analyze.functionHead spec name d externC true) := by
  intro a
  have enters (empty : ((Analyze.functionHead spec name d externC true).run a).2.errors = #[]) :=
    (functionHead_entered spec name d externC true a).carries empty (.function name) trivial
  have gains := Gains.of_tame (tame_of_steps (Does.tame_functionHead spec name d externC true a))
    (Changes.extends (Does.functionHead spec name d externC true a))
  refine ⟨⟨gains.errors, gains.fallback, fun none empty d defined => (gains.defined none empty d defined).imp_right ?_⟩, ?_⟩
  · rintro ⟨-, rfl⟩
    exact ⟨(enters empty).1, by rw [(enters empty).2]⟩
  · rintro empty d rfl
    exact ⟨(enters empty).1, by rw [(enters empty).2]⟩

theorem functionBody (f : FunctionDecl) (body : Syntax.Stmt) :
    Brings N (fun r d => N d ∧ r.1.name = f.name ∨ r.2.Introduces d) (Analyze.functionBody f body) := by
  let context : FunctionContext := { name := f.name, ret := f.ret, nextSlot := f.params.length }
  refine (update (g := fun a => { a with function := some context }) fun _ => ⟨rfl, rfl, rfl⟩).bind fun _ => ?_
  refine (carry (inScope (stmt context false body))).bind fun body => get fun a => ?_
  refine (update (g := fun a => { a with function := none }) fun _ => ⟨rfl, rfl, rfl⟩).bind fun _ => pure fun d given => ?_
  exact given.imp_left fun before => ⟨before, rfl⟩

/-- What a definition introduces, with the body if there is one. -/
def Definition.From (r : Decl × Option Stmt) (d : Definition) : Prop :=
  r.1.Introduces d ∨ ∃ body, r.2 = some body ∧ ((∃ f, r.1.kind = .function f ∧ d = .function f.name) ∨ body.Introduces d)

theorem functionDefinition (spec : Syntax.DeclSpec) (d : Syntax.Decl) (body : Syntax.Stmt) :
    Brings d.Announces Definition.From (Analyze.functionDefinition spec d body) := by
  have other (d : Syntax.Decl) (noFunction : ∀ name declarator externC, d.kind ≠ .function name declarator externC) :
      Brings d.Announces Definition.From (do
        return (⟨← Analyze.declKind spec d, d.span⟩, none) : Analyze (Decl × Option Stmt)) :=
    ((declKind spec d).fewer fun _ ⟨_, _, _, kind, _⟩ => noFunction _ _ _ kind).bind fun _ => pure fun _ => .inl
  obtain ⟨kind, span⟩ := d
  unfold Analyze.functionDefinition
  cases kind with
  | function name declarator externC =>
    have announced (e : Definition) : (⟨.function name declarator externC, span⟩ : Syntax.Decl).Announces e → e = .function name := by
      rintro ⟨_, _, _, ⟨⟩, rfl⟩
      rfl
    refine ((functionHead spec name declarator externC).fewer announced).bind fun r => ?_
    obtain ⟨f, entered⟩ := r
    refine ite (fun refused => pure fun d given => ?_) fun _ => get fun a => ite (fun _ => ?_) fun _ => ?_
    · obtain ⟨rfl, -⟩ : entered = true ∧ _ := given
      cases refused
    · exact mention (Does.typeName _) fun _ => refuse _ _ _
    · refine (functionBody f body).bind fun r => pure fun d given => .inr ⟨r.2, rfl, ?_⟩
      exact given.imp_left fun ⟨⟨_, same⟩, named⟩ => ⟨r.1, rfl, by rw [same, named]⟩
  | var name declarator init => exact other ⟨.var name declarator init, span⟩ nofun
  | record kind name fds => exact other ⟨.record kind name fds, span⟩ nofun
  | enum name variants => exact other ⟨.enum name variants, span⟩ nofun
  | typedef name declarator => exact other ⟨.typedef name declarator, span⟩ nofun

theorem topLevel (t : Syntax.TopLevel) :
    Brings t.Announces (fun t d => t.Exposes d ∨ t.Hides d) (Analyze.topLevel t) := by
  unfold Analyze.topLevel
  dsimp only
  split
  · rename_i body last given ends
    have announced (d : Definition) : t.Announces d → last.Announces d ∨ False := by
      rintro ⟨-, x, same, announces⟩
      cases ends.symm.trans same
      exact .inl announces
    refine ((beside (decls _ _)).fewer announced).bind fun before => ?_
    refine ((functionDefinition _ _ _).beside.fewer fun _ => Or.symm).bind fun r => pure fun d given => ?_
    rcases given with ⟨x, mem, first⟩ | last | ⟨body, some_, ⟨f, kind, same⟩ | inner⟩
    · exact .inl (.inl ⟨x, List.mem_append_left _ mem, first⟩)
    · exact .inl (.inl ⟨r.1, List.mem_append_right _ List.mem_cons_self, last⟩)
    · refine .inl (.inr ⟨f, body, ?_, some_, same⟩)
      unfold Typed.TopLevel.function?
      rw [show r.2 = some body from some_, List.getLast?_concat]
      simp only [Option.bind_eq_bind, Option.bind_some]
      rw [kind]
    · exact .inr ⟨body, some_, inner⟩
  · rename_i none
    refine ((declGroup _).fewer fun d announced => ?_).bind fun g => pure fun d given => .inl (.inl given)
    obtain ⟨given, x, ends, -⟩ := announced
    obtain ⟨body, given⟩ := Option.isSome_iff_exists.mp given
    exact none body x given ends

end Brings

end Analyze

/-- The analysis of a group leaves the fallback as it is. -/
theorem Analysis.analyze_fallback (a : Analysis) (t : Syntax.TopLevel) : (a.analyze t).2.fallback = a.fallback :=
  (Analyze.Brings.topLevel t { a with errors := #[] }).gains.fallback

/-- What an accepted group makes the analysis take for defined is introduced by its tree. -/
theorem Analysis.analyze_introduces {a : Analysis} (noFallback : a.fallback = none) {t : Syntax.TopLevel} {t' : Typed.TopLevel}
    (accepted : (a.analyze t).1 = .ok t') {d : Definition} (defined : (a.analyze t).2.Defines d) :
    a.Defines d ∨ t'.Exposes d ∨ t'.Hides d := by
  obtain ⟨b, run, empty, behind⟩ := Analysis.analyze_ok accepted
  have gains := (Analyze.Brings.topLevel t { a with errors := #[] }).gains
  rw [run] at gains
  rw [behind] at defined
  exact gains.defined noFallback empty d defined

/-- No body hides a function. -/
theorem Typed.TopLevel.not_hides_function (t : Typed.TopLevel) (name : String) : ¬t.Hides (.function name) := by
  rintro ⟨body, -, introduces⟩
  exact introduces (Typed.everyStmt_of_all (fun _ => trivial) (fun x ⟨_, _, _, _, same⟩ => nomatch same) body)

/-- The function that an accepted group defines is in its tree, with its body. -/
theorem Analysis.analyze_exposes {a : Analysis} {t : Syntax.TopLevel} {t' : Typed.TopLevel} (accepted : (a.analyze t).1 = .ok t')
    {name : String} (announced : t.Announces (.function name)) : t'.Exposes (.function name) := by
  obtain ⟨b, run, empty, -⟩ := Analysis.analyze_ok accepted
  have brings := Analyze.Brings.topLevel t { a with errors := #[] }
  have carries := brings.carries
  rw [run] at carries
  exact (carries empty _ announced).resolve_right (t'.not_hides_function name)

/-- A group without a body has none when it is analysed. -/
theorem Analysis.analyze_bodiless {a : Analysis} {t : Syntax.TopLevel} {t' : Typed.TopLevel} (accepted : (a.analyze t).1 = .ok t')
    (bodiless : t.body = none) : t'.body = none := by
  obtain ⟨b, run, -, -⟩ := Analysis.analyze_ok accepted
  have group : Analyze.topLevel t = (do return { group := ← Analyze.declGroup t.group }) := by
    unfold Analyze.topLevel
    rw [bodiless]
  rw [group] at run
  cases run
  rfl

end IncrementalC
