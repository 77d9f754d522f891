import IncrementalC.Proofs.Analysis.PlacedBody
import IncrementalC.Proofs.Storage.Objects

/-!
# The names that objects are linked under

An object at file scope is linked under its own name, a static object under a name that is put together from the function that
it is declared in and its own name (`Analysis.analyze_linkNames`). The blocks that are around it are not part of the name, and
two pairs of names can be put together to the same one (`linkNameIn_static`).
-/
namespace IncrementalC
set_option autoImplicit false
open Relation
open Typed (Expr Initializer VarDecl FunctionDecl Decl DeclKind EveryStmt EveryStmts EveryForInit)

/-! ## Names -/

/-- The name that an object is linked under, by the function that it is declared in. -/
def linkNameIn : Option String → String → String
  | none, x => x
  | some f, x => s!"__cinder_static_{f}_{x}"

/-- The same name comes of both pairs of names. Either they are the same, or one of the functions has the name of the other
one and then a part of a name that the object of the other one goes on with. -/
inductive SameTail (f x g y : String) : Prop where
  | same (function : f = g) (object : x = y)
  | left (w : String) (function : g = f ++ "_" ++ w) (object : x = w ++ "_" ++ y)
  | right (w : String) (function : f = g ++ "_" ++ w) (object : y = w ++ "_" ++ x)

theorem toList_linkNameIn (f x : String) :
    (linkNameIn (some f) x).toList = "__cinder_static_".toList ++ (f.toList ++ '_' :: x.toList) := by
  unfold linkNameIn
  simp only [toString, String.toList_append, List.append_assoc]
  rfl

theorem toList_joined (w x : String) : (w ++ "_" ++ x).toList = w.toList ++ '_' :: x.toList := by
  rw [String.toList_append, String.toList_append, List.append_assoc]
  rfl

/-- Two words with a mark behind each of them are the same in front of a mark, or one goes on behind the mark of the other. -/
theorem joined_eq_joined {α : Type} {mark : α} {f x g y : List α} :
    f ++ mark :: x = g ++ mark :: y ↔
      (f = g ∧ x = y) ∨ (∃ w, g = f ++ mark :: w ∧ x = w ++ mark :: y) ∨ ∃ w, f = g ++ mark :: w ∧ y = w ++ mark :: x := by
  constructor
  · intro same
    obtain ⟨w, rfl, rest⟩ | ⟨w, rfl, rest⟩ := List.append_eq_append_iff.mp same
    · cases w with
      | nil =>
        cases rest
        exact .inl ⟨(List.append_nil f).symm, rfl⟩
      | cons c w =>
        cases rest
        exact .inr (.inl ⟨w, rfl, rfl⟩)
    · cases w with
      | nil =>
        cases rest
        exact .inl ⟨List.append_nil g, rfl⟩
      | cons c w =>
        cases rest
        exact .inr (.inr ⟨w, rfl, rfl⟩)
  · rintro (⟨rfl, rfl⟩ | ⟨w, rfl, rfl⟩ | ⟨w, rfl, rfl⟩)
    · rfl
    · simp
    · simp

/-- When two static objects are linked under the same name. -/
theorem linkNameIn_static {f x g y : String} : linkNameIn (some f) x = linkNameIn (some g) y ↔ SameTail f x g y := by
  have lists : linkNameIn (some f) x = linkNameIn (some g) y ↔ f.toList ++ '_' :: x.toList = g.toList ++ '_' :: y.toList := by
    rw [← String.toList_inj, toList_linkNameIn, toList_linkNameIn, List.append_right_inj]
  have word (s : List Char) : s = (String.ofList s).toList := String.toList_ofList.symm
  rw [lists, joined_eq_joined]
  constructor
  · rintro (⟨function, object⟩ | ⟨w, function, object⟩ | ⟨w, function, object⟩)
    · exact .same (String.toList_inj.mp function) (String.toList_inj.mp object)
    · refine .left (String.ofList w) (String.toList_inj.mp ?_) (String.toList_inj.mp ?_)
      · rw [toList_joined, ← word, function]
      · rw [toList_joined, ← word, object]
    · refine .right (String.ofList w) (String.toList_inj.mp ?_) (String.toList_inj.mp ?_)
      · rw [toList_joined, ← word, function]
      · rw [toList_joined, ← word, object]
  · rintro (⟨rfl, rfl⟩ | ⟨w, rfl, rfl⟩ | ⟨w, rfl, rfl⟩)
    · exact .inl ⟨rfl, rfl⟩
    · exact .inr (.inl ⟨w.toList, toList_joined _ _, toList_joined _ _⟩)
    · exact .inr (.inr ⟨w.toList, toList_joined _ _, toList_joined _ _⟩)

example : SameTail "a_b" "c" "a" "b_c" := .right "b" rfl rfl

/-! ## Analysed declarations -/

/-- The function that is looked at. -/
def Analysis.owner (a : Analysis) : Option String := a.function.map (·.name)

/-- The object has the link name that is due to it. -/
structure Typed.VarDecl.NamedIn (owner : Option String) (v : VarDecl) : Prop where
  global : v.storage = .global → v.linkName = v.name
  inner : v.storage ≠ .global → owner.isSome
  static : v.storage = .static → v.linkName = linkNameIn owner v.name ∧ v.constantInit.isSome

def Typed.Decl.NamedIn (owner : Option String) (d : Decl) : Prop := ∀ v, d.kind = .var v → v.NamedIn owner

/-- The step from `a` to `b` goes on with the same function, and what is named by it has that of its names. -/
def NamesAt (a b : Analysis) (named : Option String → Prop) : Prop := b.owner = a.owner ∧ named a.owner

variable {P : Prop} {a b c : Analysis} {named named' : Option String → Prop}

theorem NamesAt.trans (h : NamesAt a b named) (h' : NamesAt b c named') : NamesAt a c fun o => named o ∧ named' o :=
  ⟨h'.1.trans h.1, h.2, h.1 ▸ h'.2⟩

theorem NamesAt.mono (h : NamesAt a b named) (hn : ∀ o, named o → named' o) : NamesAt a b named' := ⟨h.1, hn _ h.2⟩

namespace Analyze.MeetsAt

theorem owner_of_mention {α : Type} {m : Analyze α} (does : Does Mention m) : (m.run a).2.owner = a.owner :=
  congrArg (Option.map _) (Mentions.tame (does a)).function

/-- A step that names nothing behind a step of an expression. -/
theorem names {α : Type} {m : Analyze α} {Post : Analysis → α → Prop} (hm : MeetsAt P a m Post) (does : Does Mention m) :
    MeetsAt P a m fun b _ => NamesAt a b fun _ => True := hm.also ⟨owner_of_mention does, trivial⟩

/-- A step behind one of an expression. -/
theorem behind {α β : Type} {m : Analyze α} {f : α → Analyze β} {M : Analysis → α → Prop} {named : β → Option String → Prop}
    (does : Does Mention m) (hm : MeetsAt P a m M)
    (hf : ∀ x b, MeetsAt (P ∧ a.Extends b ∧ M b x) b (f x) fun c y => NamesAt b c (named y)) :
    MeetsAt P a (m >>= f) fun c y => NamesAt a c (named y) := by
  have same : (m.run a).2.owner = a.owner := owner_of_mention does
  refine (andThen hm (hf _ _)).mono fun c y _ _ _ _ names => ?_
  exact ⟨names.1.trans same, same ▸ names.2⟩

/-! ## Objects -/

theorem localVar_named {isStatic : Bool} {v : VarDecl} {span : Span} (object : P → v.ty.IsObject)
    (inside : a.function.isSome) :
    MeetsAt P a (Analyze.localVar isStatic v span) fun b v => NamesAt a b fun o => v.NamedIn o := by
  refine .get (.ite (fun _ => .report_bind _ _ (Does.pure _)) fun _ => ?_)
  split
  · rename_i none
    rw [none] at inside
    cases inside
  · rename_i f some_
    have owner : a.owner = some f.name := congrArg (Option.map _) some_
    have entered {P : Prop} {b : Analysis} (binding : Typed.Binding) (known : P → LocalSymbol.Sound (.var v.ty binding))
        (v' : VarDecl) : MeetsAt P b (do Analyze.setLocal v.name (.var v.ty binding); return v') fun c r =>
          c.owner = b.owner ∧ r = v' := by
      have same : ((Analyze.setLocal v.name (.var v.ty binding)).run b).2.owner = b.owner :=
        congrArg (Option.map _) (EntersAt.kept_setLocal v.name (.var v.ty binding)).1
      exact .bind ((setLocal known).also same) fun _ c => .pure fun known _ => ⟨known.2.2, rfl⟩
    refine .ite (fun _ => ?_) fun _ => ?_
    · refine .ite (fun _ => .report_bind _ _ ?_) fun constant => ?_
      · exact Does.bind (Does.setLocal _ _) fun _ => Does.pure _
      · refine (entered _ (fun known => ⟨object known.1.1.1, rfl⟩) _).mono fun b r _ _ _ _ entered => ?_
        obtain ⟨same, rfl⟩ := entered
        refine ⟨same, nofun, fun _ => by rw [owner]; rfl, fun _ => ⟨by rw [owner]; rfl, ?_⟩⟩
        exact Option.isSome_iff_ne_none.mpr fun none => constant (Option.isNone_iff_eq_none.mpr none)
    · refine .bind (M := fun b _ => b.owner = a.owner)
        (update (.single (.function _)) (fun _ sound => { sound with }) fun _ => owner.symm) fun _ b => ?_
      refine (entered _ (fun known => ⟨object known.1.1.1, rfl⟩) _).mono fun c r known _ _ _ entered => ?_
      obtain ⟨same, rfl⟩ := entered
      exact ⟨same.trans known.2.2, nofun, fun _ => by rw [owner]; rfl, nofun⟩

theorem globalVar_named {v : VarDecl} {span : Span} (object : P → v.Accepted a) :
    MeetsAt P a (Analyze.globalVar v span) fun b v => NamesAt a b fun o => v.NamedIn o := by
  have owner : ((Analyze.globalVar v span).run a).2.owner = a.owner :=
    congrArg (Option.map _) (tame_of_steps (Does.tame_globalVar v span a)).function
  obtain ⟨image, same⟩ := Brings.gives_global v span a
  refine (globalVar object).also ⟨owner, ?_⟩
  rw [same]
  exact ⟨fun _ => rfl, fun inner => (inner rfl).elim, nofun⟩

theorem enterVar_named {storage : Syntax.Storage} {name : String} {ty : Ty} {init : Option Initializer} {span : Span}
    (word : IsWord name) (object : P → ty.IsObject) (hinit : P → ∀ i, init = some i → Typed.AcceptedInit a ty i) :
    MeetsAt P a (Analyze.enterVar storage name ty init span) fun b v => NamesAt a b fun o => v.NamedIn o := by
  refine .get (.ite (fun _ => ?_) fun _ => .get ?_)
  · split
    · exact .report_bind _ _ (Does.pure _)
    · exact .get (.report_bind _ _ (Does.pure _))
  · refine .ite (fun inside => ?_) fun _ => globalVar_named fun h => ⟨word, object h.1.1, hinit h.1.1⟩
    exact localVar_named (fun h => object h.1.1) (Bool.and_eq_true_iff.mp inside).1

theorem autoVar_named {storage : Syntax.Storage} {name : String} {nameSpan span : Span}
    {init : Option Syntax.Initializer} (word : IsWord name) (written : ∀ i, init = some i → Syntax.WrittenInit i) :
    MeetsAt P a (Analyze.autoVar storage name nameSpan span init) fun b v => NamesAt a b fun o => v.NamedIn o := by
  unfold Analyze.autoVar
  dsimp only
  split
  · rename_i e
    refine behind (Does.expr e) (.expr (written _ rfl)) fun e b => deduced (fun h => h.2.2) fun object => ?_
    refine enterVar_named word object fun h i given => ?_
    cases given
    refine ⟨h.2.2, ?_⟩
    cases hty : e.ty <;> exact .inl (by rw [hty])
  · rename_i e _
    refine behind (Does.expr e) (.expr (written _ rfl e (List.mem_singleton_self e))) fun e b => ?_
    refine deduced (fun h => h.2.2) fun object => enterVar_named word object fun h i given => ?_
    cases given
    refine ⟨?_, h.2.2, .inl rfl⟩
    cases e.ty <;> rfl
  · exact .report_bind _ _ (Does.pure _)

theorem varDecl_named {spec : Syntax.DeclSpec} {name : String} {d : Syntax.Declarator} {init : Option Syntax.Initializer}
    {span : Span} (hspec : spec.Written) (word : IsWord name) (hd : d.Written)
    (written : ∀ i, init = some i → Syntax.WrittenInit i) :
    MeetsAt P a (Analyze.varDecl spec name d init span) fun b v => NamesAt a b fun o => v.NamedIn o := by
  refine .ite (fun _ => autoVar_named word written) fun _ => ?_
  refine behind (Does.baseType spec) (.baseType hspec) fun base b => ?_
  refine behind (Does.declaredType base d) (.declaredType (fun h => h.2.2) hd) fun ty c => ?_
  refine .ite (fun dependent => .pure fun h _ => ?_) fun _ => .ite (fun _ => ?_) fun notVoid => ?_
  · have definite : ty.Definite := h.1.2.2.definite
    rw [definite.not_isDependent] at dependent
    cases dependent
  · exact .report_bind _ _ (Does.pure _)
  · have object (spelled : ty.Spelled) : ty.IsObject :=
      ⟨spelled.definite, fun void => notVoid (Ty.isVoid_iff.mpr void)⟩
    cases init with
    | none => exact enterVar_named word (fun h => object h.1.1.2.2) nofun
    | some init =>
      refine behind (Does.initializer ty init) (initializer (written init rfl)) fun r d => ?_
      refine enterVar_named word (fun h => h.2.2.1.isObject (object h.1.1.1.2.2)) fun h i given => ?_
      cases given
      exact h.2.2.1.acceptedInit h.2.2.2

/-! ## Declarations and statements -/

/-- A declaration of anything but an object. -/
theorem other_named {m : Analyze DeclKind} {N : Definition → Prop} {Post : Analysis → DeclKind → Prop} {span : Span}
    (hm : MeetsAt P a m Post) (tame : Does (TameBut N) m) (kind : Gives m fun k => ∀ v, k ≠ .var v) :
    MeetsAt P a m fun b k => NamesAt a b (⟨k, span⟩ : Decl).NamedIn :=
  hm.also ⟨congrArg (Option.map _) (tame_of_steps (tame a)).function, fun v known => (kind a v known).elim⟩

theorem declKind_named {spec : Syntax.DeclSpec} {d : Syntax.Decl} (hspec : spec.Written) (hd : d.Written) :
    MeetsAt P a (Analyze.declKind spec d) fun b k => NamesAt a b (⟨k, d.span⟩ : Decl).NamedIn := by
  have accepted := declKind (P := P) (a := a) hspec hd
  obtain ⟨kind, span⟩ := d
  cases kind with
  | var name declarator init =>
    refine .bind (varDecl_named hspec hd.1 hd.2.1 hd.2.2) fun v b => .pure fun known _ => ?_
    refine known.2.2.mono fun o named v' same => ?_
    cases same
    exact named
  | function name declarator externC =>
    exact other_named accepted (Does.bind (Does.tame_functionHead _ _ _ _ _) fun _ => Does.pure _) (.skip fun _ => .pure nofun)
  | record kind name fds => exact other_named accepted (Does.tame_recordDecl (N := fun _ => False) _ _ _ _) (gives_recordDecl _ _ _ _)
  | enum name variants => exact other_named accepted (Does.tame_enumDecl (N := fun _ => False) _ _ _) (gives_enumDecl _ _ _)
  | typedef name declarator =>
    exact other_named accepted (Does.tame_typedefDecl (N := fun _ => False) _ _ _ _) (gives_typedefDecl _ _ _ _)

theorem decls_named {spec : Syntax.DeclSpec} {ds : List Syntax.Decl} (hspec : spec.Written) (hds : ∀ d ∈ ds, d.Written) :
    MeetsAt P a (Analyze.decls spec ds) fun b ds => NamesAt a b fun o => ∀ d ∈ ds, d.NamedIn o := by
  induction ds generalizing P a with
  | nil => exact .pure fun _ _ => ⟨rfl, nofun⟩
  | cons d ds ih =>
    refine .bind (declKind_named hspec (hds d List.mem_cons_self)) fun k b => ?_
    refine .bind (ih fun d mem => hds d (List.mem_cons_of_mem _ mem)) fun ds c => .pure fun known _ => ?_
    exact (known.1.2.2.trans known.2.2).mono fun o => List.forall_mem_cons.mpr

theorem declGroup_named {g : Syntax.DeclGroup} (hg : g.Written) :
    MeetsAt P a (Analyze.declGroup g) fun b g => NamesAt a b fun o => ∀ d ∈ g.decls, d.NamedIn o :=
  .bind (decls_named hg.spec hg.decls) fun _ _ => .pure fun known _ => known.2.2

theorem forInit_named {i : ForInit Syntax.Expr Syntax.DeclGroup} (h : Syntax.WrittenForInit i) :
    MeetsAt P a (Analyze.forInit i) fun b i => NamesAt a b fun o => EveryForInit (fun _ => True) (Decl.NamedIn o) i := by
  cases i with
  | none => exact .pure fun _ _ => ⟨rfl, trivial⟩
  | decl node g => exact .bind (declGroup_named h) fun _ _ => .pure fun known _ => known.2.2
  | expr node e =>
    exact behind (Does.expr e) (.expr h) fun _ _ => .pure fun _ _ => ⟨rfl, trivial⟩

/-- A scope of its own. -/
theorem inScope_named {α : Type} {scope : NameMap LocalSymbol} {m : Analyze α} {named : α → Option String → Prop}
    (sound : P → ∀ name s, scope.get? name = some s → s.Sound)
    (hm : ∀ b, MeetsAt P b m fun c x => NamesAt b c (named x)) :
    MeetsAt P a (Analyze.inScope scope m) fun b x => NamesAt a b (named x) := by
  refine .bind (M := fun b _ => b.owner = a.owner) ?_ fun _ b => ?_
  · refine update (.single (.scopes _)) (fun hP known => ?_) fun hP => rfl
    exact { known with scopes := List.forall_mem_cons.mpr ⟨sound hP, known.scopes⟩ }
  · refine .bind ((hm b).weaken fun h => h.1) fun x c => .bind (M := fun d _ => d.owner = c.owner) ?_ fun _ d => ?_
    · refine update (.single (.scopes _)) (fun _ known => ?_) fun _ => rfl
      exact { known with scopes := fun scope mem => known.scopes scope (List.mem_of_mem_tail mem) }
    · refine .pure fun known _ => ?_
      obtain ⟨⟨⟨-, -, opened⟩, -, inside⟩, -, closed⟩ := known
      exact ⟨closed.trans (inside.1.trans opened), opened ▸ inside.2⟩

mutual

theorem stmt_named {P : Prop} {a : Analysis} {f : FunctionContext} {inLoop : Bool} :
    ∀ {s : Syntax.Stmt}, Syntax.WrittenStmt s → MeetsAt P a (Analyze.stmt f inLoop s) fun b t =>
      NamesAt a b fun o => EveryStmt (fun _ => True) (Decl.NamedIn o) t
  | .null _, _ => .pure fun _ _ => ⟨rfl, trivial⟩
  | .expr _ e, h => behind (Does.expr e) (.expr h) fun _ _ => .pure fun _ _ => ⟨rfl, trivial⟩
  | .decl _ g, h => .bind (declGroup_named h) fun _ _ => .pure fun known _ => known.2.2
  | .compound _ ss, h =>
    .bind (inScope_named (fun _ _ _ found => nomatch found) fun b => stmts_named h) fun ss b => .pure fun known _ => known.2.2
  | .ifThen _ c yes, h => behind (Does.condition c) (condition h.1) fun c b => .bind (stmt_named h.2) fun yes d =>
      .pure fun known _ => known.2.2.mono fun _ every => ⟨trivial, every⟩
  | .ifElse _ c yes no, h => behind (Does.condition c) (condition h.1) fun c b => .bind (stmt_named h.2.1) fun yes d =>
      .bind (stmt_named h.2.2) fun no e => .pure fun known _ =>
        (known.1.2.2.trans known.2.2).mono fun _ every => ⟨trivial, every⟩
  | .while _ c body, h => behind (Does.condition c) (condition h.1) fun c b => .bind (stmt_named h.2) fun body d =>
      .pure fun known _ => known.2.2.mono fun _ every => ⟨trivial, every⟩
  | .doWhile _ body c, h => by
    refine .bind (stmt_named h.2) fun body b => .bind ((condition h.1).names (Does.condition c)) fun c d => ?_
    exact .pure fun known _ => (known.1.2.2.trans known.2.2).mono fun _ every => ⟨trivial, every.1⟩
  | .for _ init c step body, h => by
    refine inScope_named (fun _ _ _ found => nomatch found) fun a => ?_
    refine .bind (forInit_named h.1) fun init b₁ => .bind ((condition? h.2.1).names (Does.condition? c)) fun c b₂ => ?_
    refine .bind ((expr? h.2.2.1).names (Does.expr? step)) fun step b₃ => .bind (stmt_named h.2.2.2) fun body b₄ => ?_
    refine .pure fun known _ => ?_
    obtain ⟨⟨⟨⟨-, -, first⟩, -, second⟩, -, third⟩, -, last⟩ := known
    refine (first.trans (second.trans (third.trans last))).mono fun o every => ?_
    exact ⟨every.1, fun _ _ => trivial, fun _ _ => trivial, every.2.2.2⟩
  | .break _, _ | .continue _, _ =>
    .ite (fun _ => .report_bind _ _ (Does.pure _)) fun _ => .pure fun _ _ => ⟨rfl, trivial⟩
  | .return _ value, h =>
    behind (Does.returned f value _) (returned h) fun _ _ => .pure fun _ _ => ⟨rfl, fun _ _ => trivial⟩

theorem stmts_named {P : Prop} {a : Analysis} {f : FunctionContext} {inLoop : Bool} :
    ∀ {ss : List Syntax.Stmt}, Syntax.WrittenStmts ss → MeetsAt P a (Analyze.stmts f inLoop ss) fun b ts =>
      NamesAt a b fun o => EveryStmts (fun _ => True) (Decl.NamedIn o) ts
  | [], _ => .pure fun _ _ => ⟨rfl, trivial⟩
  | _ :: _, h => .bind (stmt_named h.1) fun _ _ => .bind (stmts_named h.2) fun _ _ =>
      .pure fun known _ => known.1.2.2.trans known.2.2

end

/-! ## Groups -/

theorem functionBody_named {f : FunctionDecl} {body : Syntax.Stmt} (object : P → ∀ p ∈ f.params, p.ty.IsObject)
    (h : Syntax.WrittenStmt body) :
    MeetsAt P a (Analyze.functionBody f body) fun b r =>
      b.owner = none ∧ r.1.name = f.name ∧ EveryStmt (fun _ => True) (Decl.NamedIn (some f.name)) r.2 := by
  let context : FunctionContext := { name := f.name, ret := f.ret, nextSlot := f.params.length }
  refine .bind (M := fun b _ => b.owner = some f.name)
    (update (.single (.function _)) (fun _ sound => { sound with }) fun _ => rfl) fun _ b => ?_
  refine .bind (inScope_named (fun known => paramScope_sound (object known.1)) fun c => stmt_named h) fun body c => .get ?_
  refine .bind (M := fun d _ => d.owner = none)
    (update (.single (.function _)) (fun _ sound => { sound with }) fun _ => rfl) fun _ d => .pure fun known _ => ?_
  obtain ⟨⟨⟨-, -, inside⟩, -, named⟩, -, outside⟩ := known
  exact ⟨outside, rfl, inside ▸ named.2⟩

theorem functionDefinition_named {spec : Syntax.DeclSpec} {d : Syntax.Decl} {body : Syntax.Stmt} (hspec : spec.Written)
    (hd : d.Written) (h : Syntax.WrittenStmt body) :
    MeetsAt P a (Analyze.functionDefinition spec d body) fun _ r =>
      r.1.NamedIn a.owner ∧ ∀ f s, r.1.kind = .function f → r.2 = some s →
        EveryStmt (fun _ => True) (Decl.NamedIn (some f.name)) s := by
  have other {d : Syntax.Decl} (hd : d.Written) : MeetsAt P a (do
      return (⟨← Analyze.declKind spec d, d.span⟩, none) : Analyze (Decl × Option Typed.Stmt)) fun _ r =>
        r.1.NamedIn a.owner ∧ ∀ f s, r.1.kind = .function f → r.2 = some s →
          EveryStmt (fun _ => True) (Decl.NamedIn (some f.name)) s :=
    .bind (declKind_named hspec hd) fun _ _ => .pure fun known _ => ⟨known.2.2.2, nofun⟩
  obtain ⟨kind, span⟩ := d
  unfold Analyze.functionDefinition
  cases kind with
  | function name declarator externC =>
    refine .bind (functionHead hspec hd.1 hd.2) fun r b => ?_
    obtain ⟨f, entered⟩ := r
    refine .ite (fun _ => .pure fun _ _ => ⟨nofun, nofun⟩) fun _ => .get ?_
    refine .ite (fun _ => .get (.report_bind _ _ (Does.pure _))) fun _ => ?_
    refine .bind (functionBody_named (fun known p mem => ?_) h) fun r c => ?_
    · exact known.1.1.2.2.sound.params _ (List.mem_map.mpr ⟨p, mem, rfl⟩)
    · refine .pure fun known _ => ⟨nofun, fun g s hg hs => ?_⟩
      obtain ⟨-, -, -, same, named⟩ := known
      cases hg
      cases hs
      exact same ▸ named
  | var name declarator init => exact other hd
  | record kind name fds => exact other hd
  | enum name variants => exact other hd
  | typedef name declarator => exact other hd

end Analyze.MeetsAt

namespace Typed

theorem mem_staticsOf_decls {D : Decl → Prop} {ds : List Decl} (every : ∀ d ∈ ds, D d) {v : VarDecl}
    (mem : v ∈ ds.filterMap Decl.static?) : v.storage = .static ∧ ∃ span, D ⟨.var v, span⟩ := by
  obtain ⟨d, listed, found⟩ := List.mem_filterMap.mp mem
  obtain ⟨kind, span⟩ := d
  unfold Decl.static? at found
  cases kind with
  | var u =>
    dsimp only at found
    by_cases static : u.storage = .static
    · rw [if_pos static] at found
      cases found
      exact ⟨static, span, every _ listed⟩
    · rw [if_neg static] at found
      cases found
  | _ => cases found

mutual

/-- What holds of every declaration of a statement holds of those of its static objects. -/
theorem mem_statics {D : Decl → Prop} {v : VarDecl} :
    ∀ {s : Stmt}, EveryStmt (fun _ => True) D s → v ∈ s.statics → v.storage = .static ∧ ∃ span, D ⟨.var v, span⟩
  | .null _, _, mem | .expr .., _, mem | .break _, _, mem | .continue _, _, mem | .return .., _, mem => nomatch mem
  | .decl _ _, every, mem => mem_staticsOf_decls every mem
  | .compound _ _, every, mem => mem_staticsOf every mem
  | .ifThen _ _ _, every, mem => mem_statics every.2 mem
  | .ifElse _ _ _ _, every, mem =>
    (List.mem_append.mp mem).elim (mem_statics every.2.1) (mem_statics every.2.2)
  | .while _ _ _, every, mem | .doWhile _ _ _, every, mem => mem_statics every.2 mem
  | .for _ init _ _ _, every, mem => by
    refine (List.mem_append.mp mem).elim (fun first => ?_) (mem_statics every.2.2.2)
    cases init with
    | decl _ g => exact mem_staticsOf_decls every.1 first
    | none => cases first
    | expr _ e => cases first

theorem mem_staticsOf {D : Decl → Prop} {v : VarDecl} :
    ∀ {ss : List Stmt}, EveryStmts (fun _ => True) D ss → v ∈ staticsOf ss → v.storage = .static ∧ ∃ span, D ⟨.var v, span⟩
  | [], _, mem => nomatch mem
  | _ :: _, every, mem => (List.mem_append.mp mem).elim (mem_statics every.1) (mem_staticsOf every.2)

end

/-- Every object of the group has the link name that is due to it, and a static object an image. -/
def TopLevel.Named (t : TopLevel) : Prop :=
  ∀ x ∈ t.objects, x.2.linkName = linkNameIn x.1 x.2.name ∧ (x.1.isSome → x.2.constantInit.isSome)

theorem TopLevel.named_of_parts {t : TopLevel} (outer : ∀ d ∈ t.group.decls, d.NamedIn none)
    (inner : ∀ f body, t.function? = some f → t.body = some body → EveryStmt (fun _ => True) (Decl.NamedIn (some f.name)) body) :
    t.Named := by
  intro x mem
  rcases List.mem_append.mp mem with mem | mem
  · obtain ⟨v, listed, rfl⟩ := List.mem_map.mp mem
    obtain ⟨d, declared, found⟩ := List.mem_filterMap.mp listed
    obtain ⟨kind, span⟩ := d
    unfold Decl.defined? at found
    cases kind with
    | var u =>
      dsimp only at found
      split at found
      · cases found
        have named := outer _ declared v rfl
        refine ⟨named.global ?_, nofun⟩
        by_contra other
        cases named.inner other
      · cases found
    | _ => cases found
  · unfold TopLevel.statics at mem
    split at mem
    · rename_i f body function given
      obtain ⟨v, static, rfl⟩ := List.mem_map.mp mem
      obtain ⟨storage, span, named⟩ := mem_statics (inner f body function given) static
      obtain ⟨link, image⟩ := (named v rfl).static storage
      exact ⟨link, fun _ => image⟩
    · cases mem

end Typed

theorem Analyze.MeetsAt.topLevel_named {t : Syntax.TopLevel} (h : t.Written) (outside : a.function = none) :
    MeetsAt P a (Analyze.topLevel t) fun _ t => t.Named := by
  have owner : a.owner = none := congrArg (Option.map _) outside
  unfold Analyze.topLevel
  dsimp only
  split
  · rename_i body last hbody hlast
    have mem : last ∈ t.group.decls := List.mem_of_getLast? hlast
    have before : ∀ d ∈ t.group.decls.dropLast, d.Written := fun d hd => h.group.decls d (List.dropLast_subset _ hd)
    refine .bind (decls_named h.group.spec before) fun before b => ?_
    refine .bind (functionDefinition_named h.group.spec (h.group.decls last mem) (h.body body hbody)) fun r c => ?_
    refine .pure fun known _ => Typed.TopLevel.named_of_parts (fun d mem => ?_) fun f s function given => ?_
    · obtain ⟨⟨-, -, same, first⟩, -, second, -⟩ := known
      rw [owner] at same first
      rcases List.mem_append.mp mem with mem | mem
      · exact first d mem
      · cases List.mem_singleton.mp mem
        exact same ▸ second
    · obtain ⟨d, last, kind⟩ := Typed.TopLevel.function?_eq_some function
      have same : d = r.1 := by simpa using last.symm
      exact known.2.2.2 f s (same ▸ kind) given
  · refine .bind (declGroup_named h.group) fun g b => .pure fun known _ => Typed.TopLevel.named_of_parts ?_ nofun
    exact owner ▸ known.2.2.2

/-- The objects of an accepted group are linked under the names that are due to them. -/
theorem Analysis.analyze_linkNames {a : Analysis} (reached : a.Reached) {t : Syntax.TopLevel} (written : t.Written)
    {t' : Typed.TopLevel} (accepted : (a.analyze t).1 = .ok t') : t'.Named := by
  obtain ⟨b, -, named, -⟩ := Analyze.MeetsAt.analyze_ok reached.sound accepted
    (.topLevel_named written reached.outermost.1)
  exact named

end IncrementalC
