import IncrementalC.Proofs.Analysis.Tame
import IncrementalC.Proofs.Lowering.InitialRoom
import IncrementalC.Proofs.Typed.EveryPart

/-!
# Local objects lie in the frame

The analysis gives every local object slots behind those of the objects before it, and binds names to
the slots of objects in scope. So in an analysed body every local object that is declared or named lies
inside the frame.
-/
namespace IncrementalC
set_option autoImplicit false
open Relation
open Typed (Expr Initializer VarDecl FunctionDecl Param Decl DeclKind Binding NamesAll NamesInit NamesInits WithinInit)

namespace Analyze

/-! ## Expressions -/

/-- Where the scopes `S` are open, an identifier is bound to a slot just if its innermost declaration is that of
the object in this slot. -/
def BoundIn (S : List (NameMap LocalSymbol)) (name : String) (binding : Binding) : Prop :=
  ∀ slot, binding = .local slot ↔ ∃ ty, S.findSome? (·.get? name) = some (.var ty (.local slot))

theorem BoundIn.other {S : List (NameMap LocalSymbol)} {name : String} {binding : Binding}
    (h : ∀ slot, binding ≠ .local slot) (h' : ∀ ty slot, S.findSome? (·.get? name) ≠ some (.var ty (.local slot))) :
    BoundIn S name binding :=
  fun slot => ⟨fun same => absurd same (h slot), fun ⟨ty, found⟩ => absurd found (h' ty slot)⟩

theorem Mention.scopes {a b : Analysis} (h : Mention a b) : b.scopes = a.scopes := by
  cases h with
  | report h =>
    cases h
    rfl
  | record _ | value _ _ => rfl

theorem Mentions.scopes {a b : Analysis} (h : ReflTransGen Mention a b) : b.scopes = a.scopes := by
  induction h with
  | refl => rfl
  | tail _ step ih => exact step.scopes.trans ih

/-- Where the scopes `S` are open, the step gives such a result, and they are as they were behind it. -/
def Inside {α : Type} (S : List (NameMap LocalSymbol)) (Q : α → Prop) (m : Analyze α) : Prop :=
  ∀ a, a.scopes = S → Q (m.run a).1 ∧ (m.run a).2.scopes = S

namespace Inside

variable {α β : Type} {S : List (NameMap LocalSymbol)} {Q : α → Prop} {R : β → Prop}

theorem pure {x : α} (h : Q x) : Inside S Q (Pure.pure x) := fun _ open_ => ⟨h, open_⟩

theorem bind {m : Analyze α} {f : α → Analyze β} (hm : Inside S Q m) (hf : ∀ x, Q x → Inside S R (f x)) :
    Inside S R (m >>= f) := by
  intro a open_
  obtain ⟨given, still⟩ := hm a open_
  exact hf _ given _ still

theorem get {f : Analysis → Analyze β} (hf : ∀ a, a.scopes = S → Inside S R (f a)) :
    Inside S R (MonadState.get >>= f) := fun a open_ => hf a open_ a open_

theorem ite {c : Prop} [Decidable c] {m m' : Analyze α} (h : Inside S Q m) (h' : Inside S Q m') :
    Inside S Q (if c then m else m') := by
  split
  · exact h
  · exact h'

theorem mono {Q' : α → Prop} {m : Analyze α} (h : Inside S Q m) (hQ : ∀ x, Q x → Q' x) : Inside S Q' m :=
  fun a open_ => (h a open_).imp_left (hQ _)

/-- A step of an expression, whatever it gives. -/
theorem mention {m : Analyze α} (hm : Does Mention m) : Inside S (fun _ => True) m :=
  fun a open_ => ⟨trivial, (Mentions.scopes (hm a)).trans open_⟩

/-- A step behind which nothing depends on it. -/
theorem mention_bind {m : Analyze α} {f : α → Analyze β} (hm : Does Mention m) (hf : ∀ x, Inside S R (f x)) :
    Inside S R (m >>= f) := bind (mention hm) fun x _ => hf x

theorem report_bind {m : Analyze α} {f : α → Analyze β} (hm : Does Report m) (hf : ∀ x, Inside S R (f x)) :
    Inside S R (m >>= f) := mention_bind hm.mentions hf

theorem recover (name : String) (span : Span) :
    Inside S (fun r => ∀ x, r = some x → ∀ slot, x.1 ≠ .local slot) (recover? name span) := by
  refine get fun a _ => ?_
  split
  · exact pure nofun
  · exact pure fun x same => by cases same; exact nofun
  · refine bind (Q := fun b => ∀ slot, b ≠ .local slot) (fun a open_ => ⟨nofun, open_⟩) fun b notLocal => ?_
    exact pure fun x same => by cases same; exact notLocal

theorem identType (name : String) (span : Span) : Inside S (fun r => BoundIn S name r.1) (identType name span) := by
  refine get fun a open_ => ?_
  unfold Analysis.lookupLocal?
  rw [open_]
  split
  · rename_i ty binding found
    refine pure fun slot => ⟨fun same => ⟨ty, found.trans (by rw [← same])⟩, fun ⟨_, other⟩ => ?_⟩
    cases found.symm.trans other
    rfl
  · rename_i found
    exact pure (.other nofun (by rw [found]; exact nofun))
  · rename_i found
    exact report_bind (Does.fail _ _) fun _ => pure (.other nofun (by rw [found]; exact nofun))
  · rename_i unknown
    have other {binding : Binding} (h : ∀ slot, binding ≠ .local slot) : BoundIn S name binding :=
      .other h (by rw [unknown]; exact nofun)
    split
    · exact pure (other nofun)
    · exact pure (other nofun)
    · exact report_bind (Does.fail _ _) fun _ => pure (other nofun)
    · exact report_bind (Does.fail _ _) fun _ => pure (other nofun)
    · refine ite (report_bind (Does.fail _ _) fun _ => pure (other nofun)) (bind (recover name span) fun found known => ?_)
      split
      · exact pure (other fun slot => known _ rfl slot)
      · exact report_bind (Does.fail _ _) fun _ => pure (other nofun)

variable {P : String → Binding → Prop}

mutual

theorem expr (bound : ∀ name binding, BoundIn S name binding → P name binding) :
    ∀ e : Syntax.Expr, Inside S (Expr.Names P) (expr e)
  | .int .. | .float .. | .char .. | .str .. | .bool .. | .null .. => pure trivial
  | .ident _ name => bind (identType name _) fun _ h => pure (bound _ _ h)
  | .unary _ op e => bind (expr bound e) fun e h => report_bind (Does.unaryType op e _) fun _ => pure h
  | .binary _ op x y =>
    bind (expr bound x) fun x hx => bind (expr bound y) fun y hy =>
      report_bind (Does.binaryType op x y _) fun _ => pure ⟨hx, hy⟩
  | .assign _ op x y =>
    bind (expr bound x) fun x hx => bind (expr bound y) fun y hy =>
      report_bind (Does.assignType op x y _) fun _ => pure ⟨hx, hy⟩
  | .conditional _ c x y =>
    bind (expr bound c) fun c hc => bind (expr bound x) fun x hx => bind (expr bound y) fun y hy =>
      report_bind (Does.conditionalType c x y _) fun _ => pure ⟨hc, hx, hy⟩
  | .call _ callee args => by
    have hargs := exprs bound args
    cases callee with
    | ident s name =>
      exact mention_bind (Does.resolveCallee name s) fun r => bind hargs fun args h =>
        report_bind (Does.callType name r.2 args _) fun _ => pure h
    | _ =>
      exact mention_bind (Does.expr _) fun _ => bind hargs fun _ _ =>
        report_bind (Does.fail _ _) fun _ => pure trivial
  | .index _ base index =>
    bind (expr bound base) fun b hb => bind (expr bound index) fun i hi =>
      report_bind (Does.indexType b i _) fun _ => pure ⟨hb, hi⟩
  | .member _ base field arrow =>
    bind (expr bound base) fun b h => report_bind (Does.memberType b field arrow _) fun _ => pure h
  | .cast _ spec d e =>
    mention_bind (Does.baseType spec) fun base => mention_bind (Does.declaredType base d) fun target =>
      bind (expr bound e) fun e h => report_bind (Does.castType target e _) fun _ => pure h
  | .sizeofType _ spec d =>
    mention_bind (Does.baseType spec) fun base => mention_bind (Does.declaredType base d) fun target =>
      report_bind (Does.sizeofType target _) fun _ => pure trivial
  | .sizeofExpr _ e => bind (expr bound e) fun e h => report_bind (Does.sizeofExprType e _) fun _ => pure h
  | .comma _ x y => bind (expr bound x) fun _ hx => bind (expr bound y) fun _ hy => pure ⟨hx, hy⟩

theorem exprs (bound : ∀ name binding, BoundIn S name binding → P name binding) :
    ∀ es : List Syntax.Expr, Inside S (NamesAll P) (exprs es)
  | [] => pure trivial
  | e :: es => bind (expr bound e) fun _ h => bind (exprs bound es) fun _ hs => pure ⟨h, hs⟩

end

/-! ## Initial values -/

theorem unanalysedExpr (e : Syntax.Expr) : (unanalysedExpr e).Names P := by
  cases e <;> trivial

theorem unanalysedArgs (es : List Syntax.Expr) : NamesAll P (es.map Analyze.unanalysedExpr) := by
  induction es with
  | nil => trivial
  | cons e es ih => exact ⟨unanalysedExpr e, ih⟩

mutual

theorem unanalysed : ∀ i : Syntax.Initializer, NamesInit P (unanalysed i)
  | .expr e => unanalysedExpr e
  | .list items _ => unanalysedList items
  | .construct args _ => unanalysedArgs args

theorem unanalysedList : ∀ is : List Syntax.Initializer, NamesInits P (unanalysedList is)
  | [] => trivial
  | i :: is => ⟨unanalysed i, unanalysedList is⟩

end

mutual

theorem initializer (bound : ∀ name binding, BoundIn S name binding → P name binding) (ty : Ty) :
    ∀ i : Syntax.Initializer, Inside S (fun r => NamesInit P r.2) (initializer ty i)
  | .expr e => by
    rw [Analyze.initializer.eq_def]
    dsimp only
    split
    · refine ite ?_ (report_bind (Does.report _ _) fun _ => pure (unanalysedExpr _))
      exact report_bind (Does.stringFor _ _ _ _) fun _ => bind (expr bound _) fun _ h => pure h
    · exact report_bind (Does.report _ _) fun _ => pure (unanalysedExpr _)
    · exact bind (expr bound _) fun e h => report_bind (Does.checkAssignable _ e _) fun _ => pure h
  | .list items span => by
    rw [Analyze.initializer.eq_def]
    dsimp only
    have refuse (problem : Problem) : Inside S (fun r : Ty × Initializer => NamesInit P r.2) (do
        Analyze.report problem span
        Pure.pure (ty, InitialValue.list (Analyze.unanalysedList items) span)) :=
      report_bind (Does.report _ _) fun _ => pure (unanalysedList items)
    cases ty with
    | array elem length =>
      exact ite (refuse _) (bind (elements bound elem items) fun _ h => pure h)
    | record id =>
      refine get fun a _ => ?_
      split
      · exact report_bind (Does.typeName _) fun _ => refuse _
      · rename_i r _
        exact ite (refuse _) (bind (members bound r.fields items) fun _ h => pure h)
    | _ =>
      match items with
      | [] => exact pure trivial
      | [item] => exact bind (initializer bound _ item) fun _ h => pure ⟨h, trivial⟩
      | _ :: _ :: _ => exact refuse (.excessElements "scalar")
  | .construct args span => by
    rw [Analyze.initializer.eq_def]
    dsimp only
    split
    · exact pure trivial
    · refine ite ?_ ?_
      · exact report_bind (Does.typeName _) fun _ => report_bind (Does.report _ _) fun _ =>
          pure ⟨unanalysedExpr _, trivial⟩
      · exact bind (expr bound _) fun e h => report_bind (Does.checkAssignable _ e _) fun _ => pure ⟨h, trivial⟩
    · refine ite ?_ ?_
      · exact report_bind (Does.typeName _) fun _ => report_bind (Does.report _ _) fun _ =>
          pure (unanalysedArgs _)
      · exact report_bind (Does.report _ _) fun _ => pure (unanalysedArgs _)

theorem elements (bound : ∀ name binding, BoundIn S name binding → P name binding) (elem : Ty) :
    ∀ is : List Syntax.Initializer, Inside S (NamesInits P) (elements elem is)
  | [] => pure trivial
  | item :: items =>
    bind (initializer bound elem item) fun _ h => bind (elements bound elem items) fun _ hs => pure ⟨h, hs⟩

theorem members (bound : ∀ name binding, BoundIn S name binding → P name binding) (fields : List Field) :
    ∀ is : List Syntax.Initializer, Inside S (NamesInits P) (members fields is)
  | [] => pure trivial
  | item :: items => by
    rw [Analyze.members.eq_def]
    dsimp only
    cases fields with
    | nil => exact pure trivial
    | cons f fields =>
      exact bind (initializer bound f.ty item) fun _ h => bind (members bound fields items) fun _ hs => pure ⟨h, hs⟩

end

end Inside

/-! ## Steps within a frame -/

/-- If the local objects in scope lie in the first `n` slots, the step gives such a result, and they
still do. -/
def Confined {α : Type} (n : Nat) (Q : α → Prop) (m : Analyze α) : Prop :=
  ∀ a, ScopesWithin n a.scopes → Q (m.run a).1 ∧ ScopesWithin n (m.run a).2.scopes

namespace Confined

variable {α β : Type} {n : Nat} {Q : α → Prop} {R : β → Prop}

theorem pure {x : α} (h : Q x) : Confined n Q (Pure.pure x) := fun _ within => ⟨h, within⟩

theorem bind {m : Analyze α} {f : α → Analyze β} (hm : Confined n Q m) (hf : ∀ x, Q x → Confined n R (f x)) :
    Confined n R (m >>= f) := by
  intro a within
  obtain ⟨given, still⟩ := hm a within
  exact hf _ given _ still

theorem ite {c : Prop} [Decidable c] {m m' : Analyze α} (h : Confined n Q m) (h' : Confined n Q m') :
    Confined n Q (if c then m else m') := by
  split
  · exact h
  · exact h'

/-- A step of an expression, whatever it gives. -/
theorem mention {m : Analyze α} (hm : Does Mention m) : Confined n (fun _ => True) m :=
  fun a within => ⟨trivial, (tame_of_steps (N := fun _ => False) (hm.tame a)).scopes n within⟩

/-- A step behind which nothing depends on it. -/
theorem report_bind {m : Analyze α} {f : α → Analyze β} (hm : Does Report m) (hf : ∀ x, Confined n R (f x)) :
    Confined n R (m >>= f) := bind (mention hm.mentions) fun x _ => hf x

theorem of_inside {m : Analyze α} (h : ∀ S, ScopesWithin n S → Inside S Q m) : Confined n Q m := by
  intro a within
  obtain ⟨given, same⟩ := h a.scopes within a rfl
  exact ⟨given, same ▸ within⟩

/-- An identifier bound to a slot names an object in scope. -/
theorem slot_of_bound {S : List (NameMap LocalSymbol)} (within : ScopesWithin n S) (name : String) (binding : Binding)
    (h : BoundIn S name binding) (slot : Nat) (same : binding = .local slot) : slot < n := by
  obtain ⟨ty, found⟩ := (h slot).mp same
  obtain ⟨scope, mem, entry⟩ := List.exists_of_findSome?_eq_some found
  exact within scope mem name ty slot entry

theorem expr (e : Syntax.Expr) : Confined n (Expr.Within (· < n)) (expr e) :=
  of_inside fun _ within => (Inside.expr (slot_of_bound within) e).mono fun _ h => h.within fun _ slot h => h slot rfl

end Confined

end Analyze

/-! ## Objects -/

/-- The slots that local objects have taken so far. -/
def Analysis.frame (a : Analysis) : Nat := (a.function.map (·.nextSlot)).getD 0

/-- How an object got its slots in the frame or its image. -/
structure Typed.VarDecl.Entered (v : VarDecl) (a b : Analysis) : Prop where
  frame : a.frame ≤ b.frame
  outermost : a.function = none → b.function = none
  scopes : ∀ n, b.frame ≤ n → (∀ slot, v.storage = .local slot → b.types.stride v.ty < UInt32.size) →
    ScopesWithin n a.scopes → ScopesWithin n b.scopes
  slot : ∀ slot, v.storage = .local slot →
    b.types.isComplete v.ty ∧ (b.types.stride v.ty < UInt32.size → slot + b.types.stride v.ty ≤ b.frame)
  static : v.storage = .static → v.isExtern = false
  image : ∀ image, v.constantInit = some image →
    (v.isExtern = false → b.types.isComplete v.ty) ∧ Typed.constantImage? b.types v.ty v.init = some image

/-- It lies outside of the frame. -/
structure Typed.VarDecl.Outside (t : TypeTable) (v : VarDecl) : Prop where
  storage : ∀ slot, v.storage ≠ .local slot
  static : v.storage = .static → v.isExtern = false
  image : ∀ image, v.constantInit = some image →
    (v.isExtern = false → t.isComplete v.ty) ∧ Typed.constantImage? t v.ty v.init = some image

namespace Analyze

variable {a b c : Analysis} {n : Nat} {v : VarDecl}

theorem Mentions.tame (h : ReflTransGen Mention a b) : TameBut (fun _ => False) a b :=
  tame_of_steps (ReflTransGen.mono (fun _ _ => Mention.tame) _ _ h)

theorem TameBut.frame {N : Definition → Prop} (h : TameBut N a b) : b.frame = a.frame := by
  unfold Analysis.frame
  rw [h.function]

theorem Entered.after (h : ReflTransGen Mention a b) (entered : v.Entered b c) : v.Entered a c :=
  { entered with
    frame := TameBut.frame (Mentions.tame h) ▸ entered.frame
    outermost := fun none => entered.outermost ((Mentions.tame h).function.trans none)
    scopes := fun n le small within => entered.scopes n le small ((Mentions.tame h).scopes n within) }

/-- A tame change that leaves the types as they are. -/
structure Still (a b : Analysis) : Prop where
  tame : TameBut (fun _ => True) a b
  types : b.types = a.types

theorem still_of_steps (h : ReflTransGen Still a b) : Still a b := by
  induction h with
  | refl => exact ⟨.refl _, rfl⟩
  | tail _ step ih => exact ⟨ih.tame.trans step.tame, step.types.trans ih.types⟩

theorem Does.still_report (problem : Problem) (span : Span) : Does Still (Analyze.report problem span) :=
  fun _ => .single ⟨(Mention.report (.error _)).tame, rfl⟩

theorem Does.still_setGlobal (name : String) (s : Symbol) : Does Still (Analyze.setGlobal name s) :=
  fun _ => .single ⟨tame_setGlobal fun _ _ => .inr trivial, rfl⟩

theorem Does.still_setLocal {name : String} {s : LocalSymbol} (noObject : ∀ ty slot, s ≠ .var ty (.local slot)) :
    Does Still (Analyze.setLocal name s) := by
  refine fun a => .single ⟨tame_setLocal noObject, ?_⟩
  rw [run_setLocal]
  split <;> rfl

/-- The step enters the object that it gives. -/
def EntersAt (m : Analyze VarDecl) (a : Analysis) : Prop := (m.run a).1.Entered a (m.run a).2

namespace EntersAt

theorem outside {m : Analyze VarDecl} (does : Does Still m) (given : Gives m (VarDecl.Outside a.types)) : EntersAt m a := by
  obtain ⟨tame, types⟩ := still_of_steps (does a)
  obtain ⟨storage, static, image⟩ := given a
  refine ⟨Nat.le_of_eq (TameBut.frame tame).symm, tame.function.trans, fun n _ _ => tame.scopes n,
    fun slot known => absurd known (storage slot), static, ?_⟩
  rw [types]
  exact image

theorem get {f : Analysis → Analyze VarDecl} (h : EntersAt (f a) a) : EntersAt (MonadState.get >>= f) a := h

theorem bind {α : Type} {m : Analyze α} {f : α → Analyze VarDecl} (does : Does Mention m)
    (h : ∀ x b, EntersAt (f x) b) : EntersAt (m >>= f) a :=
  Entered.after (does a) (h (m.run a).1 (m.run a).2)

theorem ite {p : Prop} [Decidable p] {m m' : Analyze VarDecl} (h : p → EntersAt m a) (h' : ¬p → EntersAt m' a) :
    EntersAt (if p then m else m') a := by
  split
  · exact h ‹_›
  · exact h' ‹_›

theorem blank (storage : v.storage = .global) (image : v.constantInit = none) (t : TypeTable) : v.Outside t := by
  refine ⟨?_, ?_, ?_⟩
  · rw [storage]; exact nofun
  · rw [storage]; exact nofun
  · rw [image]; exact nofun

theorem pure (h : v.Outside a.types) : EntersAt (Pure.pure v) a := outside (.pure _) (.pure h)

/-- Nothing is entered. -/
theorem refused {problem : Problem} {span : Span} (storage : v.storage = .global) (image : v.constantInit = none) :
    EntersAt (do Analyze.report problem span; return v) a :=
  outside (.bind (.still_report _ _) fun _ => .pure _) (.skip fun _ => .pure (blank storage image _))

theorem scopesWithin_setLocal {name : String} {ty : Ty} {slot : Nat} (below : slot < n) (within : ScopesWithin n a.scopes) :
    ScopesWithin n ((Analyze.setLocal name (.var ty (.local slot))).run a).2.scopes := by
  rw [run_setLocal]
  split
  · rename_i scope scopes inner
    rw [inner] at within
    refine List.forall_mem_cons.mpr ⟨fun other ty' slot' found => ?_, fun scope' mem => within scope' (List.mem_cons_of_mem _ mem)⟩
    rw [NameMap.get?_insert] at found
    split at found
    · cases found
      exact below
    · exact within scope List.mem_cons_self other ty' slot' found
  · exact within

theorem kept_setLocal (name : String) (s : LocalSymbol) :
    ((Analyze.setLocal name s).run a).2.function = a.function ∧ ((Analyze.setLocal name s).run a).2.types = a.types := by
  rw [Analyze.run_setLocal]
  split <;> exact ⟨rfl, rfl⟩

/-- The object gets the slots behind those that are taken. -/
theorem inFrame {f : FunctionContext} (inside : a.function = some f) (complete : a.types.isComplete v.ty)
    (image : Option (List (Nat × Constant))) (folds : ∀ i, image = some i → Typed.constantImage? a.types v.ty v.init = some i) :
    EntersAt (do
      modify fun a =>
        { a with function := some { f with nextSlot := f.nextSlot + a.types.stride v.ty % UInt32.size } }
      Analyze.setLocal v.name (.var v.ty (.local f.nextSlot))
      return { v with storage := .local f.nextSlot, constantInit := image }) a := by
  let b : Analysis := { a with function := some { f with nextSlot := f.nextSlot + a.types.stride v.ty % UInt32.size } }
  obtain ⟨function, types⟩ := kept_setLocal (a := b) v.name (.var v.ty (.local f.nextSlot))
  have taken : a.frame = f.nextSlot := by
    unfold Analysis.frame
    rw [inside]
    rfl
  generalize after : ((Analyze.setLocal v.name (.var v.ty (.local f.nextSlot))).run b).2 = c at function types
  have frame : c.frame = f.nextSlot + a.types.stride v.ty % UInt32.size := by
    unfold Analysis.frame
    rw [function]
    rfl
  have types : c.types = a.types := types
  show Typed.VarDecl.Entered { v with storage := .local f.nextSlot, constantInit := image } a
    ((Analyze.setLocal v.name (.var v.ty (.local f.nextSlot))).run b).2
  rw [after]
  refine ⟨by omega, fun none => ?_, fun n le small within => ?_, fun slot known => ?_, nofun, fun i known => ?_⟩
  · rw [inside] at none
    cases none
  · rw [← after]
    refine scopesWithin_setLocal ?_ within
    have positive : 1 ≤ a.types.stride v.ty := Nat.le_max_right _ _
    have small : a.types.stride v.ty < UInt32.size := types ▸ small _ rfl
    rw [frame, Nat.mod_eq_of_lt small] at le
    omega
  · cases known
    rw [types, frame]
    exact ⟨complete, fun small => Nat.le_of_eq (congrArg (f.nextSlot + ·) (Nat.mod_eq_of_lt small).symm)⟩
  · rw [types]
    exact ⟨fun _ => complete, folds i known⟩

theorem localVar {isStatic : Bool} {span : Span} (storage : v.storage = .global) (image : v.constantInit = none)
    (isObject : v.isExtern = false) (complete : a.types.isComplete v.ty) : EntersAt (localVar isStatic v span) a := by
  refine get (ite (fun _ => refused storage image) fun _ => ?_)
  split
  · exact pure (blank storage image _)
  · rename_i f inside
    refine ite (fun _ => ?_) fun _ => ?_
    · have enter (link : String) : Does Still (do
          Analyze.setLocal v.name (.var v.ty (.global link))
          return { v with storage := .static, linkName := link, constantInit := Typed.constantImage? a.types v.ty v.init }) :=
        .bind (.still_setLocal nofun) fun _ => .pure _
      have given (link : String) : VarDecl.Outside a.types
          { v with storage := .static, linkName := link, constantInit := Typed.constantImage? a.types v.ty v.init } :=
        ⟨nofun, fun _ => isObject, fun _ known => ⟨fun _ => complete, known⟩⟩
      refine ite (fun _ => ?_) fun _ => ?_
      · exact outside (.bind (.still_report _ _) fun _ => enter _) (.skip fun _ => .skip fun _ => .pure (given _))
      · exact outside (enter _) (.skip fun _ => .pure (given _))
    · exact inFrame inside complete _ fun _ known => known

theorem globalVar {span : Span} (complete : v.isExtern = false → a.types.isComplete v.ty) :
    EntersAt (globalVar v span) a := by
  refine get ?_
  extract_lets types image v'
  have given : v'.Outside a.types := by
    refine ⟨by rintro _ ⟨⟩, by rintro ⟨⟩, fun i known => ?_⟩
    dsimp only [v', image] at known
    split at known
    · exact ⟨complete, known⟩
    · cases known
  have reported (problem : Problem) : EntersAt (do Analyze.report problem span; return v') a :=
    outside (.bind (.still_report _ _) fun _ => .pure _) (.skip fun _ => .pure given)
  have set : EntersAt (do Analyze.setGlobal v'.name (.var v'.ty v'.linkName v'.isDefinition); return v') a :=
    outside (.bind (.still_setGlobal _ _) fun _ => .pure _) (.skip fun _ => .pure given)
  refine get ?_
  split
  · exact ite (fun _ => get (get (reported _))) fun _ => ite (fun _ => reported _) fun _ => set
  · exact reported _
  · exact set

theorem enterVar {storage : Syntax.Storage} {name : String} {ty : Ty} {init : Option Initializer} {span : Span} :
    EntersAt (enterVar storage name ty init span) a := by
  refine get (ite (fun _ => ?_) fun known => ?_)
  · split
    · exact refused rfl rfl
    · exact get (refused rfl rfl)
  · have complete (isObject : (storage == .external) = false) : a.types.isComplete ty := by
      refine (Bool.not_eq_false _).mp fun incomplete => known ?_
      rw [incomplete, isObject]
      rfl
    refine get (ite (fun inside => ?_) fun _ => globalVar complete)
    have isObject := (Bool.not_eq_true' _).mp ((Bool.and_eq_true _ _).mp inside).2
    exact localVar rfl rfl isObject (complete isObject)

theorem autoVar {storage : Syntax.Storage} {name : String} {nameSpan span : Span} {init : Option Syntax.Initializer} :
    EntersAt (autoVar storage name nameSpan span init) a := by
  unfold Analyze.autoVar
  dsimp only
  split
  · refine bind (Does.expr _) fun e b => ite (fun _ => refused rfl rfl) fun _ => ite (fun _ => refused rfl rfl) fun _ => enterVar
  · refine bind (Does.expr _) fun e b => ite (fun _ => refused rfl rfl) fun _ => ite (fun _ => refused rfl rfl) fun _ => enterVar
  · exact refused rfl rfl

theorem varDecl {spec : Syntax.DeclSpec} {name : String} {d : Syntax.Declarator} {init : Option Syntax.Initializer}
    {span : Span} : EntersAt (varDecl spec name d init span) a := by
  refine ite (fun _ => autoVar) fun _ => bind (Does.baseType spec) fun base b => bind (Does.declaredType base d) fun ty c => ?_
  refine ite (fun _ => pure (blank rfl rfl _)) fun _ => ite (fun _ => refused rfl rfl) fun _ => ?_
  cases init with
  | none => exact enterVar
  | some init => exact bind (Does.initializer ty init) fun _ _ => enterVar

end EntersAt

/-- Where the scopes `S` are open, the identifiers of the initial value of the object satisfy `P`. -/
def InitialNames (S : List (NameMap LocalSymbol)) (P : String → Binding → Prop) (m : Analyze VarDecl) : Prop :=
  ∀ a, a.scopes = S → ∀ i, (m.run a).1.init = some i → NamesInit P i

namespace InitialNames

variable {S : List (NameMap LocalSymbol)} {P : String → Binding → Prop}

theorem bind {α : Type} {Q : α → Prop} {m : Analyze α} {f : α → Analyze VarDecl} (hm : Inside S Q m)
    (hf : ∀ x, Q x → InitialNames S P (f x)) : InitialNames S P (m >>= f) := by
  intro a open_
  obtain ⟨given, still⟩ := hm a open_
  exact hf _ given _ still

theorem ite {p : Prop} [Decidable p] {m m' : Analyze VarDecl} (h : InitialNames S P m) (h' : InitialNames S P m') :
    InitialNames S P (if p then m else m') := by
  split
  · exact h
  · exact h'

theorem pure (h : ∀ i, v.init = some i → NamesInit P i) : InitialNames S P (Pure.pure v) := fun _ _ => h

theorem refused {problem : Problem} {span : Span} (h : ∀ i, v.init = some i → NamesInit P i) :
    InitialNames S P (do Analyze.report problem span; return v) := fun _ _ => h

theorem enterVar {storage : Syntax.Storage} {name : String} {ty : Ty} {init : Option Initializer} {span : Span}
    (h : ∀ i, init = some i → NamesInit P i) : InitialNames S P (enterVar storage name ty init span) :=
  fun a _ i known => h i ((gives_enterVar storage name ty init span a).2 ▸ known)

theorem autoVar (bound : ∀ name binding, BoundIn S name binding → P name binding) {storage : Syntax.Storage}
    {name : String} {nameSpan span : Span} {init : Option Syntax.Initializer} :
    InitialNames S P (autoVar storage name nameSpan span init) := by
  have deduced {e : Expr} (value : Initializer) (h : NamesInit P value) (failed : VarDecl)
      (same : failed.init = some value) : InitialNames S P (do
        if e.ty.isDependent then
          Analyze.report (.autoFromUnknown name) e.span
          return failed
        else if e.ty.isVoid then
          Analyze.report (.incompleteVariable "void") nameSpan
          return failed
        else Analyze.enterVar storage name e.ty.decay (some value) nameSpan) := by
    have kept (i : Initializer) (known : some value = some i) : NamesInit P i := by
      cases known
      exact h
    exact ite (refused (same ▸ kept)) (ite (refused (same ▸ kept)) (enterVar kept))
  unfold Analyze.autoVar
  dsimp only
  split
  · exact bind (Inside.expr bound _) fun e (named : e.Names P) => deduced (.expr e) named _ rfl
  · exact bind (Inside.expr bound _) fun e (named : e.Names P) => deduced (.construct [e] _) ⟨named, trivial⟩ _ rfl
  · exact refused nofun

theorem varDecl (bound : ∀ name binding, BoundIn S name binding → P name binding) {spec : Syntax.DeclSpec}
    {name : String} {d : Syntax.Declarator} {init : Option Syntax.Initializer} {span : Span} :
    InitialNames S P (varDecl spec name d init span) := by
  refine ite (autoVar bound) (bind (Inside.mention (Does.baseType spec)) fun base _ => ?_)
  refine bind (Inside.mention (Does.declaredType base d)) fun ty _ => ite (pure nofun) (ite (refused nofun) ?_)
  cases init with
  | none => exact enterVar nofun
  | some init =>
    refine bind (Inside.initializer bound ty init) fun r named => enterVar fun i known => ?_
    cases known
    exact named

end InitialNames

/-- The local objects that an initial value names lie in the frame if those in scope do. -/
theorem initialWithin_varDecl {spec : Syntax.DeclSpec} {name : String} {d : Syntax.Declarator}
    {init : Option Syntax.Initializer} {span : Span} (within : ScopesWithin n a.scopes) :
    ∀ i, ((varDecl spec name d init span).run a).1.init = some i → WithinInit (· < n) i := by
  have named : InitialNames a.scopes (fun _ binding => ∀ slot, binding = .local slot → slot < n)
      (varDecl spec name d init span) := InitialNames.varDecl (Confined.slot_of_bound within)
  exact fun i known => (named a rfl i known).within fun _ slot h => h slot rfl

end Analyze

end IncrementalC
