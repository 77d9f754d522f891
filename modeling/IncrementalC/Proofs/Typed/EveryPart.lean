import IncrementalC.Typed.Tree

/-!
# What holds in every part of a tree

* `Expr.Names P`, `NamesInit P`: the identifiers, those of callees apart, have names and bindings that satisfy `P`.
* `Expr.Within L`, `WithinInit L`: the local objects that are named have slots that satisfy `L`.
* `EveryStmt E D`: every expression of a statement satisfies `E`, and every declaration `D`.
-/
namespace IncrementalC.Typed
set_option autoImplicit false

/-! ## Expressions and initial values -/

mutual

def Expr.Names (P : String → Binding → Prop) : Expr → Prop
  | .ident _ name binding => P name binding
  | .unary _ _ e | .member _ e _ _ | .cast _ _ e | .sizeofExpr _ e => e.Names P
  | .binary _ _ x y | .assign _ _ x y | .index _ x y | .comma _ x y => x.Names P ∧ y.Names P
  | .conditional _ c x y => c.Names P ∧ x.Names P ∧ y.Names P
  | .call _ _ _ args => NamesAll P args
  | _ => True

def NamesAll (P : String → Binding → Prop) : List Expr → Prop
  | [] => True
  | e :: es => e.Names P ∧ NamesAll P es

end

mutual

def NamesInit (P : String → Binding → Prop) : Initializer → Prop
  | .expr e => e.Names P
  | .list items _ => NamesInits P items
  | .construct args _ => NamesAll P args

def NamesInits (P : String → Binding → Prop) : List Initializer → Prop
  | [] => True
  | item :: items => NamesInit P item ∧ NamesInits P items

end

mutual

def Expr.Within (L : Nat → Prop) : Expr → Prop
  | .ident _ _ binding => ∀ slot, binding = .local slot → L slot
  | .unary _ _ e | .member _ e _ _ | .cast _ _ e | .sizeofExpr _ e => e.Within L
  | .binary _ _ x y | .assign _ _ x y | .index _ x y | .comma _ x y => x.Within L ∧ y.Within L
  | .conditional _ c x y => c.Within L ∧ x.Within L ∧ y.Within L
  | .call _ _ _ args => WithinAll L args
  | _ => True

def WithinAll (L : Nat → Prop) : List Expr → Prop
  | [] => True
  | e :: es => e.Within L ∧ WithinAll L es

end

mutual

def WithinInit (L : Nat → Prop) : Initializer → Prop
  | .expr e => e.Within L
  | .list items _ => WithinInits L items
  | .construct args _ => WithinAll L args

def WithinInits (L : Nat → Prop) : List Initializer → Prop
  | [] => True
  | item :: items => WithinInit L item ∧ WithinInits L items

end

mutual

theorem Expr.within_true : ∀ e : Expr, e.Within fun _ => True
  | .ident .. => fun _ _ => trivial
  | .unary _ _ e | .member _ e _ _ | .cast _ _ e | .sizeofExpr _ e => Expr.within_true e
  | .binary _ _ x y | .assign _ _ x y | .index _ x y | .comma _ x y => ⟨Expr.within_true x, Expr.within_true y⟩
  | .conditional _ c x y => ⟨Expr.within_true c, Expr.within_true x, Expr.within_true y⟩
  | .call _ _ _ args => withinAll_true args
  | .int .. | .float .. | .char .. | .str .. | .bool .. | .null .. | .sizeofType .. | .invalid .. => trivial

theorem withinAll_true : ∀ es : List Expr, WithinAll (fun _ => True) es
  | [] => trivial
  | e :: es => ⟨Expr.within_true e, withinAll_true es⟩

end

mutual

theorem withinInit_true : ∀ i : Initializer, WithinInit (fun _ => True) i
  | .expr e => Expr.within_true e
  | .list items _ => withinInits_true items
  | .construct args _ => withinAll_true args

theorem withinInits_true : ∀ is : List Initializer, WithinInits (fun _ => True) is
  | [] => trivial
  | i :: is => ⟨withinInit_true i, withinInits_true is⟩

end

section

variable {P : String → Binding → Prop} {L : Nat → Prop}

mutual

theorem Expr.Names.within (slots : ∀ name slot, P name (.local slot) → L slot) : ∀ {e : Expr}, e.Names P → e.Within L
  | .ident _ name _, h => fun slot same => slots name slot (same ▸ h)
  | .unary _ _ e, h | .member _ e _ _, h | .cast _ _ e, h | .sizeofExpr _ e, h => Expr.Names.within slots (e := e) h
  | .binary _ _ _ _, h | .assign _ _ _ _, h | .index _ _ _, h | .comma _ _ _, h =>
    ⟨Expr.Names.within slots h.1, Expr.Names.within slots h.2⟩
  | .conditional _ _ _ _, h =>
    ⟨Expr.Names.within slots h.1, Expr.Names.within slots h.2.1, Expr.Names.within slots h.2.2⟩
  | .call _ _ _ _, h => NamesAll.within slots h
  | .int .., _ | .float .., _ | .char .., _ | .str .., _ | .bool .., _ | .null .., _ | .sizeofType .., _
  | .invalid .., _ => trivial

theorem NamesAll.within (slots : ∀ name slot, P name (.local slot) → L slot) :
    ∀ {es : List Expr}, NamesAll P es → WithinAll L es
  | [], _ => trivial
  | _ :: _, h => ⟨Expr.Names.within slots h.1, NamesAll.within slots h.2⟩

end

mutual

theorem NamesInit.within (slots : ∀ name slot, P name (.local slot) → L slot) :
    ∀ {i : Initializer}, NamesInit P i → WithinInit L i
  | .expr _, h => Expr.Names.within slots h
  | .list _ _, h => NamesInits.within slots h
  | .construct _ _, h => NamesAll.within slots h

theorem NamesInits.within (slots : ∀ name slot, P name (.local slot) → L slot) :
    ∀ {is : List Initializer}, NamesInits P is → WithinInits L is
  | [], _ => trivial
  | _ :: _, h => ⟨NamesInit.within slots h.1, NamesInits.within slots h.2⟩

end

end

/-! ## Statements -/

section

variable (E : Expr → Prop) (D : Decl → Prop)

def EveryForInit : ForInit Expr DeclGroup → Prop
  | .none => True
  | .decl _ g => ∀ d ∈ g.decls, D d
  | .expr _ e => E e

mutual

def EveryStmt : Stmt → Prop
  | .null _ | .break _ | .continue _ => True
  | .expr _ e => E e
  | .decl _ g => ∀ d ∈ g.decls, D d
  | .compound _ ss => EveryStmts ss
  | .ifThen _ c yes => E c ∧ EveryStmt yes
  | .ifElse _ c yes no => E c ∧ EveryStmt yes ∧ EveryStmt no
  | .while _ c body | .doWhile _ body c => E c ∧ EveryStmt body
  | .for _ init c step body =>
    EveryForInit E D init ∧ (∀ e, c = some e → E e) ∧ (∀ e, step = some e → E e) ∧ EveryStmt body
  | .return _ value => ∀ e, value = some e → E e

def EveryStmts : List Stmt → Prop
  | [] => True
  | s :: ss => EveryStmt s ∧ EveryStmts ss

end

end

variable {E : Expr → Prop} {D : Decl → Prop}

mutual

/-- What holds of all expressions and declarations holds of those in a statement. -/
theorem everyStmt_of_all (hE : ∀ e, E e) (hD : ∀ d, D d) : ∀ s : Stmt, EveryStmt E D s
  | .null _ | .break _ | .continue _ => trivial
  | .expr _ e => hE e
  | .decl .. => fun d _ => hD d
  | .compound _ ss => everyStmts_of_all hE hD ss
  | .ifThen _ _ yes => ⟨hE _, everyStmt_of_all hE hD yes⟩
  | .ifElse _ _ yes no => ⟨hE _, everyStmt_of_all hE hD yes, everyStmt_of_all hE hD no⟩
  | .while _ _ body | .doWhile _ body _ => ⟨hE _, everyStmt_of_all hE hD body⟩
  | .for _ init _ _ body => by
    refine ⟨?_, fun e _ => hE e, fun e _ => hE e, everyStmt_of_all hE hD body⟩
    cases init with
    | none => trivial
    | decl _ g => exact fun d _ => hD d
    | expr _ e => exact hE e
  | .return .. => fun e _ => hE e

theorem everyStmts_of_all (hE : ∀ e, E e) (hD : ∀ d, D d) : ∀ ss : List Stmt, EveryStmts E D ss
  | [] => trivial
  | s :: ss => ⟨everyStmt_of_all hE hD s, everyStmts_of_all hE hD ss⟩

end

variable {E' E'' : Expr → Prop} {D' D'' : Decl → Prop}

mutual

/-- Two things that hold of all parts of a statement, taken together. -/
theorem EveryStmt.both (hE : ∀ e, E e → E' e → E'' e) (hD : ∀ d, D d → D' d → D'' d) :
    ∀ {s : Stmt}, EveryStmt E D s → EveryStmt E' D' s → EveryStmt E'' D'' s
  | .null _, _, _ | .break _, _, _ | .continue _, _, _ => trivial
  | .expr .., h, h' => hE _ h h'
  | .decl .., h, h' => fun d mem => hD d (h d mem) (h' d mem)
  | .compound .., h, h' => EveryStmts.both hE hD h h'
  | .ifThen .., h, h' => ⟨hE _ h.1 h'.1, h.2.both hE hD h'.2⟩
  | .ifElse .., h, h' => ⟨hE _ h.1 h'.1, h.2.1.both hE hD h'.2.1, h.2.2.both hE hD h'.2.2⟩
  | .while .., h, h' | .doWhile .., h, h' => ⟨hE _ h.1 h'.1, h.2.both hE hD h'.2⟩
  | .for _ init .., h, h' => by
    refine ⟨?_, fun e given => hE e (h.2.1 e given) (h'.2.1 e given),
      fun e given => hE e (h.2.2.1 e given) (h'.2.2.1 e given), h.2.2.2.both hE hD h'.2.2.2⟩
    cases init with
    | none => trivial
    | decl _ g => exact fun d mem => hD d (h.1 d mem) (h'.1 d mem)
    | expr _ e => exact hE e h.1 h'.1
  | .return .., h, h' => fun e given => hE e (h e given) (h' e given)

theorem EveryStmts.both (hE : ∀ e, E e → E' e → E'' e) (hD : ∀ d, D d → D' d → D'' d) :
    ∀ {ss : List Stmt}, EveryStmts E D ss → EveryStmts E' D' ss → EveryStmts E'' D'' ss
  | [], _, _ => trivial
  | _ :: _, h, h' => ⟨h.1.both hE hD h'.1, EveryStmts.both hE hD h.2 h'.2⟩

end

end IncrementalC.Typed
