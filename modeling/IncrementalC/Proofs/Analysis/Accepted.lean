import IncrementalC.Proofs.Analysis.Sound
import IncrementalC.Proofs.Syntax.Written

/-!
# Accepted trees

What the analysis makes of a written tree when it finds no error: every node satisfies the typing
rule for its form in some sound state on the way to the present one. A later state accepts the same
trees (`Accepted.mono` and its like), so nothing is lost while the analysis goes on.
-/
namespace IncrementalC
set_option autoImplicit false
open Typed

variable {α β : Type} {a b : Analysis}

/-! ## Expressions -/

/-- In a sound state on the way to `b` the step `m` gives `x` and changes nothing. -/
def Yields (b : Analysis) (m : Analyze α) (x : α) : Prop :=
  ∃ a : Analysis, a.Sound ∧ a.Extends b ∧ m.run a = (x, a)

theorem Yields.mono {m : Analyze α} {x : α} (h : Yields a m x) (hab : a.Extends b) :
    Yields b m x := by
  obtain ⟨c, sound, hca, run⟩ := h
  exact ⟨c, sound, hca.trans hab, run⟩

/-- What an identifier can be bound to, with its type. -/
inductive Bound (a : Analysis) : Binding → Ty → Prop where
  | object {binding : Binding} {ty : Ty} (isVariable : binding.isVariable) (object : ty.IsObject) :
      Bound a binding ty
  | enumConst {v : Int64} {ty : Ty} (object : ty.IsObject) (kind : ty.scalar? = some .i32) :
      Bound a (.enumConst v) ty
  | placeholder (fallback : a.fallback ≠ none) : Bound a .placeholder .dependent

/-- What a called name can be bound to, with what is known of the callee. -/
inductive Resolved (a : Analysis) (name : String) : Binding → Analyze.Callee → Prop where
  | function {sig : FunctionSig} (declared : a.signature? name = some sig) (sound : sig.Sound) :
      Resolved a name .function (.function sig)
  | builtin (b : Builtin) : Resolved a name (.builtin b) (.builtin b)
  | placeholder (fallback : a.fallback ≠ none) : Resolved a name .placeholder .dependent

theorem Bound.mono {binding : Binding} {ty : Ty} (h : Bound a binding ty) (hab : a.Extends b) :
    Bound b binding ty := by
  cases h with
  | object v o => exact .object v o
  | enumConst o i => exact .enumConst o i
  | placeholder f => exact .placeholder (by rw [hab.fallback]; exact f)

theorem Resolved.mono {name : String} {target : Binding} {callee : Analyze.Callee}
    (h : Resolved a name target callee) (hab : a.Extends b) : Resolved b name target callee := by
  cases h with
  | function d s => exact .function (hab.signature _ _ d) s
  | builtin b' => exact .builtin b'
  | placeholder f => exact .placeholder (by rw [hab.fallback]; exact f)

theorem Bound.definite {binding : Binding} {ty : Ty} (h : Bound a binding ty)
    (isVariable : binding.isVariable) : ty.Definite := by
  cases h with
  | object _ object => exact object.definite
  | enumConst _ _ => cases isVariable
  | placeholder _ => cases isVariable

namespace Typed

mutual

def Expr.Accepted (a : Analysis) : Expr → Prop
  | .int i v suffix => v < UInt64.size ∧ i.ty = Analyze.intLiteralType v suffix
  | .float i _ single => i.ty = if single then .float else .double
  | .char i _ => i.ty = .char
  | .str i s => i.ty = .array .char (some (s.utf8ByteSize + 1))
  | .bool i _ => i.ty = .bool
  | .null i => i.ty = .voidPtr
  | .ident i name binding => IsWord name ∧ Bound a binding i.ty
  | .unary i op e => Yields a (Analyze.unaryType op e i.span) i.ty ∧ e.Accepted a
  | .binary i op x y =>
    Yields a (Analyze.binaryType op x y i.span) i.ty ∧ x.Accepted a ∧ y.Accepted a
  | .assign i op x y =>
    (∀ o, op = some o → o.isArithmetic) ∧ Yields a (Analyze.assignType op x y i.span) i.ty
      ∧ x.Accepted a ∧ y.Accepted a
  | .conditional i c x y =>
    Yields a (Analyze.conditionalType c x y i.span) i.ty
      ∧ c.Accepted a ∧ x.Accepted a ∧ y.Accepted a
  | .call i name target args =>
    IsWord name ∧ AcceptedAll a args ∧ ∃ callee, Resolved a name target callee
      ∧ Yields a (Analyze.callType name callee args i.span) i.ty
  | .index i base index =>
    Yields a (Analyze.indexType base index i.span) i.ty ∧ base.Accepted a ∧ index.Accepted a
  | .member i base field arrow =>
    IsWord field ∧ Yields a (Analyze.memberType base field arrow i.span) i.ty ∧ base.Accepted a
  | .cast i target e =>
    target.Spelled ∧ Yields a (Analyze.castType target e i.span) i.ty ∧ e.Accepted a
  | .sizeofType i target => target.Spelled ∧ Yields a (Analyze.sizeofType target i.span) i.ty
  | .sizeofExpr i e => Yields a (Analyze.sizeofExprType e i.span) i.ty ∧ e.Accepted a
  | .comma i x y =>
    i.ty = (if x.ty.isDependent || y.ty.isDependent then .dependent else y.ty)
      ∧ x.Accepted a ∧ y.Accepted a
  | .invalid _ => False

def AcceptedAll (a : Analysis) : List Expr → Prop
  | [] => True
  | e :: es => e.Accepted a ∧ AcceptedAll a es

end

mutual

theorem Expr.Accepted.mono (hab : a.Extends b) : ∀ {e : Expr}, e.Accepted a → e.Accepted b
  | .int .., h | .float .., h | .char .., h | .str .., h | .bool .., h | .null .., h => h
  | .ident .., h => ⟨h.1, h.2.mono hab⟩
  | .unary .., h => ⟨h.1.mono hab, Expr.Accepted.mono hab h.2⟩
  | .binary .., h => ⟨h.1.mono hab, Expr.Accepted.mono hab h.2.1, Expr.Accepted.mono hab h.2.2⟩
  | .assign .., h =>
    ⟨h.1, h.2.1.mono hab, Expr.Accepted.mono hab h.2.2.1, Expr.Accepted.mono hab h.2.2.2⟩
  | .conditional .., h =>
    ⟨h.1.mono hab, Expr.Accepted.mono hab h.2.1, Expr.Accepted.mono hab h.2.2.1,
      Expr.Accepted.mono hab h.2.2.2⟩
  | .call .., h => by
    obtain ⟨word, args, callee, resolved, rule⟩ := h
    exact ⟨word, AcceptedAll.mono hab args, callee, resolved.mono hab, rule.mono hab⟩
  | .index .., h => ⟨h.1.mono hab, Expr.Accepted.mono hab h.2.1, Expr.Accepted.mono hab h.2.2⟩
  | .member .., h => ⟨h.1, h.2.1.mono hab, Expr.Accepted.mono hab h.2.2⟩
  | .cast .., h => ⟨h.1, h.2.1.mono hab, Expr.Accepted.mono hab h.2.2⟩
  | .sizeofType .., h => ⟨h.1, h.2.mono hab⟩
  | .sizeofExpr .., h => ⟨h.1.mono hab, Expr.Accepted.mono hab h.2⟩
  | .comma .., h => ⟨h.1, Expr.Accepted.mono hab h.2.1, Expr.Accepted.mono hab h.2.2⟩

theorem AcceptedAll.mono (hab : a.Extends b) : ∀ {es : List Expr}, AcceptedAll a es → AcceptedAll b es
  | [], _ => trivial
  | _ :: _, h => ⟨Expr.Accepted.mono hab h.1, AcceptedAll.mono hab h.2⟩

end

theorem AcceptedAll.of_mem {es : List Expr} (h : AcceptedAll a es) : ∀ e ∈ es, e.Accepted a := by
  induction es with
  | nil => exact fun e he => by cases he
  | cons e es ih =>
    intro e' he'
    cases he' with
    | head => exact h.1
    | tail _ he' => exact ih h.2 e' he'

/-! ## Initial values -/

/-- The value has the type of the object, or may be assigned to it. -/
def Fits (a : Analysis) (ty : Ty) (e : Expr) : Prop :=
  ty = e.ty.decay ∨ Yields a (Analyze.checkAssignable ty e .initializing) ()

mutual

def AcceptedInit (a : Analysis) (ty : Ty) : Initializer → Prop
  | .expr e =>
    e.Accepted a ∧ match ty with
      | .array elem _ => elem.isChar ∧ ∃ i s, e = .str i s
      | ty => Fits a ty e
  | .list items _ =>
    match ty with
    | .array elem _ => AcceptedElements a elem items
    | .record id =>
      ∃ r, a.types.record? id = some r ∧ r.complete ∧ AcceptedMembers a r.fields items
    | ty =>
      match items with
      | [] => True
      | [item] => AcceptedInit a ty item
      | _ => False
  | .construct args _ =>
    match args with
    | [] => True
    | [e] => ty.isArray = false ∧ e.Accepted a ∧ Fits a ty e
    | _ => False

def AcceptedElements (a : Analysis) (elem : Ty) : List Initializer → Prop
  | [] => True
  | item :: items => AcceptedInit a elem item ∧ AcceptedElements a elem items

def AcceptedMembers (a : Analysis) (fields : List Field) : List Initializer → Prop
  | [] => True
  | item :: items =>
    match fields with
    | [] => False
    | f :: fields => AcceptedInit a f.ty item ∧ AcceptedMembers a fields items

end

theorem Fits.mono {ty : Ty} {e : Expr} (hab : a.Extends b) (h : Fits a ty e) : Fits b ty e := by
  rcases h with h | h
  · exact .inl h
  · exact .inr (h.mono hab)

mutual

theorem AcceptedInit.mono (hab : a.Extends b) {ty : Ty} :
    ∀ {i : Initializer}, AcceptedInit a ty i → AcceptedInit b ty i
  | .expr e, h => by
    refine ⟨h.1.mono hab, ?_⟩
    have fits := h.2
    cases ty with
    | array elem n => exact fits
    | _ => exact Fits.mono hab fits
  | .list items s, h => by
    rw [AcceptedInit.eq_def] at h ⊢
    dsimp only at h ⊢
    cases ty with
    | array elem n => exact AcceptedElements.mono hab h
    | record id =>
      obtain ⟨r, found, complete, members⟩ := h
      exact ⟨r, hab.complete id r found complete, complete, AcceptedMembers.mono hab members⟩
    | _ =>
      match items, h with
      | [], _ => trivial
      | [item], h => exact AcceptedInit.mono hab h
  | .construct args s, h => by
    rw [AcceptedInit.eq_def] at h ⊢
    match args, h with
    | [], _ => trivial
    | [e], h => exact ⟨h.1, h.2.1.mono hab, h.2.2.mono hab⟩

theorem AcceptedElements.mono (hab : a.Extends b) {elem : Ty} :
    ∀ {is : List Initializer}, AcceptedElements a elem is → AcceptedElements b elem is
  | [], _ => trivial
  | _ :: _, h => ⟨AcceptedInit.mono hab h.1, AcceptedElements.mono hab h.2⟩

theorem AcceptedMembers.mono (hab : a.Extends b) {fields : List Field} :
    ∀ {is : List Initializer}, AcceptedMembers a fields is → AcceptedMembers b fields is
  | [], _ => trivial
  | item :: items, h => by
    rw [AcceptedMembers.eq_def] at h ⊢
    cases fields with
    | nil => exact h
    | cons f fields => exact ⟨AcceptedInit.mono hab h.1, AcceptedMembers.mono hab h.2⟩

end

/-! ## Declarations and statements -/

structure VarDecl.Accepted (a : Analysis) (v : VarDecl) : Prop where
  name : IsWord v.name
  object : v.ty.IsObject
  init : ∀ i, v.init = some i → AcceptedInit a v.ty i

structure FunctionDecl.Accepted (a : Analysis) (f : FunctionDecl) : Prop where
  name : IsWord f.name
  signature : a.signature? f.name = some ⟨f.ret, f.params.map (·.ty), f.variadic⟩
  sound : FunctionSig.Sound ⟨f.ret, f.params.map (·.ty), f.variadic⟩

def DeclKind.Accepted (a : Analysis) : DeclKind → Prop
  | .var v => v.Accepted a
  | .function f => f.Accepted a
  | .record .. | .enum .. | .typedef .. => True

def AcceptedDecls (a : Analysis) (ds : List Decl) : Prop := ∀ d ∈ ds, d.kind.Accepted a

/-- An expression that decides where to go on. -/
def AcceptedCondition (a : Analysis) (e : Expr) : Prop :=
  e.Accepted a ∧ (e.ty.isScalar ∨ e.ty.isDependent)

def AcceptedForInit (a : Analysis) : ForInit Expr DeclGroup → Prop
  | .none => True
  | .decl _ g => AcceptedDecls a g.decls
  | .expr _ e => e.Accepted a

/-- What a function that gives a value of type `ret` returns. -/
def AcceptedResult (a : Analysis) (ret : Ty) : Option Expr → Prop
  | none => ret.isVoid
  | some e =>
    e.Accepted a ∧ if ret.isVoid then (e.ty.isVoid : Prop)
      else Yields a (Analyze.checkAssignable ret e .returning) ()

mutual

def AcceptedStmt (a : Analysis) (ret : Ty) (inLoop : Bool) : Stmt → Prop
  | .null _ => True
  | .expr _ e => e.Accepted a
  | .decl _ g => AcceptedDecls a g.decls
  | .compound _ ss => AcceptedStmts a ret inLoop ss
  | .ifThen _ c yes => AcceptedCondition a c ∧ AcceptedStmt a ret inLoop yes
  | .ifElse _ c yes no =>
    AcceptedCondition a c ∧ AcceptedStmt a ret inLoop yes ∧ AcceptedStmt a ret inLoop no
  | .while _ c body | .doWhile _ body c => AcceptedCondition a c ∧ AcceptedStmt a ret true body
  | .for _ init c step body =>
    AcceptedForInit a init ∧ (∀ e, c = some e → AcceptedCondition a e)
      ∧ (∀ e, step = some e → e.Accepted a) ∧ AcceptedStmt a ret true body
  | .break _ | .continue _ => inLoop
  | .return _ value => AcceptedResult a ret value

def AcceptedStmts (a : Analysis) (ret : Ty) (inLoop : Bool) : List Stmt → Prop
  | [] => True
  | s :: ss => AcceptedStmt a ret inLoop s ∧ AcceptedStmts a ret inLoop ss

end

structure TopLevel.Accepted (a : Analysis) (t : TopLevel) : Prop where
  decls : AcceptedDecls a t.group.decls
  body : ∀ f s, t.function? = some f → t.body = some s → AcceptedStmt a f.ret false s

theorem TopLevel.function?_eq_some {t : TopLevel} {f : FunctionDecl} (h : t.function? = some f) :
    ∃ d, t.group.decls.getLast? = some d ∧ d.kind = .function f := by
  obtain ⟨-, -, h⟩ := Option.bind_eq_some_iff.mp h
  obtain ⟨d, hd, h⟩ := Option.bind_eq_some_iff.mp h
  refine ⟨d, hd, ?_⟩
  split at h
  · rename_i f' kind
    cases h
    exact kind
  · cases h

theorem DeclKind.Accepted.mono (hab : a.Extends b) {k : DeclKind} (h : k.Accepted a) :
    k.Accepted b := by
  cases k with
  | var v => exact ⟨h.name, h.object, fun i hi => (h.init i hi).mono hab⟩
  | function f => exact ⟨h.name, hab.signature _ _ h.signature, h.sound⟩
  | _ => trivial

theorem AcceptedDecls.mono (hab : a.Extends b) {ds : List Decl} (h : AcceptedDecls a ds) :
    AcceptedDecls b ds :=
  fun d hd => (h d hd).mono hab

theorem AcceptedCondition.mono (hab : a.Extends b) {e : Expr} (h : AcceptedCondition a e) :
    AcceptedCondition b e :=
  ⟨h.1.mono hab, h.2⟩

theorem AcceptedForInit.mono (hab : a.Extends b) {i : ForInit Expr DeclGroup}
    (h : AcceptedForInit a i) : AcceptedForInit b i := by
  cases i with
  | none => trivial
  | decl _ g => exact AcceptedDecls.mono hab h
  | expr _ e => exact Expr.Accepted.mono hab h

theorem AcceptedResult.mono (hab : a.Extends b) {ret : Ty} {value : Option Expr}
    (h : AcceptedResult a ret value) : AcceptedResult b ret value := by
  cases value with
  | none => exact h
  | some e =>
    refine ⟨h.1.mono hab, ?_⟩
    have fits := h.2
    split at fits
    · rename_i void
      rw [if_pos void]
      exact fits
    · rename_i notVoid
      rw [if_neg notVoid]
      exact fits.mono hab

mutual

theorem AcceptedStmt.mono (hab : a.Extends b) {ret : Ty} {inLoop : Bool} :
    ∀ {s : Stmt}, AcceptedStmt a ret inLoop s → AcceptedStmt b ret inLoop s
  | .null _, _ => trivial
  | .break _, h | .continue _, h => h
  | .expr .., h => Expr.Accepted.mono hab h
  | .decl .., h => AcceptedDecls.mono hab h
  | .compound .., h => AcceptedStmts.mono hab h
  | .ifThen .., h => ⟨h.1.mono hab, AcceptedStmt.mono hab h.2⟩
  | .ifElse .., h => ⟨h.1.mono hab, AcceptedStmt.mono hab h.2.1, AcceptedStmt.mono hab h.2.2⟩
  | .while .., h => ⟨h.1.mono hab, AcceptedStmt.mono hab h.2⟩
  | .doWhile .., h => ⟨h.1.mono hab, AcceptedStmt.mono hab h.2⟩
  | .for .., h =>
    ⟨h.1.mono hab, fun e he => (h.2.1 e he).mono hab, fun e he => (h.2.2.1 e he).mono hab,
      AcceptedStmt.mono hab h.2.2.2⟩
  | .return .., h => AcceptedResult.mono hab h

theorem AcceptedStmts.mono (hab : a.Extends b) {ret : Ty} {inLoop : Bool} :
    ∀ {ss : List Stmt}, AcceptedStmts a ret inLoop ss → AcceptedStmts b ret inLoop ss
  | [], _ => trivial
  | _ :: _, h => ⟨AcceptedStmt.mono hab h.1, AcceptedStmts.mono hab h.2⟩

end

end Typed

end IncrementalC
