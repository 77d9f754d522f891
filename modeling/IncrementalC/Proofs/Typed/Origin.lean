import IncrementalC.Proofs.Analysis.Accepted
import IncrementalC.Proofs.Analysis.Change

/-!
# Typed trees and the trees that they are made from

`t.Of N e`: the typed tree `t` has the shape of the written tree `e`, and where `t` holds a type, `e` holds specifiers
and a declarator that stand for it by `N`. The analysis makes such a tree of what it accepts (`Analyze.expr_of`).
`e.Alike N e'` compares two written trees in the same way, without regard to places. Two trees of which the same typed
tree can be made are alike.
-/
namespace IncrementalC
set_option autoImplicit false
open Relation

/-! ## Written trees -/

namespace Syntax

mutual

/-- The trees are equal up to places and to the type names, which are compared by `N`. -/
def Expr.Alike (N : DeclSpec → Declarator → DeclSpec → Declarator → Prop) : Expr → Expr → Prop
  | .int _ v suffix, e' => ∃ s, e' = .int s v suffix
  | .float _ x single, e' => ∃ s, e' = .float s x single
  | .char _ c, e' => ∃ s, e' = .char s c
  | .str _ text, e' => ∃ s, e' = .str s text
  | .bool _ b, e' => ∃ s, e' = .bool s b
  | .null _, e' => ∃ s, e' = .null s
  | .ident _ name, e' => ∃ s, e' = .ident s name
  | .unary _ op x, e' => ∃ s x', e' = .unary s op x' ∧ x.Alike N x'
  | .binary _ op x y, e' => ∃ s x' y', e' = .binary s op x' y' ∧ x.Alike N x' ∧ y.Alike N y'
  | .assign _ op x y, e' => ∃ s x' y', e' = .assign s op x' y' ∧ x.Alike N x' ∧ y.Alike N y'
  | .conditional _ c x y, e' =>
    ∃ s c' x' y', e' = .conditional s c' x' y' ∧ c.Alike N c' ∧ x.Alike N x' ∧ y.Alike N y'
  | .call _ f args, e' => ∃ s f' args', e' = .call s f' args' ∧ f.Alike N f' ∧ AlikeAll N args args'
  | .index _ x y, e' => ∃ s x' y', e' = .index s x' y' ∧ x.Alike N x' ∧ y.Alike N y'
  | .member _ x field arrow, e' => ∃ s x', e' = .member s x' field arrow ∧ x.Alike N x'
  | .cast _ spec d x, e' => ∃ s spec' d' x', e' = .cast s spec' d' x' ∧ N spec d spec' d' ∧ x.Alike N x'
  | .sizeofType _ spec d, e' => ∃ s spec' d', e' = .sizeofType s spec' d' ∧ N spec d spec' d'
  | .sizeofExpr _ x, e' => ∃ s x', e' = .sizeofExpr s x' ∧ x.Alike N x'
  | .comma _ x y, e' => ∃ s x' y', e' = .comma s x' y' ∧ x.Alike N x' ∧ y.Alike N y'

def AlikeAll (N : DeclSpec → Declarator → DeclSpec → Declarator → Prop) : List Expr → List Expr → Prop
  | [], es' => es' = []
  | e :: es, es' => ∃ e' rest, es' = e' :: rest ∧ e.Alike N e' ∧ AlikeAll N es rest

end

end Syntax

/-! ## Typed trees -/

namespace Typed

open Syntax (DeclSpec Declarator)

mutual

def Expr.Of (N : Ty → DeclSpec → Declarator → Prop) : Expr → Syntax.Expr → Prop
  | .int _ v suffix, e => ∃ s, e = .int s v suffix
  | .float _ x single, e => ∃ s, e = .float s x single
  | .char _ c, e => ∃ s, e = .char s c
  | .str _ text, e => ∃ s, e = .str s text
  | .bool _ b, e => ∃ s, e = .bool s b
  | .null _, e => ∃ s, e = .null s
  | .ident _ name _, e => ∃ s, e = .ident s name
  | .unary _ op x, e => ∃ s x', e = .unary s op x' ∧ x.Of N x'
  | .binary _ op x y, e => ∃ s x' y', e = .binary s op x' y' ∧ x.Of N x' ∧ y.Of N y'
  | .assign _ op x y, e => ∃ s x' y', e = .assign s op x' y' ∧ x.Of N x' ∧ y.Of N y'
  | .conditional _ c x y, e => ∃ s c' x' y', e = .conditional s c' x' y' ∧ c.Of N c' ∧ x.Of N x' ∧ y.Of N y'
  | .call _ callee _ args, e => ∃ s s' args', e = .call s (.ident s' callee) args' ∧ OfAll N args args'
  | .index _ x y, e => ∃ s x' y', e = .index s x' y' ∧ x.Of N x' ∧ y.Of N y'
  | .member _ x field arrow, e => ∃ s x', e = .member s x' field arrow ∧ x.Of N x'
  | .cast _ target x, e => ∃ s spec d x', e = .cast s spec d x' ∧ N target spec d ∧ x.Of N x'
  | .sizeofType _ target, e => ∃ s spec d, e = .sizeofType s spec d ∧ N target spec d
  | .sizeofExpr _ x, e => ∃ s x', e = .sizeofExpr s x' ∧ x.Of N x'
  | .comma _ x y, e => ∃ s x' y', e = .comma s x' y' ∧ x.Of N x' ∧ y.Of N y'
  | .invalid _, _ => False

def OfAll (N : Ty → DeclSpec → Declarator → Prop) : List Expr → List Syntax.Expr → Prop
  | [], es => es = []
  | t :: ts, es => ∃ e rest, es = e :: rest ∧ t.Of N e ∧ OfAll N ts rest

end

variable {N N' : Ty → DeclSpec → Declarator → Prop}

mutual

theorem Expr.Of.mono (weaker : ∀ ty spec d, N ty spec d → N' ty spec d) :
    ∀ {t : Expr} {e : Syntax.Expr}, t.Of N e → t.Of N' e
  | .int .., _, h | .float .., _, h | .char .., _, h | .str .., _, h | .bool .., _, h | .null .., _, h
  | .ident .., _, h => h
  | .unary .., _, ⟨s, x, same, hx⟩ => ⟨s, x, same, hx.mono weaker⟩
  | .binary .., _, ⟨s, x, y, same, hx, hy⟩ => ⟨s, x, y, same, hx.mono weaker, hy.mono weaker⟩
  | .assign .., _, ⟨s, x, y, same, hx, hy⟩ => ⟨s, x, y, same, hx.mono weaker, hy.mono weaker⟩
  | .conditional .., _, ⟨s, c, x, y, same, hc, hx, hy⟩ =>
    ⟨s, c, x, y, same, hc.mono weaker, hx.mono weaker, hy.mono weaker⟩
  | .call .., _, ⟨s, s', args, same, hargs⟩ => ⟨s, s', args, same, hargs.mono weaker⟩
  | .index .., _, ⟨s, x, y, same, hx, hy⟩ => ⟨s, x, y, same, hx.mono weaker, hy.mono weaker⟩
  | .member .., _, ⟨s, x, same, hx⟩ => ⟨s, x, same, hx.mono weaker⟩
  | .cast .., _, ⟨s, spec, d, x, same, names, hx⟩ => ⟨s, spec, d, x, same, weaker _ _ _ names, hx.mono weaker⟩
  | .sizeofType .., _, ⟨s, spec, d, same, names⟩ => ⟨s, spec, d, same, weaker _ _ _ names⟩
  | .sizeofExpr .., _, ⟨s, x, same, hx⟩ => ⟨s, x, same, hx.mono weaker⟩
  | .comma .., _, ⟨s, x, y, same, hx, hy⟩ => ⟨s, x, y, same, hx.mono weaker, hy.mono weaker⟩

theorem OfAll.mono (weaker : ∀ ty spec d, N ty spec d → N' ty spec d) :
    ∀ {ts : List Expr} {es : List Syntax.Expr}, OfAll N ts es → OfAll N' ts es
  | [], _, h => h
  | _ :: _, _, ⟨e, es, same, he, hes⟩ => ⟨e, es, same, he.mono weaker, hes.mono weaker⟩

end

mutual

/-- Trees of which the same typed tree can be made are alike. -/
theorem Expr.Of.alike : ∀ {t : Expr} {e e' : Syntax.Expr}, t.Of N e → t.Of N' e' →
    e.Alike (fun spec d spec' d' => ∃ ty, N ty spec d ∧ N' ty spec' d') e'
  | .int .., _, _, ⟨_, rfl⟩, h | .float .., _, _, ⟨_, rfl⟩, h | .char .., _, _, ⟨_, rfl⟩, h
  | .str .., _, _, ⟨_, rfl⟩, h | .bool .., _, _, ⟨_, rfl⟩, h | .null .., _, _, ⟨_, rfl⟩, h
  | .ident .., _, _, ⟨_, rfl⟩, h => h
  | .unary .., _, _, ⟨_, _, rfl, hx⟩, ⟨s, x', same, hx'⟩ => ⟨s, x', same, hx.alike hx'⟩
  | .binary .., _, _, ⟨_, _, _, rfl, hx, hy⟩, ⟨s, x', y', same, hx', hy'⟩ =>
    ⟨s, x', y', same, hx.alike hx', hy.alike hy'⟩
  | .assign .., _, _, ⟨_, _, _, rfl, hx, hy⟩, ⟨s, x', y', same, hx', hy'⟩ =>
    ⟨s, x', y', same, hx.alike hx', hy.alike hy'⟩
  | .conditional .., _, _, ⟨_, _, _, _, rfl, hc, hx, hy⟩, ⟨s, c', x', y', same, hc', hx', hy'⟩ =>
    ⟨s, c', x', y', same, hc.alike hc', hx.alike hx', hy.alike hy'⟩
  | .call .., _, _, ⟨_, _, _, rfl, hargs⟩, ⟨s, s', args', same, hargs'⟩ =>
    ⟨s, _, args', same, ⟨s', rfl⟩, hargs.alike hargs'⟩
  | .index .., _, _, ⟨_, _, _, rfl, hx, hy⟩, ⟨s, x', y', same, hx', hy'⟩ =>
    ⟨s, x', y', same, hx.alike hx', hy.alike hy'⟩
  | .member .., _, _, ⟨_, _, rfl, hx⟩, ⟨s, x', same, hx'⟩ => ⟨s, x', same, hx.alike hx'⟩
  | .cast .., _, _, ⟨_, _, _, _, rfl, names, hx⟩, ⟨s, spec', d', x', same, names', hx'⟩ =>
    ⟨s, spec', d', x', same, ⟨_, names, names'⟩, hx.alike hx'⟩
  | .sizeofType .., _, _, ⟨_, _, _, rfl, names⟩, ⟨s, spec', d', same, names'⟩ =>
    ⟨s, spec', d', same, _, names, names'⟩
  | .sizeofExpr .., _, _, ⟨_, _, rfl, hx⟩, ⟨s, x', same, hx'⟩ => ⟨s, x', same, hx.alike hx'⟩
  | .comma .., _, _, ⟨_, _, _, rfl, hx, hy⟩, ⟨s, x', y', same, hx', hy'⟩ =>
    ⟨s, x', y', same, hx.alike hx', hy.alike hy'⟩

theorem OfAll.alike : ∀ {ts : List Expr} {es es' : List Syntax.Expr}, OfAll N ts es → OfAll N' ts es' →
    Syntax.AlikeAll (fun spec d spec' d' => ∃ ty, N ty spec d ∧ N' ty spec' d') es es'
  | [], _, _, rfl, h => h
  | _ :: _, _, _, ⟨_, _, rfl, he, hes⟩, ⟨e', es', same, he', hes'⟩ =>
    ⟨e', es', same, he.alike he', hes.alike hes'⟩

end

/-- A place of its own makes no difference. -/
theorem Expr.Of.withSpan {t : Expr} {e : Syntax.Expr} (h : t.Of N e) (s : Span) : t.Of N (e.withSpan s) := by
  cases t with
  | int | float | char | str | bool | null | ident =>
    obtain ⟨_, rfl⟩ := h
    exact ⟨s, rfl⟩
  | unary | member | sizeofExpr =>
    obtain ⟨_, x, rfl, hx⟩ := h
    exact ⟨s, x, rfl, hx⟩
  | binary | assign | index | comma =>
    obtain ⟨_, x, y, rfl, hxy⟩ := h
    exact ⟨s, x, y, rfl, hxy⟩
  | conditional =>
    obtain ⟨_, c, x, y, rfl, hcxy⟩ := h
    exact ⟨s, c, x, y, rfl, hcxy⟩
  | call =>
    obtain ⟨_, s', args, rfl, hargs⟩ := h
    exact ⟨s, s', args, rfl, hargs⟩
  | cast =>
    obtain ⟨_, spec, d, x, rfl, hx⟩ := h
    exact ⟨s, spec, d, x, rfl, hx⟩
  | sizeofType =>
    obtain ⟨_, spec, d, rfl, names⟩ := h
    exact ⟨s, spec, d, rfl, names⟩
  | invalid => exact h.elim

end Typed

/-! ## What the analysis makes of a written tree -/

namespace Analyze

open Typed

/-- The type that specifiers and a declarator stand for. -/
def namedType (spec : Syntax.DeclSpec) (d : Syntax.Declarator) : Analyze Ty := do declaredType (← baseType spec) d

/-- On the way from `a` to `b` the specifiers and the declarator stood for the type. -/
def Named (a b : Analysis) (ty : Ty) (spec : Syntax.DeclSpec) (d : Syntax.Declarator) : Prop :=
  ∃ c c', ReflTransGen Mention a c ∧ (namedType spec d).run c = (ty, c') ∧ ReflTransGen Mention c' b

variable {a b : Analysis}

theorem Named.widen {a' b' : Analysis} {ty : Ty} {spec : Syntax.DeclSpec} {d : Syntax.Declarator} (h : Named a b ty spec d)
    (before : ReflTransGen Mention a' a) (behind : ReflTransGen Mention b b') : Named a' b' ty spec d := by
  obtain ⟨c, c', first, run, second⟩ := h
  exact ⟨c, c', before.trans first, run, second.trans behind⟩

/-- `t` is made of `e` on the way from `a` to `b`. -/
def MadeOf (a b : Analysis) (t : Expr) (e : Syntax.Expr) : Prop := t.Of (Named a b) e

def MadeOfAll (a b : Analysis) (ts : List Expr) (es : List Syntax.Expr) : Prop := OfAll (Named a b) ts es

theorem MadeOf.widen {a' b' : Analysis} {t : Expr} {e : Syntax.Expr} (h : MadeOf a b t e)
    (before : ReflTransGen Mention a' a) (behind : ReflTransGen Mention b b') : MadeOf a' b' t e :=
  h.mono fun _ _ _ named => named.widen before behind

theorem MadeOfAll.widen {a' b' : Analysis} {ts : List Expr} {es : List Syntax.Expr} (h : MadeOfAll a b ts es)
    (before : ReflTransGen Mention a' a) (behind : ReflTransGen Mention b b') : MadeOfAll a' b' ts es :=
  h.mono fun _ _ _ named => named.widen before behind

theorem Does.namedType (spec : Syntax.DeclSpec) (d : Syntax.Declarator) : Does Mention (namedType spec d) :=
  bind (baseType spec) fun base => declaredType base d

/-- Of two operands the second one is analysed where the first one ends, and something may follow. -/
theorem MadeOf.pair {a₁ a₂ : Analysis} {t u : Expr} {x y : Syntax.Expr} (hx : MadeOf a a₁ t x) (hy : MadeOf a₁ a₂ u y)
    (first : ReflTransGen Mention a a₁) (second : ReflTransGen Mention a₁ a₂) (behind : ReflTransGen Mention a₂ b) :
    MadeOf a b t x ∧ MadeOf a b u y :=
  ⟨hx.widen .refl (second.trans behind), hy.widen first behind⟩

mutual

/-- The analysis makes its tree of the one that it is given. -/
theorem madeOf_expr {a c : Analysis} : ∀ {e : Syntax.Expr}, ((expr e).run a).1.Accepted c →
    MadeOf a ((expr e).run a).2 ((expr e).run a).1 e
  | .int span _ _, _ | .float span _ _, _ | .char span _, _ | .str span _, _ | .bool span _, _ | .null span, _
  | .ident span _, _ => ⟨span, rfl⟩
  | .unary span op x, accepted =>
    have hx := madeOf_expr (a := a) (e := x) accepted.2
    ⟨span, x, rfl, hx.widen .refl ((Does.unaryType _ _ _).mentions _)⟩
  | .binary span op x y, accepted =>
    have hx := madeOf_expr (a := a) (e := x) accepted.2.1
    have hy := madeOf_expr (e := y) accepted.2.2
    ⟨span, x, y, rfl, hx.pair hy (Does.expr x a) (Does.expr y _) ((Does.binaryType _ _ _ _).mentions _)⟩
  | .assign span op x y, accepted =>
    have hx := madeOf_expr (a := a) (e := x) accepted.2.2.1
    have hy := madeOf_expr (e := y) accepted.2.2.2
    ⟨span, x, y, rfl, hx.pair hy (Does.expr x a) (Does.expr y _) ((Does.assignType _ _ _ _).mentions _)⟩
  | .conditional span test x y, accepted =>
    have htest := madeOf_expr (a := a) (e := test) accepted.2.1
    have hx := madeOf_expr (e := x) accepted.2.2.1
    have hy := madeOf_expr (e := y) accepted.2.2.2
    have rule := (Does.conditionalType _ _ _ span).mentions _
    have behind := (Does.expr y _).trans rule
    have hxy := hx.pair hy (Does.expr x _) (Does.expr y _) rule
    ⟨span, test, x, y, rfl, htest.widen .refl ((Does.expr x _).trans behind), hxy.1.widen (Does.expr test a) .refl,
      hxy.2.widen (Does.expr test a) .refl⟩
  | .call span callee args, accepted => by
    cases callee with
    | ident s name =>
      have hargs := madeOfAll_exprs (a := ((resolveCallee name s).run a).2) args accepted.2.1
      exact ⟨span, s, args, rfl,
        hargs.widen (Does.resolveCallee name s a) ((Does.callType name _ _ span).mentions _)⟩
    | _ => exact accepted.elim
  | .index span x y, accepted =>
    have hx := madeOf_expr (a := a) (e := x) accepted.2.1
    have hy := madeOf_expr (e := y) accepted.2.2
    ⟨span, x, y, rfl, hx.pair hy (Does.expr x a) (Does.expr y _) ((Does.indexType _ _ _).mentions _)⟩
  | .member span x field arrow, accepted =>
    have hx := madeOf_expr (a := a) (e := x) accepted.2.2
    ⟨span, x, rfl, hx.widen .refl ((Does.memberType _ _ _ _).mentions _)⟩
  | .cast span spec d x, accepted =>
    have hx := madeOf_expr (e := x) accepted.2.2
    have rule := (Does.castType _ _ span).mentions _
    ⟨span, spec, d, x, rfl, ⟨a, _, .refl, rfl, (Does.expr x _).trans rule⟩, hx.widen (Does.namedType spec d a) rule⟩
  | .sizeofType span spec d, _ =>
    ⟨span, spec, d, rfl, a, _, .refl, rfl, (Does.sizeofType _ span).mentions _⟩
  | .sizeofExpr span x, accepted =>
    have hx := madeOf_expr (a := a) (e := x) accepted.2
    ⟨span, x, rfl, hx.widen .refl ((Does.sizeofExprType _ _).mentions _)⟩
  | .comma span x y, accepted =>
    have hx := madeOf_expr (a := a) (e := x) accepted.2.1
    have hy := madeOf_expr (e := y) accepted.2.2
    ⟨span, x, y, rfl, hx.pair hy (Does.expr x a) (Does.expr y _) .refl⟩

theorem madeOfAll_exprs {a c : Analysis} : ∀ es : List Syntax.Expr, AcceptedAll c ((exprs es).run a).1 →
    MadeOfAll a ((exprs es).run a).2 ((exprs es).run a).1 es
  | [], _ => rfl
  | e :: es, accepted =>
    have he := madeOf_expr (a := a) (e := e) accepted.1
    have hes := madeOfAll_exprs es accepted.2
    ⟨e, es, rfl, he.widen .refl (Does.exprs es _), hes.widen (Does.expr e a) .refl⟩

end

end Analyze

end IncrementalC
