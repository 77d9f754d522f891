import IncrementalC.Proofs.Analysis.Rules
import IncrementalC.Proofs.Deferred.Parts

/-!
# Types where every name is known

The type of an accepted expression is definite if the types of its operands are and it names nothing unknown
(`Expr.Accepted.definite_of_operands`). Without a fallback every name in an accepted expression is declared.
Then its type is definite (`Expr.Accepted.definite`), and what can be assigned to is an object
(`Expr.Accepted.isObject`).
-/
namespace IncrementalC
set_option autoImplicit false
open Typed

/-! ## Types -/

namespace Ty

theorem Definite.promote {t : Ty} (h : t.Definite) : t.promote.Definite := by
  cases t with
  | int k =>
    unfold Ty.promote
    dsimp only
    split <;> trivial
  | bool | enum _ => trivial
  | _ => exact h

theorem Definite.common {s t : Ty} (hs : s.Definite) : (Ty.common s t).Definite := by
  unfold Ty.common
  split
  · trivial
  split
  · trivial
  split
  · trivial
  split
  · trivial
  · exact hs.promote

theorem Definite.pointee {t s : Ty} (h : t.Definite) (hs : t.pointee? = some s) : s.Definite := by
  cases t <;> cases hs <;> exact h

theorem Definite.pointeeOfDecay {t s : Ty} (h : t.Definite) (hs : t.decay = .pointer s) : s.Definite := by
  cases t <;> cases hs <;> exact h

end Ty

theorem Analyze.BinaryRule.definite {op : BinaryOp} {s t ty : Ty} (h : BinaryRule op s t ty)
    (hs : s.Definite) (ht : t.Definite) : ty.Definite := by
  cases h with
  | logical | compared | difference => trivial
  | dynamic => split <;> trivial
  | common => exact hs.common
  | shifted => exact hs.promote
  | offset => exact hs
  | offsetLeft => exact ht

/-! ## Expressions -/

namespace Typed

variable {a : Analysis}

/-- A bound identifier is an object or an enumerator. -/
theorem bound_cases {binding : Binding} {ty : Ty} (h : Bound a binding ty)
    (noFallback : a.fallback = none) :
    ty.IsObject ∧ (binding.isVariable ∨ ∃ v, binding = .enumConst v) := by
  cases h with
  | object isVariable object => exact ⟨object, .inl isVariable⟩
  | enumConst object _ => exact ⟨object, .inr ⟨_, rfl⟩⟩
  | placeholder fallback => exact absurd noFallback fallback

theorem Expr.Accepted.null {e : Expr} (h : e.Accepted a) : ∀ i, e = .null i → i.ty = .voidPtr := by
  rintro i rfl
  exact h

/-- The rule for a called function gives what the function returns. -/
theorem callType_accepts {name : String} {target : Binding} {callee : Analyze.Callee}
    {args : List Expr} {span : Span} {ty : Ty} (resolved : Resolved a name target callee)
    (known : target ≠ .placeholder) (rule : Yields a (Analyze.callType name callee args span) ty) :
    (∃ sig, target = .function ∧ a.signature? name = some sig ∧ sig.Sound ∧ ty = sig.ret)
      ∨ (∃ b sig, target = .builtin b ∧ b.signature? = some sig ∧ ty = sig.ret)
      ∨ ∃ b e, target = .builtin b ∧ b.signature? = none ∧ ty = .void ∧ args = [e] := by
  obtain ⟨c, -, -, run⟩ := rule
  cases resolved with
  | function declared sound => exact .inl ⟨_, rfl, declared, sound, Analyze.checkCall_accepts run⟩
  | builtin b =>
    unfold Analyze.callType at run
    dsimp only at run
    split at run
    · rename_i sig hsig
      exact .inr (.inl ⟨b, sig, rfl, hsig, Analyze.checkCall_accepts run⟩)
    · rename_i hsig
      obtain ⟨void, e, single⟩ := Analyze.checkHook_accepts run
      exact .inr (.inr ⟨b, e, rfl, hsig, void, single⟩)
  | placeholder _ => exact absurd rfl known

theorem Expr.Accepted.names_known {e : Expr} (h : e.Accepted a) (noFallback : a.fallback = none) :
    e.binding? ≠ some .placeholder := by
  cases e with
  | ident i name binding =>
    have bound : Bound a binding i.ty := h.2
    generalize i.ty = ty at bound
    rintro ⟨⟩
    cases bound with
    | object isVariable _ => cases isVariable
    | placeholder fallback => exact fallback noFallback
  | call i name target args =>
    obtain ⟨-, -, callee, resolved, -⟩ := h
    rintro ⟨⟩
    cases resolved with
    | placeholder fallback => exact fallback noFallback
  | _ => exact nofun

/-! ## Operands -/

/-- The operands on whose types the type of an expression hangs. All of them are evaluated. -/
def Expr.typeOperands : Expr → List Expr
  | .unary _ _ x | .assign _ _ x _ | .member _ x _ _ | .cast _ _ x => [x]
  | .binary _ _ x y | .index _ x y | .comma _ x y => [x, y]
  | .conditional _ c x y => [c, x, y]
  | _ => []

@[elab_as_elim]
theorem Expr.typeOperands_induction {P : Expr → Prop} (e : Expr)
    (step : ∀ e : Expr, (∀ x ∈ e.typeOperands, P x) → P e) : P e := by
  have one {x : Expr} (hx : P x) : ∀ z ∈ [x], P z := List.forall_mem_singleton.mpr hx
  have two {x y : Expr} (hx : P x) (hy : P y) : ∀ z ∈ [x, y], P z := List.forall_mem_cons.mpr ⟨hx, one hy⟩
  induction e using Expr.rec (motive_2 := fun _ => True) with
  | unary _ _ _ ih | assign _ _ _ _ ih | member _ _ _ _ ih | cast _ _ _ ih => exact step _ (one ih)
  | binary _ _ _ _ ihx ihy | index _ _ _ ihx ihy | comma _ _ _ ihx ihy => exact step _ (two ihx ihy)
  | conditional _ _ _ _ ihc ihx ihy => exact step _ (List.forall_mem_cons.mpr ⟨ihc, two ihx ihy⟩)
  | nil | cons => trivial
  | _ => exact step _ nofun

theorem Expr.Accepted.typeOperands {e : Expr} (h : e.Accepted a) : ∀ x ∈ e.typeOperands, x.Accepted a := by
  have one {x : Expr} (hx : x.Accepted a) : ∀ z ∈ [x], z.Accepted a := List.forall_mem_singleton.mpr hx
  have two {x y : Expr} (hx : x.Accepted a) (hy : y.Accepted a) : ∀ z ∈ [x, y], z.Accepted a :=
    List.forall_mem_cons.mpr ⟨hx, one hy⟩
  cases e with
  | unary => exact one h.2
  | assign => exact one h.2.2.1
  | member | cast => exact one h.2.2
  | binary | index | comma => exact two h.2.1 h.2.2
  | conditional => exact List.forall_mem_cons.mpr ⟨h.2.1, two h.2.2.1 h.2.2.2⟩
  | _ => exact nofun

open Analyze in
theorem Expr.Accepted.definite_of_operands {e : Expr} (h : e.Accepted a)
    (operands : ∀ x ∈ e.typeOperands, x.ty.Definite) (known : e.binding? ≠ some .placeholder) : e.ty.Definite := by
  cases e with
  | int i v suffix =>
    rw [show Expr.ty (.int i v suffix) = i.ty from rfl, h.2]
    cases suffix <;> unfold intLiteralType <;> dsimp only <;> (try split) <;> (try split) <;> trivial
  | float i v single =>
    rw [show Expr.ty (.float i v single) = i.ty from rfl, show i.ty = _ from h]
    split <;> trivial
  | char i c => rw [show Expr.ty (.char i c) = .char from h]; trivial
  | str i s => rw [show Expr.ty (.str i s) = _ from h]; trivial
  | bool i b => rw [show Expr.ty (.bool i b) = _ from h]; trivial
  | null i => rw [show Expr.ty (.null i) = _ from h]; trivial
  | ident i name binding =>
    have bound : Bound a binding i.ty := h.2
    show i.ty.Definite
    generalize i.ty = ty at bound ⊢
    cases bound with
    | object _ object => exact object.definite
    | enumConst object _ => exact object.definite
    | placeholder _ => exact absurd rfl known
  | unary i op e =>
    obtain ⟨⟨c, -, -, run⟩, -⟩ := h
    have definite := operands e List.mem_cons_self
    have rule := unaryType_accepts definite.not_isDependent run
    show i.ty.Definite
    cases op with
    | neg | plus | bitNot => rw [rule.2]; exact definite.decay.promote
    | not => rw [rule.2]; trivial
    | deref => exact definite.pointeeOfDecay rule.1
    | addrOf => rw [rule.2]; exact definite
    | preInc | preDec | postInc | postDec => rw [rule.1.2]; exact definite
  | binary i op x y =>
    obtain ⟨⟨c, -, -, run⟩, hx, hy⟩ := h
    have dx := operands x List.mem_cons_self
    have dy := operands y (List.mem_cons_of_mem _ List.mem_cons_self)
    have rule := binaryType_accepts dx.not_isDependent dy.not_isDependent hx.null hy.null run
    exact rule.definite dx.decay dy.decay
  | assign i op x y =>
    obtain ⟨-, ⟨c, -, -, run⟩, -⟩ := h
    have definite := operands x List.mem_cons_self
    obtain ⟨-, -, same, -⟩ := assignType_accepts definite.not_isDependent run
    rw [show Expr.ty (.assign i op x y) = i.ty from rfl, same]
    exact definite
  | conditional i c x y =>
    obtain ⟨⟨d, -, -, run⟩, -, hx, hy⟩ := h
    obtain ⟨dc, branches⟩ := List.forall_mem_cons.mp operands
    have dx := branches x List.mem_cons_self
    have dy := branches y (List.mem_cons_of_mem _ List.mem_cons_self)
    obtain ⟨-, rule⟩ := conditionalType_accepts dc.not_isDependent dx.not_isDependent dy.not_isDependent
      hx.null hy.null run
    show i.ty.Definite
    rcases rule.oneOf with same | same | same | same <;> rw [same]
    · trivial
    · exact dx.decay.common
    · exact dx.decay
    · exact dy.decay
  | call i name target args =>
    obtain ⟨-, -, callee, resolved, rule⟩ := h
    show i.ty.Definite
    rcases callType_accepts resolved (fun same => known (congrArg some same)) rule with
      ⟨sig, -, -, sound, same⟩ | ⟨b, sig, -, hsig, same⟩ | ⟨b, e, -, -, same, -⟩
    · rw [same]
      exact sound.ret
    · rw [same]
      exact (Builtin.signature?_sound hsig).ret
    · rw [same]
      trivial
  | index i base index =>
    obtain ⟨⟨c, -, -, run⟩, -⟩ := h
    have db := operands base List.mem_cons_self
    have di := operands index (List.mem_cons_of_mem _ List.mem_cons_self)
    obtain ⟨-, ⟨pointee, -⟩ | ⟨pointee, -⟩⟩ := indexType_accepts db.not_isDependent di.not_isDependent run
    · exact db.pointee pointee
    · exact di.pointee pointee
  | member i base field arrow =>
    obtain ⟨-, ⟨c, sound, -, run⟩, -⟩ := h
    have definite := operands base List.mem_cons_self
    obtain ⟨id, r, f, -, hr, hf, same⟩ := memberType_accepts definite.not_isDependent run
    show i.ty.Definite
    rw [same]
    exact ((sound.record id r hr).fields f (List.mem_of_find?_eq_some hf)).definite
  | cast i target e =>
    obtain ⟨spelled, ⟨c, -, -, run⟩, -⟩ := h
    have definite := operands e List.mem_cons_self
    show i.ty.Definite
    rw [(castType_accepts spelled.definite.not_isDependent definite.not_isDependent run).1]
    exact spelled.definite
  | sizeofType i target =>
    obtain ⟨spelled, c, -, -, run⟩ := h
    show i.ty.Definite
    rw [sizeofType_accepts spelled.definite.not_isDependent run]
    trivial
  | sizeofExpr i e =>
    obtain ⟨⟨c, -, -, run⟩, -⟩ := h
    show i.ty.Definite
    rw [sizeofExprType_accepts (sizeofExprType_known run) run]
    trivial
  | comma i x y =>
    have dx := operands x List.mem_cons_self
    have dy := operands y (List.mem_cons_of_mem _ List.mem_cons_self)
    show i.ty.Definite
    rw [h.1, dx.not_isDependent, dy.not_isDependent]
    exact dy
  | invalid i => exact h.elim

theorem Expr.Accepted.definite {e : Expr} (h : e.Accepted a) (noFallback : a.fallback = none) : e.ty.Definite := by
  induction e using Expr.typeOperands_induction with
  | step e ih =>
    exact h.definite_of_operands (fun x mem => ih x mem (h.typeOperands x mem)) (h.names_known noFallback)

/-- What can be assigned to has the type of an object. -/
theorem Expr.Accepted.isObject {e : Expr} (h : e.Accepted a) (noFallback : a.fallback = none)
    (isLvalue : e.isLvalue) : e.ty.IsObject := by
  have definite := h.definite noFallback
  refine ⟨definite, ?_⟩
  unfold Expr.isLvalue at isLvalue
  split at isLvalue
  · exact (bound_cases h.2 noFallback).1.notVoid
  · obtain ⟨⟨c, -, -, run⟩, he⟩ := h
    exact (Analyze.unaryType_accepts (he.definite noFallback).not_isDependent run).2
  · obtain ⟨⟨c, -, -, run⟩, hb, hi⟩ := h
    exact (Analyze.indexType_accepts (hb.definite noFallback).not_isDependent
      (hi.definite noFallback).not_isDependent run).1
  · rename_i i base field arrow
    obtain ⟨-, ⟨c, sound, -, run⟩, hb⟩ := h
    obtain ⟨id, r, f, -, hr, hf, same⟩ := Analyze.memberType_accepts (hb.definite noFallback).not_isDependent run
    show i.ty ≠ .void
    rw [same]
    exact ((sound.record id r hr).fields f (List.mem_of_find?_eq_some hf)).notVoid
  · rw [definite.not_isDependent] at isLvalue
    cases isLvalue

end Typed

end IncrementalC
