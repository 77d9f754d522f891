import IncrementalC.Proofs.Analysis.Accepted

/-!
# The types of accepted expressions

A typing rule gives the dependent type or a definite one, whatever it finds wrong. So the type of an
accepted expression is dependent or hangs on no unknown name at all (`Expr.Accepted.known`).
-/
namespace IncrementalC
set_option autoImplicit false

/-! ## Types -/

/-- The type of an expression: dependent as a whole, or definite. -/
def Ty.Known (t : Ty) : Prop := t = .dependent ∨ t.Definite

namespace Ty

theorem Definite.known {t : Ty} (h : t.Definite) : t.Known := .inr h

theorem Known.definite {t : Ty} (h : t.Known) (hd : ¬t.isDependent) : t.Definite := by
  rcases h with rfl | h
  · exact absurd rfl hd
  · exact h

theorem Known.decay {t : Ty} (h : t.Known) : t.decay.Known := by
  rcases h with rfl | h
  · exact .inl rfl
  · exact .inr h.decay

theorem Known.promote {t : Ty} (h : t.Known) : t.promote.Known := by
  rcases h with rfl | h
  · exact .inl rfl
  · cases t with
    | int k =>
      refine .inr ?_
      unfold Ty.promote
      dsimp only
      split <;> trivial
    | bool => exact .inr trivial
    | enum _ => exact .inr trivial
    | _ => exact .inr h

theorem Known.common {s t : Ty} (hs : s.Known) : (Ty.common s t).Known := by
  unfold Ty.common
  split
  · exact .inr trivial
  split
  · exact .inr trivial
  split
  · exact .inr trivial
  · split
    · exact .inr trivial
    · exact hs.promote

/-- What a known pointer points to. -/
theorem Known.pointee {t s : Ty} (h : t.Known) (hp : t.decay = .pointer s) : s.Known := by
  cases t with
  | pointer t =>
    cases hp
    rcases h with h | h
    · cases h
    · exact .inr h
  | array t n =>
    cases hp
    rcases h with h | h
    · cases h
    · exact .inr h
  | _ => cases hp

end Ty

/-! ## Rules -/

namespace Analyze

/-- From sound states the step gives a type that is known. -/
def GivesKnown (m : Analyze Ty) : Prop := ∀ a : Analysis, a.Sound → Ty.Known (m.run a).1

namespace GivesKnown

variable {α : Type}

@[grind .]
theorem pure {t : Ty} (h : t.Known) : GivesKnown (Pure.pure t) := fun _ _ => h

theorem fail (problem : Problem) (span : Span) : GivesKnown (fail problem span) := fun _ _ => .inl rfl

theorem failNamed (problem : String → Problem) (ty : Ty) (span : Span) :
    GivesKnown (do Analyze.fail (problem (← typeName ty)) span) := fun _ _ => .inl rfl

theorem ite {c : Prop} [Decidable c] {m m' : Analyze Ty} (h : c → GivesKnown m)
    (h' : ¬c → GivesKnown m') : GivesKnown (if c then m else m') := by
  split
  · rename_i hc
    exact h hc
  · rename_i hc
    exact h' hc

theorem read {f : Analysis → Analyze Ty} (hf : ∀ a, a.Sound → GivesKnown (f a)) :
    GivesKnown (MonadState.get >>= f) :=
  fun a ha => hf a ha a ha

theorem unaryType {op : UnaryOp} {e : Typed.Expr} {span : Span} (he : e.ty.Known) :
    GivesKnown (unaryType op e span) := by
  have decay := he.decay
  have dynamic : Ty.Known .dynamic := .inr trivial
  refine ite (fun _ => pure (.inl rfl)) fun notDependent => ?_
  cases op with
  | neg | plus | bitNot =>
    exact ite (fun _ => pure dynamic) fun _ =>
      ite (fun _ => pure decay.promote) fun _ => failNamed _ _ _
  | not => exact ite (fun _ => pure (.inr trivial)) fun _ => failNamed _ _ _
  | deref =>
    dsimp only
    split
    · exact fail _ _
    · rename_i inner _ hinner
      exact pure (he.pointee hinner)
    · exact failNamed _ _ _
  | addrOf =>
    refine ite (fun _ => pure (.inr ?_)) fun _ => fail _ _
    refine he.definite fun dependent => notDependent ?_
    cases hty : e.ty <;> rw [hty] at dependent <;> exact dependent
  | preInc | preDec | postInc | postDec =>
    exact ite (fun _ => fail _ _) fun _ => ite (fun _ => failNamed _ _ _) fun _ => pure he

theorem binaryType {op : BinaryOp} {x y : Typed.Expr} {span : Span} (hx : x.ty.Known)
    (hy : y.ty.Known) : GivesKnown (binaryType op x y span) := by
  have definite {t : Ty} (h : t.Definite) : GivesKnown (Pure.pure t) := pure h.known
  have invalid : GivesKnown (do
      Analyze.fail (.binaryOperands (← typeName x.ty) (← typeName y.ty)) span) :=
    fun _ _ => .inl rfl
  have common : GivesKnown (Pure.pure (Ty.common x.ty.decay y.ty.decay)) := pure hx.decay.common
  refine ite (fun _ => pure (.inl rfl)) fun _ => ite (fun _ => ?_) fun _ => ite (fun _ => ?_) fun _ => ?_
  · exact ite (fun _ => definite trivial) fun _ => invalid
  · refine ite (fun _ => definite ?_) fun _ => invalid
    split <;> trivial
  · refine ite (fun _ => ?_) fun _ => ?_
    · exact read fun _ _ => ite (fun _ => definite trivial) fun _ => invalid
    · cases op with
      | add =>
        refine ite (fun _ => common) fun _ => ite (fun _ => pure hx.decay) fun _ => ?_
        exact ite (fun _ => pure hy.decay) fun _ => invalid
      | sub =>
        refine ite (fun _ => common) fun _ => ite (fun _ => pure hx.decay) fun _ => ?_
        exact ite (fun _ => definite trivial) fun _ => invalid
      | mul | div | rem | bitAnd | bitOr | bitXor => exact ite (fun _ => common) fun _ => invalid
      | shl | shr => exact ite (fun _ => pure hx.decay.promote) fun _ => invalid
      | _ => exact invalid

theorem assignType {op : Option BinaryOp} {x y : Typed.Expr} {span : Span} (hx : x.ty.Known) :
    GivesKnown (assignType op x y span) := by
  refine ite (fun _ => pure (.inl rfl)) fun _ => ite (fun _ => fail _ _) fun _ => ?_
  refine ite (fun _ => failNamed _ _ _) fun _ => ?_
  cases op with
  | some op => exact fun _ _ => hx
  | none => exact fun _ _ => hx

theorem conditionalType {c x y : Typed.Expr} {span : Span} (hx : x.ty.Known) (hy : y.ty.Known) :
    GivesKnown (conditionalType c x y span) := by
  refine read fun a _ => ite (fun _ => pure (.inl rfl)) fun _ => ite (fun _ => fail _ _) fun _ => ?_
  refine ite (fun _ => pure (.inr trivial)) fun _ => ite (fun _ => pure hx.decay.common) fun _ => ?_
  refine ite (fun _ => pure hx.decay) fun _ => ite (fun _ => pure hx.decay) fun _ => ?_
  exact ite (fun _ => pure hy.decay) fun _ _ _ => .inl rfl

theorem indexType {base index : Typed.Expr} {span : Span} (hbase : base.ty.Known)
    (hindex : index.ty.Known) : GivesKnown (indexType base index span) := by
  refine ite (fun _ => pure (.inl rfl)) fun _ => ?_
  extract_lets check
  have checks (ptr i : Typed.Expr) (hptr : ptr.ty.Known) : GivesKnown (check ptr i) := by
    refine ite (fun _ => fail _ _) fun _ => ?_
    split
    · exact fail _ _
    · exact fail _ _
    · rename_i inner _ hinner
      refine pure (hptr.pointee (s := inner) ?_)
      cases hty : ptr.ty <;> rw [hty] at hinner <;> cases hinner <;> rfl
  refine ite (fun _ => checks _ _ hbase) fun _ => ?_
  exact ite (fun _ => checks _ _ hindex) fun _ => fail _ _

theorem fieldType (record : Ty) (field : String) (span : Span) :
    GivesKnown (fieldType record field span) := by
  unfold Analyze.fieldType
  split
  · rename_i id
    refine read fun a ha => ?_
    split
    · rename_i f found
      obtain ⟨r, hr, hf⟩ := Option.bind_eq_some_iff.mp found
      exact pure (((ha.record id r hr).fields f (List.mem_of_find?_eq_some hf)).definite.known)
    · exact failNamed _ _ _
  · exact failNamed _ _ _

theorem memberType (base : Typed.Expr) (field : String) (arrow : Bool) (span : Span) :
    GivesKnown (memberType base field arrow span) := by
  refine ite (fun _ => pure (.inl rfl)) fun _ => ite (fun _ => ?_) fun _ => ?_
  · split
    · exact fieldType _ _ _
    · exact failNamed _ _ _
  · exact ite (fun _ => failNamed _ _ _) fun _ => fieldType _ _ _

theorem castType {target : Ty} {e : Typed.Expr} {span : Span} (htarget : target.Spelled) :
    GivesKnown (castType target e span) := by
  have same : GivesKnown (Pure.pure target) := pure htarget.definite.known
  refine ite (fun _ => pure (.inl rfl)) fun _ => ite (fun _ => same) fun _ => ?_
  refine ite (fun _ => failNamed _ _ _) fun _ => ite (fun _ => failNamed _ _ _) fun _ => ?_
  exact ite (fun _ _ _ => .inl rfl) fun _ => same

theorem sizeofType (ty : Ty) (span : Span) : GivesKnown (sizeofType ty span) := by
  have long : Ty.Known .unsignedLong := .inr trivial
  refine ite (fun _ => pure (.inl rfl)) fun _ => read fun a _ => ?_
  exact ite (fun _ => failNamed _ _ _) fun _ => pure long

theorem sizeofExprType (e : Typed.Expr) (span : Span) : GivesKnown (sizeofExprType e span) :=
  ite (fun _ => fail _ _) fun _ => sizeofType _ _

theorem checkCall {name : String} {sig : FunctionSig} {args : List Typed.Expr} {span : Span}
    (sound : sig.Sound) : GivesKnown (checkCall name sig args span) := by
  intro a _
  have ret : ((Analyze.checkCall name sig args span).run a).1 = sig.ret := by
    unfold Analyze.checkCall
    dsimp only
    split
    · rfl
    · split <;> rfl
  rw [ret]
  exact sound.ret.known

theorem checkHook (name : String) (b : Builtin) (args : List Typed.Expr) (span : Span) :
    GivesKnown (checkHook name b args span) := by
  unfold Analyze.checkHook
  split
  · rename_i arg
    have last : GivesKnown (do
        if arg.ty.isVoid then report .voidArgument arg.span
        return .void) :=
      ite (fun _ _ _ => .inr trivial) fun _ _ _ => .inr trivial
    refine ite (fun _ => ?_) fun _ => last
    intro a ha
    exact last _ { ha with }
  · exact fail _ _

theorem callType {name : String} {target : Typed.Binding} {callee : Callee} {args : List Typed.Expr}
    {span : Span} {b : Analysis} (resolved : Resolved b name target callee) :
    GivesKnown (callType name callee args span) := by
  unfold Analyze.callType
  cases resolved with
  | function _ sound => exact checkCall sound
  | builtin builtin =>
    dsimp only
    split
    · rename_i sig hsig
      exact checkCall (Builtin.signature?_sound hsig)
    · exact checkHook _ _ _ _
  | placeholder _ => exact pure (.inl rfl)

end GivesKnown

end Analyze

/-! ## Expressions -/

theorem Yields.known {a : Analysis} {m : Analyze Ty} {ty : Ty} (h : Yields a m ty)
    (hm : Analyze.GivesKnown m) : ty.Known := by
  obtain ⟨b, sound, -, run⟩ := h
  have known := hm b sound
  rw [run] at known
  exact known

namespace Typed

open Analyze in
/-- The type of an accepted expression is dependent or definite. -/
theorem Expr.Accepted.known {a : Analysis} {e : Expr} (h : e.Accepted a) : e.ty.Known := by
  induction e using Expr.rec
    (motive_2 := fun es => True) with
  | int i v suffix =>
    rw [show Expr.ty (.int i v suffix) = i.ty from rfl, h.2]
    cases suffix <;> unfold intLiteralType <;> dsimp only <;> (try split) <;> (try split) <;>
      exact .inr trivial
  | float i v single =>
    rw [show Expr.ty (.float i v single) = i.ty from rfl, show i.ty = _ from h]
    split <;> exact .inr trivial
  | char i c => exact .inr (by rw [show Expr.ty (.char i c) = .char from h]; trivial)
  | str i s => exact .inr (by rw [show Expr.ty (.str i s) = _ from h]; trivial)
  | bool i b => exact .inr (by rw [show Expr.ty (.bool i b) = _ from h]; trivial)
  | null i => exact .inr (by rw [show Expr.ty (.null i) = _ from h]; trivial)
  | ident i name binding =>
    have bound : Bound a binding i.ty := h.2
    show i.ty.Known
    generalize i.ty = ty at bound ⊢
    cases bound with
    | object _ object => exact object.definite.known
    | enumConst object _ => exact object.definite.known
    | placeholder _ => exact .inl rfl
  | unary i op e ih => exact h.1.known (GivesKnown.unaryType (ih h.2))
  | binary i op x y ihx ihy => exact h.1.known (GivesKnown.binaryType (ihx h.2.1) (ihy h.2.2))
  | assign i op x y ihx ihy => exact h.2.1.known (GivesKnown.assignType (ihx h.2.2.1))
  | conditional i c x y ihc ihx ihy =>
    exact h.1.known (GivesKnown.conditionalType (ihx h.2.2.1) (ihy h.2.2.2))
  | call i name target args _ =>
    obtain ⟨-, -, callee, resolved, rule⟩ := h
    exact rule.known (GivesKnown.callType resolved)
  | index i base index ihb ihi => exact h.1.known (GivesKnown.indexType (ihb h.2.1) (ihi h.2.2))
  | member i base field arrow ih => exact h.2.1.known (GivesKnown.memberType _ _ _ _)
  | cast i target e ih => exact h.2.1.known (GivesKnown.castType h.1)
  | sizeofType i target => exact h.2.known (GivesKnown.sizeofType _ _)
  | sizeofExpr i e ih => exact h.1.known (GivesKnown.sizeofExprType _ _)
  | comma i x y ihx ihy =>
    rw [show Expr.ty (.comma i x y) = i.ty from rfl, h.1]
    split
    · exact .inl rfl
    · exact ihy h.2.2
  | invalid i => exact h.elim
  | nil => trivial
  | cons => trivial

end Typed

end IncrementalC
