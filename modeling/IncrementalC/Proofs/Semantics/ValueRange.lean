import IncrementalC.Proofs.Machine.Represented
import IncrementalC.Proofs.Semantics.Delivery
import IncrementalC.Proofs.Semantics.ExpressionPreserved

/-!
# Integers on the operand stack are in the range of their type

A conversion between types of one kind has no code, and comparisons look at whole words. So all code relies on it
that the value of an expression is in the representation of its type. It is, unless the expression is worth what a
call returns, or a character or an enumerator that does not fit its type, for those are pushed as they are
(`Expr.Accepted.delivers`). Nothing is asked of the operands of an operator: the last instruction of an operator
makes its result fit.
-/
namespace IncrementalC
set_option autoImplicit false
open Lowering Analyze Structured
open Typed (Expr Info Binding)

/-- The topmost value is in the representation of the type, if that is an integer type. -/
def Ty.OnTop (ty : Ty) (os : List Value) : Prop :=
  ∀ k, kindOf? ty = some k → k.isInteger → Exec.OnTop (·.IsOf k) os

/-- The expression is worth neither what a call returns, nor a character or an enumerator out of the range of its type.
What is converted to another kind comes to its range in any case. -/
def Typed.Expr.isRanged : Expr → Bool
  | .char _ c => c ≤ 127
  | .ident _ _ (.enumConst v) => -2 ^ 31 ≤ v.toInt && v.toInt < 2 ^ 31
  | .call .. => false
  | .unary i .plus x | .cast i _ x => kindOf? x.ty != kindOf? i.ty || x.isRanged
  | .conditional i _ x y =>
    (kindOf? x.ty != kindOf? i.ty || x.isRanged) && (kindOf? y.ty != kindOf? i.ty || y.isRanged)
  | .comma _ _ y => y.isRanged
  | _ => true

namespace Structured

variable {η : Type} {evaluate : List Value → Exec η Value} {l : List Frame} {f : Frame} {R : Instr → Instr → Prop}
  {T : TypeTable} {L : Nat → Prop} {p x y : Piece} {s t ty : Ty} {k : Scalar}

theorem kind_of_isPointer (h : ty.isPointer) : kindOf? ty = some .ptr := by
  cases ty with
  | pointer _ => rfl
  | _ => cases h

/-! ## Types without integers -/

theorem delivers_of_kind (h : ∀ k, kindOf? ty = some k → k.isInteger → Delivers R evaluate l f p (Exec.OnTop (·.IsOf k))) :
    Delivers R evaluate l f p ty.OnTop :=
  fun c fills w u w' stands run k known integer => h k known integer c fills w u w' stands run

theorem delivers_other (h : ∀ k, kindOf? ty = some k → k.isInteger = false) : Delivers R evaluate l f p ty.OnTop := by
  refine delivers_of_kind fun k known integer => ?_
  rw [h k known] at integer
  cases integer

theorem delivers_pointer (h : ty.isPointer) : Delivers R evaluate l f p ty.OnTop := by
  refine delivers_other fun k known => ?_
  cases (kind_of_isPointer h).symm.trans known
  rfl

theorem delivers_aggregate (h : ty.isAggregate) : Delivers R evaluate l f p ty.OnTop := by
  refine delivers_other fun k known => ?_
  cases ty with
  | array _ _ =>
    cases known
    rfl
  | record _ => cases known
  | _ => cases h

theorem delivers_void (h : ty.isVoid) : Delivers R evaluate l f p ty.OnTop := by
  refine delivers_other fun k known => ?_
  rw [Ty.isVoid_iff.mp h] at known
  cases known

/-! ## Values and operators -/

section Operators

variable (steady : ∀ args, Exec.Steady (evaluate args)) (links : Links R)
include steady links

theorem delivers_pushInt {n : Int64} (h : ∀ k, kindOf? ty = some k → k.isInteger → k.wrap n = n) :
    Delivers R evaluate l f (.code [.pushInt n]) ty.OnTop :=
  delivers_of_kind fun k known integer => .single steady links rfl rfl
    (Exec.pushes_pushInt (P := (·.IsOf k)) (Value.isOf_int integer (h k known integer)))

theorem delivers_load (ty : Ty) (span : Span) : Delivers R evaluate l f (load T ty span) ty.OnTop := by
  unfold load
  by_cases aggregate : ty.isAggregate
  · exact delivers_aggregate aggregate
  · rw [if_neg aggregate]
    refine .need fun k known => delivers_of_kind fun k' known' integer => ?_
    cases known.symm.trans known'
    exact .single steady links rfl rfl (Exec.pushes_load (Scalar.isFloat_of_isInteger integer))

/-- The conversion has no code if the kind is the same. Then the value has to be in the representation before. -/
theorem delivers_convert (inward : p.Inward) (kinds : ∀ k, kindOf? t = some k → k.isInteger → HasKind s)
    (hp : kindOf? s = kindOf? t → Delivers R evaluate l f p s.OnTop) :
    Delivers R evaluate l f (p ++ .code (convert s t)) t.OnTop := by
  refine delivers_of_kind fun k known integer => ?_
  obtain ⟨k', known'⟩ := Option.isSome_iff_exists.mp (kinds k known integer)
  unfold convert
  rw [known, known']
  dsimp only
  by_cases same : k' = k
  · subst same
    rw [if_pos rfl]
    exact .nothing ((hp (known'.trans known.symm)).mono fun os onTop => onTop k' known' integer)
  · rw [if_neg same]
    exact .behind steady links inward (.code (List.forall_mem_singleton.mpr rfl))
      (.single steady links rfl rfl (Exec.pushes_convert (Scalar.isFloat_of_isInteger integer)))

theorem delivers_branch (composed : p.Composed L) (kinds : ∀ k, kindOf? t = some k → k.isInteger → HasKind s)
    (hp : kindOf? s = kindOf? t → Delivers R evaluate l f p s.OnTop) :
    Delivers R evaluate l f (rvalue.branch t s p) t.OnTop := by
  unfold rvalue.branch
  by_cases void : t.isVoid
  · exact delivers_void void
  · rw [if_neg void]
    exact delivers_convert steady links composed.inward kinds hp

theorem delivers_logical {op : BinaryOp} (hx : x.Inward) (hy : y.Inward) :
    Delivers R evaluate l f (logical op x y) Ty.bool.OnTop := by
  refine .logical steady links hx hy fun b os k known integer => ?_
  cases known
  refine ⟨_, os, rfl, Value.isOf_int rfl ?_⟩
  cases b <;> rfl

/-- The result of an operator fits the type, whatever its operands are. -/
theorem delivers_apply {op : BinaryOp} {operand : Ty} {problem problem' : LoweringProblem} {span : Span}
    (type : ty = if op.isComparison then .bool else operand) :
    Delivers R evaluate l f (.gen do
      let kind ← need (kindOf? operand) problem span
      return [.binary (← need (machineOp? op) problem' span) kind]) ty.OnTop := by
  refine .need fun kind known => .need fun code found => delivers_of_kind fun k known' integer => ?_
  refine .single steady links rfl rfl (Exec.pushes_binary fun a b v computed => ?_)
  cases comparison : op.isComparison with
  | true =>
    rw [type, comparison] at known'
    cases known'
    refine Operation.isOf_comparison ?_ computed
    cases op with
    | lt | le | gt | ge | eq | ne =>
      cases found
      rfl
    | _ => cases comparison
  | false =>
    rw [type, comparison] at known'
    cases known.symm.trans known'
    refine Operation.isOf_binary ?_ (Scalar.isFloat_of_isInteger integer) computed
    cases op with
    | lt | le | gt | ge | eq | ne => cases comparison
    | and | or => cases found
    | _ =>
      cases found
      rfl

theorem delivers_binary {op : BinaryOp} {i : Info} (rule : BinaryRule op s.decay t.decay i.ty) (hx : x.Composed L)
    (hy : y.Composed L) : Delivers R evaluate l f (Lowering.binary T op s t i x y) i.ty.OnTop := by
  by_cases isLogical : op.isLogical
  · unfold Lowering.binary
    rw [if_pos isLogical, rule.logical_type isLogical]
    exact delivers_logical steady links hx.inward hy.inward
  have notLogical := Bool.eq_false_iff.mpr isLogical
  have acting := Track.acting_of_rule notLogical rule
  generalize given : i.ty = ty at acting
  cases acting with
  | offset _ pointer _ => exact delivers_pointer pointer
  | offsetLeft _ _ pointer => exact delivers_pointer pointer
  | difference subtracts left right =>
    subst subtracts
    have code : Lowering.binary T .sub s t i x y = x ++ y ++ .code [.ptrDiff (pointeeStride T s.decay)] := by
      simp [Lowering.binary, BinaryOp.isLogical, operation, Track.not_isDynamic_of_isPointer left,
        Track.not_isDynamic_of_isPointer right, left, right, Track.not_isInteger_of_isPointer right]
    rw [code]
    refine .behind steady links (hx.append hy).inward (.single rfl) (delivers_of_kind fun k known integer => ?_)
    cases known
    exact .single steady links rfl rfl (Exec.pushes_ptrDiff fun n => Value.isOf_int rfl rfl)
  | numbers acts =>
    unfold Lowering.binary
    rw [notLogical, if_neg Bool.false_ne_true]
    dsimp only
    rw [acts.operation_eq]
    refine .behind steady links (((hx.append (.code (plain_convert _ _))).append hy).append (.code (plain_convert _ _))).inward
      (Quiet.inward (.need fun _ => .need fun _ => .single rfl)) (delivers_apply steady links ?_)
    rw [← given]
    cases comparison : op.isComparison with
    | true =>
      rw [given, comparison]
      rfl
    | false => rfl

theorem delivers_arithmetic {code : Code.UnaryOp} {problem : LoweringProblem} {span : Span} (hp : p.Inward)
    (notLogical : code ≠ .not) :
    Delivers R evaluate l f (p ++ .gen do return [.unary code (← need (kindOf? ty) problem span)]) ty.OnTop := by
  refine .behind steady links hp (Quiet.inward (.need fun _ => .single rfl)) (.need fun kind known => ?_)
  refine delivers_of_kind fun k known' integer => ?_
  cases known.symm.trans known'
  exact .single steady links rfl rfl
    (Exec.pushes_unary fun _ _ => Operation.isOf_unary (Scalar.isFloat_of_isInteger integer) notLogical)

theorem delivers_not {i : Info} (hp : p.Inward) : Delivers R evaluate l f (unary T .not s i p) Ty.bool.OnTop := by
  refine .behind steady links hp (Quiet.inward (.need fun _ => .single rfl)) (.need fun kind _ => ?_)
  refine delivers_of_kind fun k known integer => ?_
  cases known
  refine .single steady links rfl rfl (Exec.pushes_unary fun a v computed => ?_)
  cases computed
  exact Value.isOf_ofBool _

theorem delivers_increment {up post : Bool} {span : Span} (px : p.Composed L) :
    Delivers R evaluate l f (increment T ty up post span p) ty.OnTop := by
  refine .behind steady links px.inward (Quiet.inward (.need fun _ => .single rfl))
    (.need fun kind known => delivers_of_kind fun k known' integer => ?_)
  cases known.symm.trans known'
  exact .single steady links rfl rfl (Exec.pushes_incDec (Scalar.isFloat_of_isInteger integer))

/-- What is stored is left on the stack, in the representation of the target. -/
theorem delivers_stored {kind : Scalar} (known : kindOf? ty = some kind) (hp : p.Inward) :
    Delivers R evaluate l f (p ++ .code [.store kind]) ty.OnTop := by
  refine .behind steady links hp (.single rfl) (delivers_of_kind fun k known' integer => ?_)
  cases known.symm.trans known'
  exact .single steady links rfl rfl (Exec.pushes_store (Scalar.isFloat_of_isInteger integer))

theorem delivers_assign {op : Option BinaryOp} {span : Span} (hx : x.Composed L) (hy : y.Composed L) :
    Delivers R evaluate l f (assign T op s t span x y) s.OnTop := by
  unfold assign
  by_cases record : s.isRecord
  · exact delivers_aggregate (by rw [Ty.isAggregate, record, Bool.or_true])
  rw [if_neg record]
  cases known : kindOf? s with
  | none => exact .fail _ _
  | some kind =>
    dsimp only
    cases op with
    | none =>
      dsimp only
      rw [Piece.code_append, ← Piece.append_assoc]
      exact delivers_stored steady links known ((hx.append hy).append (.code (plain_convert _ _))).inward
    | some op =>
      dsimp only
      unfold compound
      dsimp only
      have old : (x ++ Piece.code [.dup, .load kind]).Composed L :=
        hx.append (.code (List.forall_mem_cons.mpr ⟨rfl, List.forall_mem_singleton.mpr rfl⟩))
      by_cases pointer : s.isPointer
      · exact delivers_pointer pointer
      · rw [if_neg pointer]
        generalize Typed.operationType op s t.decay = common
        have operands := ((old.append (.code (plain_convert s common))).append hy).append
          (.code (plain_convert t.decay common))
        refine .behind steady links operands.inward ?_ (.need fun code _ => .need fun kind' _ => ?_)
        · refine Quiet.inward (.need fun _ => .need fun _ => .pure (List.forall_mem_cons.mpr ⟨rfl, ?_⟩))
          exact plain_append (plain_convert _ _) (List.forall_mem_singleton.mpr rfl)
        · have computed : (Piece.code (.binary code kind' :: convert common s)).Composed L :=
            .code (List.forall_mem_cons.mpr ⟨rfl, plain_convert _ _⟩)
          have stored : Delivers R evaluate l f _ s.OnTop := delivers_stored steady links known computed.inward
          rwa [← Piece.code_append] at stored

end Operators

/-! ## Expressions -/

section Expressions

variable (steady : ∀ args, Exec.Steady (evaluate args)) (links : Links R) {a : Analysis} {i : Info} {e c x y : Expr}
include steady links

theorem delivers_unaryExpr {op : UnaryOp} (known : e.ty.isDependent = false)
    (accepted : (Expr.unary i op e).Accepted a) (ranged : (Expr.unary i op e).isRanged)
    (ih : e.isRanged → Delivers R evaluate l f (rvalue a e) e.ty.OnTop) :
    Delivers R evaluate l f (rvalue a (.unary i op e)) i.ty.OnTop := by
  obtain ⟨⟨d, -, -, run⟩, -⟩ := accepted
  have rule := unaryType_accepts known run
  have value : (rvalue a e).Composed fun _ => True := composed_rvalue e.within_true
  have place : (lvalue a e).Composed fun _ => True := composed_lvalue e.within_true
  cases op with
  | plus =>
    refine delivers_convert steady links value.inward (fun _ _ _ => ?_) fun same => ih ?_
    · exact hasKind_of_isScalar (rule.1.elim isScalar_of_isDynamic isScalar_of_isArithmetic)
    · have ranged : (kindOf? e.ty != kindOf? i.ty || e.isRanged) = true := ranged
      rw [same, bne_self_eq_false, Bool.false_or] at ranged
      exact ranged
  | neg => exact delivers_arithmetic steady links (value.append (.code (plain_convert _ _))).inward nofun
  | bitNot => exact delivers_arithmetic steady links (value.append (.code (plain_convert _ _))).inward nofun
  | not =>
    rw [show i.ty = .bool from rule.2]
    exact delivers_not (T := a.types) steady links value.inward
  | deref =>
    exact .behind steady links value.inward (composed_load (L := fun _ => True) _ _).inward (delivers_load steady links _ _)
  | addrOf =>
    rw [show i.ty = .pointer e.ty from rule.2]
    exact delivers_pointer rfl
  | preInc | preDec | postInc | postDec =>
    rw [show i.ty = e.ty from rule.1.2]
    exact delivers_increment steady links place

theorem delivers_conditionalExpr (known : c.ty.isDependent = false ∧ x.ty.isDependent = false ∧ y.ty.isDependent = false)
    (accepted : (Expr.conditional i c x y).Accepted a) (ranged : (Expr.conditional i c x y).isRanged)
    (hx : x.isRanged → Delivers R evaluate l f (rvalue a x) x.ty.OnTop)
    (hy : y.isRanged → Delivers R evaluate l f (rvalue a y) y.ty.OnTop) :
    Delivers R evaluate l f (rvalue a (.conditional i c x y)) i.ty.OnTop := by
  obtain ⟨⟨d, -, -, run⟩, -, ax, ay⟩ := accepted
  obtain ⟨-, rule⟩ := conditionalType_accepts known.1 known.2.1 known.2.2 ax.null ay.null run
  have ranged : ((kindOf? x.ty != kindOf? i.ty || x.isRanged) && (kindOf? y.ty != kindOf? i.ty || y.isRanged)) = true :=
    ranged
  rw [Bool.and_eq_true] at ranged
  have scalar {t : Ty} (h : t.decay.isArithmetic) : HasKind t := hasKind_of_isScalar (isScalar_of_isArithmetic h)
  have kinds : ∀ k, kindOf? i.ty = some k → k.isInteger → HasKind x.ty ∧ HasKind y.ty := by
    intro k known integer
    generalize i.ty = ty at rule known
    cases rule with
    | dynamic _ =>
      cases known
      cases integer
    | common left right => exact ⟨scalar left, scalar right⟩
    | same same =>
      have kind : HasKind x.ty.decay := Option.isSome_iff_exists.mpr ⟨k, known⟩
      exact ⟨hasKind_decay.mp kind, hasKind_decay.mp (same ▸ kind)⟩
    | left pointer _ | right _ pointer =>
      cases (kind_of_isPointer pointer).symm.trans known
      cases integer
  have branch {e : Expr} (kinds : ∀ k, kindOf? i.ty = some k → k.isInteger → HasKind e.ty)
      (ranged : (kindOf? e.ty != kindOf? i.ty || e.isRanged) = true)
      (h : e.isRanged → Delivers R evaluate l f (rvalue a e) e.ty.OnTop) :
      (rvalue.branch i.ty e.ty (rvalue a e)).Inward ∧
        Delivers R evaluate l f (rvalue.branch i.ty e.ty (rvalue a e)) i.ty.OnTop := by
    have value : (rvalue a e).Composed fun _ => True := composed_rvalue e.within_true
    refine ⟨(Piece.Composed.ite (composed_discard _ value) (value.append (.code (plain_convert _ _)))).inward, ?_⟩
    refine delivers_branch steady links value kinds fun same => h ?_
    rwa [same, bne_self_eq_false, Bool.false_or] at ranged
  have first := branch (fun k known integer => (kinds k known integer).1) ranged.1 hx
  have second := branch (fun k known integer => (kinds k known integer).2) ranged.2 hy
  exact .conditional steady links (inward_rvalue c) first.1 second.1 first.2 second.2

end Expressions

end Structured

/-! ## All expressions -/

namespace Typed
open Structured

variable {η : Type} {evaluate : List Value → Exec η Value} {l : List Frame} {f : Frame} {R : Instr → Instr → Prop}
  {a : Analysis} {e : Expr} (steady : ∀ args, Exec.Steady (evaluate args)) (links : Links R)
include steady links

theorem Expr.Accepted.delivers_of_operands (accepted : e.Accepted a) (ranged : e.isRanged)
    (known : ∀ x ∈ e.typeOperands, x.ty.isDependent = false)
    (operands : ∀ x ∈ e.typeOperands, x.isRanged → Delivers R evaluate l f (rvalue a x) x.ty.OnTop) :
    Delivers R evaluate l f (rvalue a e) e.ty.OnTop := by
  have value (e : Expr) : (rvalue a e).Composed fun _ => True := composed_rvalue e.within_true
  have place (e : Expr) : (lvalue a e).Composed fun _ => True := composed_lvalue e.within_true
  have object {p : Piece} (ty : Ty) (span : Span) (hp : p.Composed fun _ => True) :
      Delivers R evaluate l f (p ++ load a.types ty span) ty.OnTop :=
    .behind steady links hp.inward (composed_load (L := fun _ => True) _ _).inward (delivers_load steady links _ _)
  have size (n : Int64) {ty : Ty} (type : ty = .unsignedLong) :
      Delivers R evaluate l f (.code [.pushInt n]) ty.OnTop := by
    refine delivers_pushInt steady links fun k kind _ => ?_
    rw [type] at kind
    cases kind
    rfl
  cases e with
  | int i v suffix =>
    refine delivers_pushInt steady links fun k kind _ => ?_
    rw [show kindOf? i.ty = some k from kind]
    exact k.wrap_wrap _
  | float i v single =>
    refine delivers_other fun k kind => ?_
    rw [show Expr.ty (.float i v single) = _ from accepted] at kind
    split at kind <;> cases kind <;> rfl
  | char i c =>
    refine delivers_pushInt steady links fun k kind _ => ?_
    rw [show Expr.ty (.char i c) = .char from accepted] at kind
    cases kind
    exact Scalar.wrap_i8_ofNat (of_decide_eq_true ranged)
  | str i text =>
    rw [show Expr.ty (.str i text) = _ from accepted]
    exact delivers_aggregate rfl
  | bool i b =>
    refine delivers_pushInt steady links fun k kind _ => ?_
    rw [show Expr.ty (.bool i b) = .bool from accepted] at kind
    cases kind
    cases b <;> rfl
  | null i =>
    rw [show Expr.ty (.null i) = .voidPtr from accepted]
    exact delivers_pointer rfl
  | ident i name binding =>
    cases binding with
    | enumConst v =>
      have bound : Bound a (.enumConst v) i.ty := accepted.2
      have range : (decide (-2 ^ 31 ≤ v.toInt) && decide (v.toInt < 2 ^ 31)) = true := ranged
      rw [Bool.and_eq_true, decide_eq_true_iff, decide_eq_true_iff] at range
      refine delivers_pushInt steady links fun k kind _ => ?_
      have kind : i.ty.decay.scalar? = some k := kind
      generalize i.ty = ty at bound kind
      cases bound with
      | object isVariable _ => cases isVariable
      | enumConst _ known =>
        have same : ty.decay.scalar? = ty.scalar? := by cases ty <;> rfl
        cases known.symm.trans (same.symm.trans kind)
        exact Scalar.wrap_i32 range.1 range.2
    | _ => exact object _ _ (composed_variableAddress _ _ fun _ _ => trivial)
  | unary i op x =>
    exact delivers_unaryExpr steady links (known x List.mem_cons_self) accepted ranged (operands x List.mem_cons_self)
  | binary i op x y =>
    obtain ⟨⟨d, -, -, run⟩, ax, ay⟩ := accepted
    have rule := binaryType_accepts (known x List.mem_cons_self)
      (known y (List.mem_cons_of_mem _ List.mem_cons_self)) ax.null ay.null run
    exact delivers_binary steady links rule (value x) (value y)
  | assign i op x y =>
    obtain ⟨-, ⟨d, -, -, run⟩, -⟩ := accepted
    obtain ⟨-, -, type, -⟩ := assignType_accepts (known x List.mem_cons_self) run
    rw [show Expr.ty (.assign i op x y) = x.ty from type]
    exact delivers_assign steady links (place x) (value y)
  | conditional i c x y =>
    obtain ⟨dc, branches⟩ := List.forall_mem_cons.mp known
    obtain ⟨-, branches'⟩ := List.forall_mem_cons.mp operands
    exact delivers_conditionalExpr steady links
      ⟨dc, branches x List.mem_cons_self, branches y (List.mem_cons_of_mem _ List.mem_cons_self)⟩ accepted ranged
      (branches' x List.mem_cons_self) (branches' y (List.mem_cons_of_mem _ List.mem_cons_self))
  | call i name target args => cases ranged
  | index i x y => exact object _ _ (composed_elementAddress _ _ _ (value x) (value y))
  | member i x field arrow =>
    cases arrow with
    | true => exact object _ _ ((value x).append (composed_fieldOffset _ _ _))
    | false => exact object _ _ ((place x).append (composed_fieldOffset _ _ _))
  | cast i target x =>
    obtain ⟨spelled, ⟨d, -, -, run⟩, -⟩ := accepted
    obtain ⟨type, rule⟩ := castType_accepts spelled.definite.not_isDependent (known x List.mem_cons_self) run
    have ranged : (kindOf? x.ty != kindOf? i.ty || x.isRanged) = true := ranged
    rw [show Expr.ty (.cast i target x) = target from type]
    refine delivers_branch steady links (value x) (fun k kind integer => ?_) fun same => ?_
    · rcases rule with void | ⟨-, scalar⟩
      · rw [Ty.isVoid_iff.mp void] at kind
        cases kind
      · exact hasKind_of_isScalar scalar
    · rw [type, same, bne_self_eq_false, Bool.false_or] at ranged
      exact operands x List.mem_cons_self ranged
  | sizeofType i target =>
    obtain ⟨spelled, d, -, -, run⟩ := accepted
    exact size _ (sizeofType_accepts spelled.definite.not_isDependent run)
  | sizeofExpr i x =>
    obtain ⟨⟨d, -, -, run⟩, -⟩ := accepted
    exact size _ (sizeofExprType_accepts (sizeofExprType_known run) run)
  | comma i x y =>
    have second : y ∈ [x, y] := List.mem_cons_of_mem _ List.mem_cons_self
    have type : i.ty = y.ty := by
      rw [accepted.1, known x List.mem_cons_self, known y second]
      rfl
    rw [show Expr.ty (.comma i x y) = y.ty from type]
    exact .behind steady links (composed_discard _ (value x)).inward (value y).inward (operands y second ranged)
  | invalid i => exact accepted.elim

/-- The value of an accepted expression is in the representation of its type, whatever its operands are worth. -/
theorem Expr.Accepted.delivers (accepted : e.Accepted a) (ranged : e.isRanged) :
    Delivers R evaluate l f (rvalue a e) e.ty.OnTop := by
  induction e using Expr.typeOperands_induction with
  | step e ih =>
    -- what has code hangs on no unknown name
    refine .of_compiles fun compiles => accepted.delivers_of_operands steady links ranged (fun x mem => ?_) fun x mem ranged => ?_
    · exact ((accepted.typeOperands x mem).definite_of_compiles
        (Expr.Compiles.typeOperands (.inl compiles) x mem)).not_isDependent
    · exact ih x mem (accepted.typeOperands x mem) ranged

end Typed

/-! ## Linked code -/

/-- The value of an accepted expression of an integer type is in the range of the type. It is analysed without errors,
and lowered in the state `b` that the analysis gets to afterwards. Wherever its code stands in a module, once that is
linked, on any memory, if the code runs to its end it leaves an integer that the kind of the type represents as it is. -/
theorem integer_in_range {a₀ a b : Analysis} {e : Syntax.Expr} {t : Expr} (sound : a₀.Sound) (written : e.Written)
    (analyzed : (Analyze.expr e).run a₀ = (t, a)) (correct : a.errors = #[]) (later : a.Extends b)
    {k : Scalar} (kind : kindOf? t.ty = some k) (integer : k.isInteger) (ranged : t.isRanged)
    {c : CodeModule} {f : CodeFunction} {s : Segment} (lowered : c.Includes b t f s)
    (distinct : (c.functions.toList.map (·.name)).Nodup) {m m' : Machine} {names : List String}
    (linked : Machine.link c m = .ok names m') :
    ∃ f', m'.functions.get? f.name = some f' ∧
      ∀ (η : Type) (host : Option (Host η)) (w : World η) (l : List Frame) (frame : Frame) (u : Unit) (w' : World η),
        frame.function = f' → Stands l frame s.first w →
          Exec.evaluateCode (Exec.templates host) l.length s w = .ok u w' →
            ∃ n rest, w'.machine.operands = .int n :: rest ∧ k.wrap n = n := by
  obtain ⟨function, g, is, g', run, -, last, shows_⟩ := lowered
  obtain ⟨strings, -, finds⟩ := Machine.link_code linked distinct
  obtain ⟨code, patched, found⟩ := finds f function
  refine ⟨_, found, fun η host w l frame u w' isFunction stands ran => ?_⟩
  have accepted : t.Accepted b := Analyze.accepted_expr sound written analyzed correct later
  have fills : (rvalue b t).Fills (fun i i' => m'.patch strings i = .ok i') frame.function.code s := by
    rw [isFunction]
    exact ⟨g, is, g', run, last, shows_patched shows_ patched⟩
  have steady : ∀ args, Exec.Steady (Exec.templates host args) := Exec.steady_templates host
  unfold Exec.evaluateCode at ran
  rw [goto_self stands] at ran
  obtain ⟨v, rest, operands, isOf⟩ :=
    accepted.delivers steady (links_patch m' strings) ranged s fills w u w' stands ran k kind integer
  obtain ⟨n, rfl, fits⟩ := isOf.int integer
  exact ⟨n, rest, operands, fits⟩

/-- The largest integer doubled plus one comes back into the range. -/
theorem doubled_maximum_in_range :
    ∃ (u : Syntax.TopLevel) (u' : Typed.TopLevel) (t : Expr) (a : Analysis) (c c' : CodeModule) (is : List Instr)
      (names : List String) (m : Machine) (f : CodeFunction) (w : World Unit) (rest : List Value),
      Syntax.groupOf? "int x = 2147483647;" = some u ∧ (({} : Analysis).analyze u).1 = .ok u' ∧
      (Analyze.expr twiceAndOne).run (({} : Analysis).analyze u).2 = (t, a) ∧ lower a u' {} = .ok c ∧
      rvalue a t 0 c = .ok (is, c') ∧ Machine.link (c'.withCode is) {} = .ok names m ∧
      m.functions.get? "f" = some f ∧ kindOf? t.ty = some .i32 ∧
      Exec.evaluateCode (Exec.templates none) 0 ⟨0, is.length⟩ (⟨m.enter f [], ()⟩ : World Unit) = .ok () w ∧
      w.machine.operands = .int (-1) :: rest ∧ Scalar.wrap .i32 (-1) = -1 := by
  have outcome : (do
      let u ← Syntax.groupOf? "int x = 2147483647;"
      let u' ← (({} : Analysis).analyze u).1.toOption
      let analyzed ← some ((Analyze.expr twiceAndOne).run (({} : Analysis).analyze u).2)
      let c ← (lower analyzed.2 u' {}).toOption
      let code ← (rvalue analyzed.2 analyzed.1 0 c).toOption
      let linked ← given? (Machine.link (code.2.withCode code.1) {})
      let m := linked.2
      let f ← m.functions.get? "f"
      let ran ← given? (Exec.evaluateCode (Exec.templates none) 0 ⟨0, code.1.length⟩ (⟨m.enter f [], ()⟩ : World Unit))
      return (analyzed.2.errors.isEmpty && analyzed.1.isRanged && m.frames.isEmpty &&
        decide (kindOf? analyzed.1.ty = some .i32) &&
        decide ((code.2.withCode code.1).functions.toList.map (·.name)).Nodup, ran.2.machine.operands) : Option _) =
      some (true, [.int (-1)]) := by
    decide +kernel
  simp only [Option.bind_eq_bind, Option.bind_eq_some_iff] at outcome
  obtain ⟨u, read, u', accepted, ⟨t, a⟩, analyzed, c, lowered, ⟨is, c'⟩, code, ⟨names, m⟩, linked, f, found, ⟨⟨⟩, w⟩, ran,
    outcome⟩ := outcome
  have linked := given?_eq_some linked
  have ran := given?_eq_some ran
  obtain ⟨checks, operands⟩ := Prod.mk.inj (Option.some.inj outcome)
  simp only [Bool.and_eq_true, decide_eq_true_eq] at checks
  obtain ⟨⟨⟨⟨correct, ranged⟩, frames⟩, kind⟩, distinct⟩ := checks
  have frames : m.frames = #[] := Array.isEmpty_iff.mp frames
  have accepted := Syntax.toOption_eq_some accepted
  have analyzed := Option.some.inj analyzed
  have code := Syntax.toOption_eq_some code
  have sound := (Analysis.Reached.start.accepted (Syntax.groupOf?_written read) accepted).sound
  obtain ⟨f', known, inRange⟩ := integer_in_range sound twiceAndOne_written analyzed (Array.isEmpty_iff.mp correct) (.refl a)
    kind rfl ranged (.withCode code) distinct linked
  cases found.symm.trans known
  obtain ⟨n, rest, top, fits⟩ := inRange Unit none _ [] _ () w rfl (stands_enter frames f) ran
  obtain ⟨same, -⟩ := List.cons.inj (operands.symm.trans top)
  cases same
  exact ⟨u, u', t, a, c, c', is, names, m, f, w, _, read, accepted, analyzed, Syntax.toOption_eq_some lowered, code,
    linked, found, kind, ran, top, fits⟩

/-- The character with code 255 is pushed as 255, which its type `char` does not represent. -/
theorem last_char_out_of_range :
    (do
      let here : Span := ⟨0, 0, 6, 1, 1⟩
      let (t, a) ← some ((Analyze.expr (.char here 255)).run {})
      let (is, c) ← (rvalue a t 0 {}).toOption
      let EStateM.Result.ok _ m := Machine.link (c.withCode is) {} | none
      let f ← m.functions.get? "f"
      let EStateM.Result.ok _ w := Exec.evaluateCode (Exec.templates none) 0 ⟨0, is.length⟩
        (⟨m.enter f [], ()⟩ : World Unit) | none
      return (a.errors.isEmpty, kindOf? t.ty, w.machine.operands, Scalar.wrap .i8 255) : Option _) =
      some (true, some .i8, [.int 255], -1) := by
  decide +kernel

end IncrementalC
