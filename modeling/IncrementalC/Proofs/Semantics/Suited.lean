import IncrementalC.Proofs.Lowering.ExpressionCode
import IncrementalC.Proofs.Semantics.OperatorMeaning

/-!
# Values suit the types of expressions

`Eval.Gives M Q`: what the computation `M` gives, if it gives something, is in `Q`. An accepted expression
without calls and floating numbers has a value unless its type is `void`, and the value is in the
representation of its type (`Expr.Accepted.results`). Its place is a pointer.
-/
namespace IncrementalC
set_option autoImplicit false
open Typed Analyze

/-! ## Expressions of integers and pointers -/

namespace Typed

mutual

/-- A condition on every node that is evaluated. The operand of `sizeof` is not. -/
def Expr.each (p : Expr → Bool) (e : Expr) : Bool :=
  p e && match e with
    | .unary _ _ x | .member _ x _ _ | .cast _ _ x => x.each p
    | .binary _ _ x y | .assign _ _ x y | .index _ x y | .comma _ x y => x.each p && y.each p
    | .conditional _ c x y => c.each p && x.each p && y.each p
    | .call _ _ _ args => eachOf p args
    | .int .. | .float .. | .char .. | .str .. | .bool .. | .null _ | .ident .. | .sizeofType .. | .sizeofExpr ..
    | .invalid _ => true

def eachOf (p : Expr → Bool) : List Expr → Bool
  | [] => true
  | e :: es => e.each p && eachOf p es

end

end Typed

/-- No floating number, and neither an object of the type nor what it points to has more slots than 32 bits
count. -/
def TypeTable.countable (types : TypeTable) (ty : Ty) : Bool :=
  !ty.isFloating && types.slots ty < UInt32.size && (ty.pointee?.map types.slots).getD 0 < UInt32.size

/-- Not a call; a character and an enumerator lie in the range of their type. -/
def Typed.Expr.isIntegral (types : TypeTable) : Expr → Bool
  | .call .. | .invalid _ => false
  | .char i c => types.countable i.ty && c ≤ 127
  | .ident i _ (.enumConst v) => types.countable i.ty && -2 ^ 31 ≤ v.toInt && v.toInt < 2 ^ 31
  | e => types.countable e.ty

namespace Ty

variable {t : Ty}

theorem isFloat_of_isFloating (h : t.isFloating = false) {k : Scalar} (known : t.decay.scalar? = some k) :
    k.isFloat = false := by
  cases t with
  | float | double => cases h
  | int kind =>
    obtain ⟨rank, signed⟩ := kind
    cases rank <;> cases signed <;> cases known <;> rfl
  | void | record _ | dependent => cases known
  | bool | pointer _ | array _ _ | enum _ | dynamic =>
    cases known
    rfl

theorem not_isFloating_promote (h : t.isFloating = false) : t.promote.isFloating = false := by
  cases t with
  | float | double => cases h
  | int kind =>
    unfold promote
    dsimp only
    split <;> rfl
  | _ => rfl

theorem not_isFloating_common {s : Ty} (hs : s.isFloating = false) (ht : t.isFloating = false) :
    (common s t).isFloating = false := by
  unfold common
  split
  · rfl
  split
  · rename_i double
    obtain rfl | rfl := double
    · cases hs
    · cases ht
  split
  · rename_i float
    obtain rfl | rfl := float
    · cases hs
    · cases ht
  split
  · rfl
  · exact not_isFloating_promote hs

theorem not_isFloating_decay (h : t.isFloating = false) : t.decay.isFloating = false := by
  cases t <;> exact h

theorem not_isFloating_operationType {s : Ty} (op : BinaryOp) (hs : s.isFloating = false)
    (ht : t.isFloating = false) : (operationType op s t).isFloating = false := by
  cases op with
  | shl | shr => exact not_isFloating_promote hs
  | _ => exact not_isFloating_common hs ht

end Ty

/-! ## What computations give -/

namespace Eval

variable {α β : Type} {M : Eval α} {N : α → Eval β} {P : α → Prop} {Q : β → Prop}

def Gives (M : Eval α) (P : α → Prop) : Prop := ∀ m x m', M m = .ok x m' → P x

namespace Gives

theorem any (M : Eval α) : Gives M fun _ => True := fun _ _ _ _ => trivial

theorem pure {x : α} (h : P x) : Gives (Pure.pure x) P := by
  intro m y m' run
  cases run
  exact h

theorem bind (hM : Gives M P) (hN : ∀ x, P x → Gives (N x) Q) : Gives (M >>= N) Q := by
  intro m y m'' run
  have run : EStateM.bind M N m = .ok y m'' := run
  unfold EStateM.bind at run
  cases first : M m with
  | error e m' =>
    rw [first] at run
    cases run
  | ok x m' =>
    rw [first] at run
    exact hN x (hM m x m' first) m' y m'' run

theorem throw (e : Abort) : Gives (throw e : Eval α) P := by
  intro m x m' run
  cases run

theorem get {f : Machine → Eval α} (h : ∀ m, Gives (f m) P) : Gives (MonadState.get >>= f) P := fun m => h m m

theorem ite {c : Prop} [Decidable c] {M' : Eval α} (h : c → Gives M P) (h' : ¬c → Gives M' P) :
    Gives (if c then M else M') P := by
  split
  · exact h ‹_›
  · exact h' ‹_›

theorem known {ty : Ty} (h : Gives M P) : Gives (known ty M) P := .ite (fun _ => .throw _) fun _ => h

theorem counted {slots : Nat} (h : Gives M P) : Gives (counted slots M) P := .ite (fun _ => h) fun _ => .throw _

theorem ofExcept {x : Except Fault α} (h : ∀ y, x = .ok y → P y) : Gives (ofExcept x) P := by
  cases x with
  | ok y => exact pure (h y rfl)
  | error f => exact throw _

theorem value {M : Eval (Option Value)} {P : Value → Prop} (h : Gives M fun r => ∀ v, r = some v → P v) :
    Gives (value M) P := by
  refine bind h fun r hr => ?_
  cases r with
  | some v => exact pure (hr v rfl)
  | none => exact throw _

end Gives

/-! ## Pointers and objects -/

variable {s : Scene} {p v : Value} {ty : Ty}

theorem suits_of_isOf {k : Scalar} (known : ty.decay.scalar? = some k) (notFloat : k.isFloat = false)
    (h : v.IsOf k) : v.Suits ty := by
  intro k' known'
  cases known.symm.trans known'
  exact ⟨notFloat, h⟩

theorem suits_pointer (pointer : ty.isPointerLike) (h : v.IsOf .ptr) : v.Suits ty := by
  refine suits_of_isOf (k := .ptr) ?_ rfl h
  cases ty with
  | pointer _ | array _ _ => rfl
  | _ => cases pointer

theorem suits_aggregate (aggregate : ty.isAggregate) (h : v.IsOf .ptr) : v.Suits ty := by
  cases ty with
  | array _ _ => exact suits_pointer rfl h
  | record _ => exact nofun
  | _ => cases aggregate

theorem isOf_moved (p : Value) (n : Int64) : (moved p n).IsOf .ptr := Value.isOf_ptr _

theorem gives_load {k : Scalar} (notFloat : k.isFloat = false) (p : Value) : Gives (load k p) (·.IsOf k) :=
  .get fun _ => .bind (.any _) fun v _ => .pure (Value.isOf_coerce notFloat v)

theorem gives_content (hp : p.IsOf .ptr) (notFloating : ty.isFloating = false) :
    Gives (content ty p) (·.Suits ty) := by
  refine .ite (fun aggregate => .pure (suits_aggregate aggregate hp)) fun _ => ?_
  split
  · rename_i k known
    have notFloat := Ty.isFloat_of_isFloating notFloating known
    intro m v m' run
    exact suits_of_isOf known notFloat (gives_load notFloat p m v m' run)
  · exact .throw _

theorem gives_variableAddress (binding : Binding) : Gives (variableAddress s binding) (·.IsOf .ptr) := by
  unfold variableAddress
  split
  · exact .pure (Value.isOf_ptr _)
  · unfold objectAddress
    split
    · exact .pure (Value.isOf_ptr _)
    · refine .get fun m => ?_
      split
      · exact .pure (Value.isOf_ptr _)
      · exact .throw _
  · exact .throw _

theorem gives_element (elem a b : Ty) (x y : Eval Value) : Gives (element s elem a b x y) (·.IsOf .ptr) :=
  .ite (fun _ => .bind (.any _) fun _ _ => .bind (.any _) fun _ _ => .pure (isOf_moved _ _))
    fun _ => .bind (.any _) fun _ _ => .bind (.any _) fun _ _ => .pure (isOf_moved _ _)

theorem gives_member (record : Option Ty) (field : String) (hp : p.IsOf .ptr) :
    Gives (member s record field p) (·.IsOf .ptr) := by
  unfold member
  split
  · split
    · refine .pure ?_
      split
      · exact isOf_moved _ _
      · exact hp
    · exact .throw _
  · exact .throw _

/-! ## Operators -/

/-- A conversion gives a value of its target, whatever it is given. -/
theorem suits_converted {source target : Ty} (notFloating : target.isFloating = false)
    (converts : ∀ k, target.decay.scalar? = some k → k = .dyn ∨ source.decay.scalar?.isSome) (v : Value) :
    (converted source target v).Suits target := by
  intro k known
  have notFloat := Ty.isFloat_of_isFloating notFloating known
  refine ⟨notFloat, ?_⟩
  obtain rfl | isSome := converts k known
  · exact Value.isOf_dyn _
  · obtain ⟨k', source_⟩ := Option.isSome_iff_exists.mp isSome
    unfold converted
    rw [source_, known]
    dsimp only
    rw [Value.convert_eq notFloat]
    exact Value.isOf_coerce notFloat v

theorem gives_apply {op : BinaryOp} {a b : Ty} {u w : Value} (notFloating : ty.isFloating = false) :
    Gives (apply op ty a b u w) fun v =>
      if op.isComparison then v.IsOf .bool else ∀ k, ty.decay.scalar? = some k → v.IsOf k := by
  unfold apply
  split
  · rename_i code kind found known
    refine .ofExcept fun v computed => ?_
    cases comparison : op.isComparison with
    | true =>
      have isComparison : code.isComparison := by
        cases op with
        | lt | le | gt | ge | eq | ne =>
          cases found
          rfl
        | _ => cases comparison
      exact Operation.isOf_comparison isComparison computed
    | false =>
      have notComparison : code.isComparison = false := by
        cases op with
        | lt | le | gt | ge | eq | ne => cases comparison
        | and | or => cases found
        | _ =>
          cases found
          rfl
      refine fun k known' => ?_
      cases known.symm.trans known'
      exact Operation.isOf_binary notComparison (Ty.isFloat_of_isFloating notFloating known) computed
  · exact .throw _

theorem gives_unary {op : Code.UnaryOp} (notFloating : ty.isFloating = false) (notLogical : op ≠ .not) (v : Value) :
    Gives (unary op ty v) (·.Suits ty.decay.promote) := by
  have promoted := Ty.not_isFloating_promote (Ty.not_isFloating_decay notFloating)
  unfold unary
  dsimp only
  split
  · rename_i kind known
    have known : ty.decay.promote.decay.scalar? = some kind := by rwa [Track.decay_promote]
    have notFloat := Ty.isFloat_of_isFloating promoted known
    exact .ofExcept fun w computed => suits_of_isOf known notFloat (Operation.isOf_unary notFloat notLogical computed)
  · exact .throw _

theorem gives_logical (op : BinaryOp) (x y : Eval Value) : Gives (logical op x y) (·.Suits .bool) := by
  have truth (b : Bool) : (Value.ofBool b).Suits .bool := suits_of_isOf (k := .bool) rfl rfl (Value.isOf_ofBool b)
  exact .bind (.any _) fun u _ => .ite (fun _ => .pure (truth _)) fun _ => .bind (.any _) fun _ _ => .pure (truth _)

/-- An operator that acts on numbers gives a value of its type. -/
theorem gives_numbers {op : BinaryOp} {a b : Ty} {x y : Eval Value} (numbers : Track.ActsOnNumbers op a b)
    (ha : a.isFloating = false) (hb : b.isFloating = false)
    (type : ty = if op.isComparison then .bool else commonType op a b) :
    Gives (binary s op a b x y) (·.Suits ty) := by
  have notFloating : (commonType op a b).isFloating = false := by
    unfold commonType
    split
    · rfl
    split
    · rfl
    · exact Ty.not_isFloating_operationType op ha hb
  rw [numbers.eval_eq, type]
  refine .bind (.any _) fun u _ => .bind (.any _) fun w _ => ?_
  intro m v m' run
  have given := gives_apply notFloating m v m' run
  cases comparison : op.isComparison with
  | true =>
    rw [comparison] at given
    exact suits_of_isOf (k := .bool) rfl rfl given
  | false =>
    rw [comparison] at given
    exact fun k known => ⟨Ty.isFloat_of_isFloating notFloating known, given k known⟩

theorem suits_long {n : Int64} (kind : ty.decay.scalar? = some .i64 ∨ ty.decay.scalar? = some .u64) :
    (Value.int n).Suits ty := by
  obtain known | known := kind
  · exact suits_of_isOf known rfl (Value.isOf_int rfl rfl)
  · exact suits_of_isOf known rfl (Value.isOf_int rfl rfl)

theorem gives_binary {op : BinaryOp} {a b : Ty} {x y : Eval Value} (acting : Track.Acting op a b ty)
    (ha : a.isFloating = false) (hb : b.isFloating = false) : Gives (binary s op a b x y) (·.Suits ty) := by
  have pointer {t : Ty} (h : t.isPointer) (p : Value) (n : Int64) : (moved p n).Suits t := by
    refine suits_pointer ?_ (isOf_moved p n)
    cases t with
    | pointer t => rfl
    | _ => cases h
  cases acting with
  | numbers h => exact gives_numbers h ha hb rfl
  | offset moves left right =>
    obtain rfl | rfl := moves
    · simp only [binary, left, right]
      exact .bind (.any _) fun _ _ => .bind (.any _) fun _ _ => .pure (pointer left _ _)
    · simp only [binary, left, right]
      exact .bind (.any _) fun _ _ => .bind (.any _) fun _ _ => .pure (pointer left _ _)
  | offsetLeft adds left right =>
    subst adds
    have number := Track.not_isPointer_of_number (.inl (isArithmetic_of_isInteger left))
    simp only [binary, left, right, number]
    exact .bind (.any _) fun _ _ => .bind (.any _) fun _ _ => .pure (pointer right _ _)
  | difference subtracts left right =>
    subst subtracts
    simp only [binary, left, right, Track.not_isInteger_of_isPointer right]
    exact .counted (.bind (.any _) fun _ _ => .bind (.any _) fun _ _ => .pure (suits_long (.inl rfl)))

theorem suits_of_known {k : Scalar} (known : ty.decay.scalar? = some k) (notFloating : ty.isFloating = false)
    (v : Value) : (v.coerce k).Suits ty :=
  suits_of_isOf known (Ty.isFloat_of_isFloating notFloating known)
    (Value.isOf_coerce (Ty.isFloat_of_isFloating notFloating known) v)

theorem gives_assign {b : Ty} {target x : Eval Value} (notFloating : ty.isFloating = false) :
    Gives (assign s ty b target x) (·.Suits ty) := by
  refine .ite (fun record => .counted ?_) fun _ => ?_
  · refine .bind (.any _) fun p _ => .bind (.any _) fun _ _ => .bind (.any _) fun _ _ => .pure ?_
    cases ty with
    | record _ => exact nofun
    | _ => cases record
  · split
    · rename_i k known
      refine .bind (.any _) fun _ _ => .bind (.any _) fun _ _ => .bind (.any _) fun _ _ => .pure ?_
      exact suits_of_known known notFloating _
    · exact .throw _

theorem gives_compound {op : BinaryOp} {b : Ty} {target x : Eval Value} (notFloating : ty.isFloating = false) :
    Gives (compound s op ty b target x) (·.Suits ty) := by
  unfold compound
  split
  · rename_i k known
    refine .bind (.any _) fun _ _ => .bind (.any _) fun _ _ => .bind (.any _) fun _ _ => .bind (.any _) fun _ _ => ?_
    exact .bind (.any _) fun _ _ => .pure (suits_of_known known notFloating _)
  · exact .throw _

theorem gives_increment {up post : Bool} {target : Eval Value} (notFloating : ty.isFloating = false) :
    Gives (increment s ty up post target) (·.Suits ty) := by
  unfold increment
  split
  · rename_i k known
    have notFloat := Ty.isFloat_of_isFloating notFloating known
    refine .bind (.any _) fun p _ => .bind (gives_load notFloat p) fun old isOf => .bind (.any _) fun _ _ => .pure ?_
    split
    · exact suits_of_isOf known notFloat isOf
    · exact suits_of_isOf known notFloat (Operation.isOf_increment notFloat _ _)
  · exact .throw _

/-! ## Results -/

/-- What an expression of the type comes to: nothing if the type is `void`, else a value in its representation. -/
structure Result (ty : Ty) (r : Option Value) : Prop where
  valued : r.isSome = !ty.isVoid
  suits : ∀ v, r = some v → v.Suits ty

theorem Result.some (notVoid : ty ≠ .void) (h : v.Suits ty) : Result ty (some v) := by
  refine ⟨?_, fun w same => ?_⟩
  · rw [Bool.eq_false_iff.mpr (mt Ty.isVoid_iff.mp notVoid)]
    rfl
  · cases same
    exact h

theorem gives_some {M : Eval Value} (notVoid : ty ≠ .void) (h : Gives M (·.Suits ty)) :
    Gives (do return Option.some (← M)) (Result ty) :=
  .bind h fun _ suits => .pure (.some notVoid suits)

theorem gives_value {x : Eval (Option Value)} (h : Gives x (Result ty)) : Gives (value x) (·.Suits ty) :=
  .value fun m r m' run => (h m r m' run).suits

theorem gives_branch {target : Ty} {x : Eval (Option Value)} (notFloating : target.isFloating = false)
    (converts : ∀ k, target.decay.scalar? = some k → k = .dyn ∨ ty.decay.scalar?.isSome) :
    Gives (branch target ty x) (Result target) := by
  unfold branch
  split
  · rename_i void
    refine .bind (.any _) fun _ _ => .pure ⟨?_, nofun⟩
    rw [void]
    rfl
  · rename_i notVoid
    refine .bind (.any _) fun v _ => .pure (.some ?_ (suits_converted notFloating converts v))
    exact mt Ty.isVoid_iff.mpr notVoid

end Eval

/-! ## Expressions -/

namespace Typed
open Eval (Gives Result)

variable {a : Analysis} {s : Scene} {types : TypeTable}

theorem Expr.each_here {p : Expr → Bool} {e : Expr} (h : e.each p) : p e := by
  unfold Expr.each at h
  rw [Bool.and_eq_true] at h
  exact h.1

theorem Expr.isFloating_of_isIntegral {e : Expr} (h : e.isIntegral types) : e.ty.isFloating = false := by
  have plain {ty : Ty} (h : types.countable ty) : ty.isFloating = false := by
    unfold TypeTable.countable at h
    simp only [Bool.and_eq_true, Bool.not_eq_true'] at h
    exact h.1.1
  unfold Expr.isIntegral at h
  split at h
  · cases h
  · cases h
  · rw [Bool.and_eq_true] at h
    exact plain h.1
  · rw [Bool.and_eq_true, Bool.and_eq_true] at h
    exact plain h.1.1
  · exact plain h

/-- An integer literal lies in the range of its type. -/
theorem wrap_intLiteral (v : Nat) (suffix : IntSuffix) :
    ∃ k, (intLiteralType v suffix).decay.scalar? = some k ∧ k.isInteger ∧
      k.wrap (Int64.ofNat v) = Int64.ofNat v := by
  have half : UInt32.size / 2 = 2 ^ 31 := rfl
  have full : UInt32.size = 2 ^ 32 := rfl
  unfold intLiteralType
  cases suffix with
  | none =>
    dsimp only
    split
    · exact ⟨.i32, rfl, rfl, Scalar.wrap_i32_ofNat (by omega)⟩
    · split
      · exact ⟨.i64, rfl, rfl, rfl⟩
      · exact ⟨.u64, rfl, rfl, rfl⟩
  | u =>
    dsimp only
    split
    · exact ⟨.u32, rfl, rfl, Scalar.wrap_u32_ofNat (by omega)⟩
    · exact ⟨.u64, rfl, rfl, rfl⟩
  | l =>
    dsimp only
    split
    · exact ⟨.i64, rfl, rfl, rfl⟩
    · exact ⟨.u64, rfl, rfl, rfl⟩
  | ul => exact ⟨.u64, rfl, rfl, rfl⟩
  | ll =>
    dsimp only
    cases decide (v < UInt64.size / 2)
    · exact ⟨.u64, rfl, rfl, rfl⟩
    · exact ⟨.i64, rfl, rfl, rfl⟩
  | ull => exact ⟨.u64, rfl, rfl, rfl⟩

/-- What the induction shows of an expression. -/
structure Expr.Meets (s : Scene) (e : Expr) : Prop where
  run : Gives (Eval.run s e) (Result e.ty)
  place : Gives (Eval.place s e) (·.IsOf .ptr)

theorem Expr.Meets.value {e : Expr} (h : e.Meets s) : Gives (Eval.value (Eval.run s e)) (·.Suits e.ty) :=
  Eval.gives_value h.run

/-- A value that is known beforehand. -/
theorem Expr.gives_constant (ty : Ty) {v : Value} (notVoid : ty ≠ .void) (h : v.Suits ty) :
    Gives (Eval.known ty (return some v)) (Result ty) := .known (.pure (.some notVoid h))

section Nodes

variable {i : Info} {x y c : Expr} (noFallback : a.fallback = none)
include noFallback

theorem meets_ident {name : String} {binding : Binding} (accepted : (Expr.ident i name binding).Accepted a)
    (integral : (Expr.ident i name binding).isIntegral types) : (Expr.ident i name binding).Meets s := by
  have bound : Bound a binding i.ty := accepted.2
  have object := (bound_cases bound noFallback).1
  refine ⟨?_, Eval.gives_variableAddress binding⟩
  cases binding with
  | enumConst v =>
    refine Expr.gives_constant _ object.notVoid ?_
    have range : types.countable i.ty && -2 ^ 31 ≤ v.toInt && v.toInt < 2 ^ 31 := integral
    rw [Bool.and_eq_true, Bool.and_eq_true] at range
    have fits := Scalar.wrap_i32 (of_decide_eq_true range.1.2) (of_decide_eq_true range.2)
    generalize i.ty = ty at bound ⊢
    cases bound with
    | object isVariable _ => cases isVariable
    | enumConst _ kind =>
      have known : ty.decay.scalar? = some .i32 := by
        cases ty with
        | array _ _ => cases kind
        | _ => exact kind
      exact Eval.suits_of_isOf known rfl (Value.isOf_int rfl fits)
  | _ =>
    refine .known (.bind (Eval.gives_variableAddress _) fun p pointer => Eval.gives_some object.notVoid ?_)
    exact Eval.gives_content pointer (Expr.isFloating_of_isIntegral integral)

theorem meets_unary {op : UnaryOp} (accepted : (Expr.unary i op x).Accepted a)
    (integral : (Expr.unary i op x).isIntegral types) (integralx : x.isIntegral types) (hx : x.Meets s) :
    (Expr.unary i op x).Meets s := by
  have notFloating : i.ty.isFloating = false := Expr.isFloating_of_isIntegral (e := .unary i op x) integral
  have operand := Expr.isFloating_of_isIntegral integralx
  obtain ⟨⟨d, -, -, run⟩, acceptedx⟩ := accepted
  have rule := unaryType_accepts (acceptedx.definite noFallback).not_isDependent run
  have object (isLvalue : x.isLvalue) : x.ty ≠ .void := (acceptedx.isObject noFallback isLvalue).notVoid
  have pointer {t : Ty} (h : x.ty.decay = .pointer t) {v : Value} (suits : v.Suits x.ty) : v.IsOf .ptr := by
    refine (suits .ptr ?_).2
    rw [h]
    rfl
  refine ⟨?_, ?_⟩
  · show Gives (Eval.run s (.unary i op x)) (Result i.ty)
    generalize hty : i.ty = ty at rule notFloating
    have hasKind (h : x.ty.decay.isDynamic ∨ x.ty.decay.isArithmetic) : Lowering.HasKind x.ty.decay :=
      Lowering.hasKind_decay.mpr (Lowering.hasKind_of_isScalar (h.elim isScalar_of_isDynamic isScalar_of_isArithmetic))
    have promoted (h : x.ty.decay.isDynamic ∨ x.ty.decay.isArithmetic) : x.ty.decay.promote ≠ .void := by
      intro void
      have kind := Lowering.hasKind_promote (hasKind h)
      rw [void] at kind
      cases kind
    cases op with
    | plus =>
      obtain ⟨kind, rfl⟩ := rule
      refine .known (.bind (.any _) fun v _ => .pure (.some (promoted kind) ?_))
      exact Eval.suits_converted notFloating (fun _ _ => .inr (Lowering.hasKind_decay.mp (hasKind kind))) v
    | neg =>
      obtain ⟨kind, rfl⟩ := rule
      exact .known (.bind (.any _) fun v _ => Eval.gives_some (promoted kind) (Eval.gives_unary operand (by decide) v))
    | bitNot =>
      obtain ⟨kind, rfl⟩ := rule
      exact .known (.bind (.any _) fun v _ => Eval.gives_some (promoted kind) (Eval.gives_unary operand (by decide) v))
    | not =>
      obtain ⟨-, rfl⟩ := rule
      refine .known (.bind (.any _) fun v _ => .pure (.some (by rintro ⟨⟩) ?_))
      exact Eval.suits_of_isOf (k := .bool) rfl rfl (Value.isOf_ofBool _)
    | deref =>
      show Gives (Eval.known i.ty _) _
      rw [hty]
      refine .known (.bind hx.value fun p suits => Eval.gives_some rule.2 ?_)
      exact Eval.gives_content (pointer rule.1 suits) notFloating
    | addrOf =>
      obtain ⟨-, rfl⟩ := rule
      refine .known (Eval.gives_some (by rintro ⟨⟩) ?_)
      exact fun m p m' run => Eval.suits_pointer rfl (hx.place m p m' run)
    | preInc | preDec | postInc | postDec =>
      obtain ⟨⟨isLvalue, rfl⟩, -⟩ := rule
      exact .known (Eval.gives_some (object isLvalue) (Eval.gives_increment operand))
  · cases op with
    | deref =>
      exact fun m p m' run => pointer rule.1 (hx.value m p m' run)
    | _ => exact .throw _

theorem meets_binary {op : BinaryOp} (accepted : (Expr.binary i op x y).Accepted a) (integralx : x.isIntegral types)
    (integraly : y.isIntegral types) : (Expr.binary i op x y).Meets s := by
  obtain ⟨⟨d, -, -, run⟩, ax, ay⟩ := accepted
  have rule := binaryType_accepts (ax.definite noFallback).not_isDependent (ay.definite noFallback).not_isDependent
    ax.null ay.null run
  refine ⟨?_, .throw _⟩
  show Gives (Eval.run s (.binary i op x y)) (Result i.ty)
  refine .known ?_
  by_cases logical : op.isLogical
  · rw [if_pos logical, rule.logical_type logical]
    exact Eval.gives_some (by rintro ⟨⟩) (Eval.gives_logical op _ _)
  · rw [if_neg logical]
    have acting := Track.acting_of_rule (Bool.eq_false_iff.mpr logical) rule
    refine Eval.gives_some ?_ (Eval.gives_binary acting (Ty.not_isFloating_decay (Expr.isFloating_of_isIntegral integralx))
      (Ty.not_isFloating_decay (Expr.isFloating_of_isIntegral integraly)))
    exact Lowering.notVoid_of_hasKind (Lowering.hasKind_of_binaryRule rule)

theorem meets_assign {op : Option BinaryOp} (accepted : (Expr.assign i op x y).Accepted a)
    (integralx : x.isIntegral types) : (Expr.assign i op x y).Meets s := by
  obtain ⟨-, ⟨d, -, -, run⟩, ax, -⟩ := accepted
  obtain ⟨isLvalue, -, type, -⟩ := assignType_accepts (ax.definite noFallback).not_isDependent run
  have notVoid := (ax.isObject noFallback isLvalue).notVoid
  have notFloating := Expr.isFloating_of_isIntegral integralx
  refine ⟨?_, .throw _⟩
  show Gives (Eval.run s (.assign i op x y)) (Result i.ty)
  rw [type]
  cases op with
  | none => exact .known (Eval.gives_some notVoid (Eval.gives_assign notFloating))
  | some op => exact .known (Eval.gives_some notVoid (Eval.gives_compound notFloating))

theorem meets_conditional (accepted : (Expr.conditional i c x y).Accepted a)
    (integral : (Expr.conditional i c x y).isIntegral types) : (Expr.conditional i c x y).Meets s := by
  have notFloating : i.ty.isFloating = false := Expr.isFloating_of_isIntegral (e := .conditional i c x y) integral
  obtain ⟨⟨d, -, -, run⟩, ac, ax, ay⟩ := accepted
  obtain ⟨-, rule⟩ := conditionalType_accepts (ac.definite noFallback).not_isDependent
    (ax.definite noFallback).not_isDependent (ay.definite noFallback).not_isDependent ax.null ay.null run
  refine ⟨?_, .throw _⟩
  show Gives (Eval.known i.ty do
    if (← Eval.value (Eval.run s c)).isTruthy then Eval.branch i.ty x.ty (Eval.run s x)
    else Eval.branch i.ty y.ty (Eval.run s y)) (Result i.ty)
  generalize hty : i.ty = ty at rule notFloating
  have scalar {t : Ty} (h : t.decay.isScalar) : t.decay.scalar?.isSome := Lowering.hasKind_of_isScalar h
  have converts : ∀ k, ty.decay.scalar? = some k → k = .dyn ∨
      x.ty.decay.scalar?.isSome ∧ y.ty.decay.scalar?.isSome := by
    intro k known
    cases rule with
    | dynamic _ =>
      cases known
      exact .inl rfl
    | common left right =>
      exact .inr ⟨scalar (isScalar_of_isArithmetic left), scalar (isScalar_of_isArithmetic right)⟩
    | same same =>
      rw [Ty.decay_decay] at known
      exact .inr ⟨Option.isSome_iff_exists.mpr ⟨k, known⟩, Option.isSome_iff_exists.mpr ⟨k, same ▸ known⟩⟩
    | left pointer other => exact .inr ⟨scalar (isScalar_of_isPointer pointer), scalar other⟩
    | right other pointer => exact .inr ⟨scalar other, scalar (isScalar_of_isPointer pointer)⟩
  refine .known (.bind (.any _) fun _ _ => .ite (fun _ => ?_) fun _ => ?_)
  · exact Eval.gives_branch notFloating fun k known => (converts k known).imp_right And.left
  · exact Eval.gives_branch notFloating fun k known => (converts k known).imp_right And.right

theorem meets_index (accepted : (Expr.index i x y).Accepted a) (integral : (Expr.index i x y).isIntegral types) :
    (Expr.index i x y).Meets s := by
  have notFloating : i.ty.isFloating = false := Expr.isFloating_of_isIntegral (e := .index i x y) integral
  obtain ⟨⟨d, -, -, run⟩, ax, ay⟩ := accepted
  obtain ⟨notVoid, -⟩ := indexType_accepts (ax.definite noFallback).not_isDependent
    (ay.definite noFallback).not_isDependent run
  refine ⟨?_, ?_⟩
  · show Gives (Eval.run s (.index i x y)) (Result i.ty)
    exact .known (.bind (Eval.gives_element _ _ _ _ _) fun p pointer =>
      Eval.gives_some notVoid (Eval.gives_content pointer notFloating))
  · exact Eval.gives_element _ _ _ _ _

theorem meets_member {field : String} {arrow : Bool} (accepted : (Expr.member i x field arrow).Accepted a)
    (integral : (Expr.member i x field arrow).isIntegral types) (hx : x.Meets s) : (Expr.member i x field arrow).Meets s := by
  have notFloating : i.ty.isFloating = false := Expr.isFloating_of_isIntegral (e := .member i x field arrow) integral
  obtain ⟨-, ⟨d, sound, -, run⟩, ax⟩ := accepted
  obtain ⟨id, r, f, record, found, isField, type⟩ :=
    memberType_accepts (ax.definite noFallback).not_isDependent run
  have notVoid : i.ty ≠ .void := by
    rw [type]
    exact ((sound.record id r found).fields f (List.mem_of_find?_eq_some isField)).notVoid
  have content {p : Value} (pointer : p.IsOf .ptr) : Gives (do return some (← Eval.content i.ty p)) (Result i.ty) :=
    Eval.gives_some notVoid (Eval.gives_content pointer notFloating)
  cases arrow with
  | true =>
    have base : Gives (Eval.value (Eval.run s x)) (·.IsOf .ptr) := by
      intro m v m' run
      refine (hx.value m v m' run .ptr ?_).2
      rw [show x.ty.decay = _ from record]
      rfl
    refine ⟨?_, ?_⟩
    · show Gives (Eval.run s (.member i x field true)) (Result i.ty)
      exact .known (.bind base fun p pointer => .bind (Eval.gives_member _ _ pointer) fun q pointer => content pointer)
    · exact .bind base fun p pointer => Eval.gives_member _ _ pointer
  | false =>
    refine ⟨?_, ?_⟩
    · show Gives (Eval.run s (.member i x field false)) (Result i.ty)
      exact .known (.bind hx.place fun p pointer =>
        .bind (Eval.gives_member _ _ pointer) fun q pointer => content pointer)
    · exact .bind hx.place fun p pointer => Eval.gives_member _ _ pointer

theorem meets_cast {target : Ty} (accepted : (Expr.cast i target x).Accepted a)
    (integral : (Expr.cast i target x).isIntegral types) : (Expr.cast i target x).Meets s := by
  have notFloating : i.ty.isFloating = false := Expr.isFloating_of_isIntegral (e := .cast i target x) integral
  obtain ⟨spelled, ⟨d, -, -, run⟩, ax⟩ := accepted
  obtain ⟨type, kinds⟩ := castType_accepts spelled.definite.not_isDependent
    (ax.definite noFallback).not_isDependent run
  refine ⟨?_, .throw _⟩
  show Gives (Eval.run s (.cast i target x)) (Result i.ty)
  rw [type] at notFloating
  show Gives (Eval.known i.ty _) _
  rw [type]
  refine .known (Eval.gives_branch notFloating fun k known => .inr ?_)
  obtain void | ⟨-, scalar⟩ := kinds
  · rw [Ty.isVoid_iff.mp void] at known
    cases known
  · exact Lowering.hasKind_of_isScalar scalar

theorem meets_comma (accepted : (Expr.comma i x y).Accepted a) (hy : y.Meets s) : (Expr.comma i x y).Meets s := by
  obtain ⟨type, ax, ay⟩ := accepted
  rw [(ax.definite noFallback).not_isDependent, (ay.definite noFallback).not_isDependent] at type
  refine ⟨?_, .throw _⟩
  show Gives (Eval.run s (.comma i x y)) (Result i.ty)
  rw [type]
  exact .known (.bind (.any _) fun _ _ => hy.run)

omit noFallback in
theorem meets_sizeof {ty : Ty} {n : Nat} (type : ty = .unsignedLong) :
    Gives (Eval.known ty (return some (.int (Int64.ofNat n)))) (Result ty) := by
  subst type
  exact Expr.gives_constant _ (by rintro ⟨⟩) (Eval.suits_long (.inr rfl))

end Nodes

/-- An accepted expression without calls and floating numbers comes to a value of its type. -/
theorem Expr.Accepted.results {e : Expr} (accepted : e.Accepted a) (noFallback : a.fallback = none)
    (integral : e.each (Expr.isIntegral types)) : e.Meets s := by
  have here {e : Expr} (integral : e.each (Expr.isIntegral types)) : e.isIntegral types := Expr.each_here integral
  induction e using Expr.rec (motive_2 := fun _ => True) with
  | int i v suffix =>
    refine ⟨?_, .throw _⟩
    obtain ⟨k, known, integer, fits⟩ := wrap_intLiteral v suffix
    rw [← accepted.2] at known
    refine Expr.gives_constant _ ?_ (Eval.suits_of_isOf known (Ty.isFloat_of_isFloating
      (Expr.isFloating_of_isIntegral (here integral)) known) (Value.isOf_int integer fits))
    intro void
    rw [show i.ty = .void from void] at known
    cases known
  | float i v single =>
    have notFloating : i.ty.isFloating = false := Expr.isFloating_of_isIntegral (here integral)
    rw [show i.ty = _ from accepted] at notFloating
    cases single <;> cases notFloating
  | char i c =>
    refine ⟨?_, .throw _⟩
    have range : types.countable i.ty && decide (c ≤ 127) := here integral
    rw [Bool.and_eq_true] at range
    have fits := Scalar.wrap_i8_ofNat (of_decide_eq_true range.2)
    have type : i.ty = .char := accepted
    refine Expr.gives_constant i.ty ?_ ?_
    · rw [type]
      rintro ⟨⟩
    · rw [type]
      exact Eval.suits_of_isOf (k := .i8) rfl rfl (Value.isOf_int rfl fits)
  | str i text =>
    have type : i.ty = .array .char _ := accepted
    refine ⟨Expr.gives_constant i.ty ?_ ?_, .pure (Value.isOf_ptr _)⟩
    · rw [type]
      rintro ⟨⟩
    · rw [type]
      exact Eval.suits_pointer rfl (Value.isOf_ptr _)
  | bool i b =>
    have type : i.ty = .bool := accepted
    refine ⟨Expr.gives_constant i.ty ?_ ?_, .throw _⟩
    · rw [type]
      rintro ⟨⟩
    · rw [type]
      exact Eval.suits_of_isOf (k := .bool) rfl rfl (Value.isOf_ofBool b)
  | null i =>
    have type : i.ty = .voidPtr := accepted
    refine ⟨Expr.gives_constant i.ty ?_ ?_, .throw _⟩
    · rw [type]
      rintro ⟨⟩
    · rw [type]
      exact Eval.suits_pointer rfl (Value.isOf_ptr _)
  | ident i name binding => exact meets_ident noFallback accepted (here integral)
  | unary i op x ih =>
    have parts := (Bool.and_eq_true _ _).mp integral
    exact meets_unary noFallback accepted parts.1 (here parts.2) (ih accepted.2 parts.2)
  | binary i op x y ihx ihy =>
    have parts := (Bool.and_eq_true _ _).mp ((Bool.and_eq_true _ _).mp integral).2
    exact meets_binary noFallback accepted (here parts.1) (here parts.2)
  | assign i op x y ihx ihy =>
    have parts := (Bool.and_eq_true _ _).mp ((Bool.and_eq_true _ _).mp integral).2
    exact meets_assign noFallback accepted (here parts.1)
  | conditional i c x y ihc ihx ihy => exact meets_conditional noFallback accepted (here integral)
  | call i name target args => exact absurd (here integral) Bool.false_ne_true
  | index i x y ihx ihy => exact meets_index noFallback accepted (here integral)
  | member i x field arrow ih =>
    have parts := (Bool.and_eq_true _ _).mp integral
    exact meets_member noFallback accepted parts.1 (ih accepted.2.2 parts.2)
  | cast i target x ih => exact meets_cast noFallback accepted (here integral)
  | sizeofType i target =>
    obtain ⟨spelled, d, -, -, run⟩ := accepted
    exact ⟨meets_sizeof (sizeofType_accepts spelled.definite.not_isDependent run), .throw _⟩
  | sizeofExpr i x ih =>
    obtain ⟨⟨d, -, -, run⟩, ax⟩ := accepted
    exact ⟨meets_sizeof (sizeofExprType_accepts (ax.definite noFallback).not_isDependent run), .throw _⟩
  | comma i x y ihx ihy =>
    have parts := (Bool.and_eq_true _ _).mp ((Bool.and_eq_true _ _).mp integral).2
    exact meets_comma noFallback accepted (ihy accepted.2.2 parts.2)
  | invalid i => exact accepted.elim
  | nil => trivial
  | cons => trivial

end Typed

end IncrementalC
