import IncrementalC.Proofs.Machine.Preserved
import IncrementalC.Proofs.Semantics.Suited

/-!
# Accepted expressions have a meaning

`Eval.Means M`: the computation `M` may fail as the machine would, but it is never without a meaning. This
holds of accepted expressions without calls and floating numbers in which a value stands wherever one is
taken (`Expr.Accepted.meant`).
-/
namespace IncrementalC
set_option autoImplicit false
open Typed Analyze Lowering

namespace Eval

variable {α β : Type} {M : Eval α} {N : α → Eval β} {P : α → Prop}

abbrev Means (M : Eval α) : Prop := Raises (fun e => e ≠ Abort.meaningless) M

/-- The second computation may ask for what the first one gives. -/
theorem Means.bind_of (gives : Gives M P) (hM : Means M) (hN : ∀ x, P x → Means (N x)) : Means (M >>= N) := by
  intro m e m' run
  obtain first | ⟨x, m₁, first, second⟩ := Raises.bind_eq_error run
  · exact hM m e m' first
  · exact hN x (gives m x m₁ first) m₁ e m' second

theorem Means.ite {c : Prop} [Decidable c] {M' : Eval α} (h : c → Means M) (h' : ¬c → Means M') :
    Means (if c then M else M') := by
  split
  · exact h ‹_›
  · exact h' ‹_›

theorem Means.known {ty : Ty} (definite : ty.Definite) (h : Means M) : Means (known ty M) := by
  unfold Eval.known
  rw [definite.not_isDependent]
  exact h

theorem Means.counted {slots : Nat} (small : slots < UInt32.size) (h : Means M) : Means (counted slots M) := by
  unfold Eval.counted
  rw [if_pos small]
  exact h

theorem means_ofExcept (x : Except Fault α) : Means (ofExcept x) := by
  cases x with
  | ok y => exact .pure y
  | error f => exact .throw nofun

theorem Means.value {x : Eval (Option Value)} {ty : Ty} (h : Means x) (gives : Gives x (Result ty))
    (notVoid : ty ≠ .void) : Means (value x) := by
  refine .bind_of gives h fun r result => ?_
  have valued := result.valued
  rw [Bool.eq_false_iff.mpr (mt Ty.isVoid_iff.mp notVoid)] at valued
  cases r with
  | none => cases valued
  | some v => exact .pure v

/-! ## Memory -/

theorem means_load (kind : Scalar) (p : Value) : Means (load kind p) :=
  .bind .get fun _ => .bind (means_ofExcept _) fun _ => .pure _

theorem means_store (p v : Value) : Means (store p v) := by
  refine .bind .get fun m => .bind (means_ofExcept _) fun m' => ?_
  exact .modifyGet fun _ => (PUnit.unit, m')

theorem means_storeAll (target : Address) (vs : List Value) : Means (storeAll target vs) := by
  induction vs generalizing target with
  | nil => exact .pure _
  | cons v vs ih => exact .bind (means_store _ _) fun _ => ih _

theorem means_copy (count : Nat) (p q : Value) : Means (copy count p q) :=
  .bind .get fun _ => .bind (means_ofExcept _) fun vs => means_storeAll _ vs

variable {s : Scene} {ty : Ty} {v : Value}

theorem means_content (object : ty.IsObject) (p : Value) : Means (content ty p) := by
  refine Means.ite (fun _ => .pure _) fun notAggregate => ?_
  obtain ⟨k, known⟩ := Option.isSome_iff_exists.mp (hasKind_of_isObject object (Bool.eq_false_iff.mpr notAggregate))
  rw [show ty.decay.scalar? = some k from known]
  exact means_load k p

theorem means_variableAddress {binding : Binding} (isVariable : binding.isVariable) :
    Means (variableAddress s binding) := by
  cases binding with
  | «local» slot => exact .pure _
  | global name =>
    show Means (objectAddress s name)
    unfold objectAddress
    split
    · exact .pure _
    · refine .bind .get fun m => ?_
      split
      · exact .pure _
      · exact .throw nofun
  | _ => cases isVariable

/-! ## Operators -/

variable {x y : Eval Value} {a b : Ty}

theorem means_element (elem a b : Ty) (hx : Means x) (hy : Means y) : Means (element s elem a b x y) :=
  Means.ite (fun _ => .bind hx fun _ => .bind hy fun _ => .pure _) fun _ => .bind hy fun _ => .bind hx fun _ => .pure _

theorem means_member {id : RecordId} {r : RecordDef} {f : Field} {field : String} (found : s.types.record? id = some r)
    (isField : r.field? field = some f) (p : Value) : Means (member s (some (.record id)) field p) := by
  rw [member_known (f := f) (by rw [found]; exact isField)]
  exact .pure _

theorem means_apply {op : BinaryOp} {u w : Value} (notLogical : op.isLogical = false) (kind : HasKind ty) :
    Means (apply op ty a b u w) := by
  obtain ⟨k, known⟩ := Option.isSome_iff_exists.mp kind
  have machine : (machineOp? op).isSome := by
    cases op with
    | and | or => cases notLogical
    | _ => rfl
  obtain ⟨code, found⟩ := Option.isSome_iff_exists.mp machine
  rw [Track.apply_eq found known]
  exact means_ofExcept _

theorem means_unary {op : Code.UnaryOp} (kind : HasKind ty) (v : Value) : Means (unary op ty v) := by
  obtain ⟨k, known⟩ := Option.isSome_iff_exists.mp (hasKind_promote (hasKind_decay.mpr kind))
  have known : ty.decay.promote.scalar? = some k := by
    rw [← Track.decay_promote]
    exact known
  unfold unary
  dsimp only
  rw [known]
  exact means_ofExcept _

theorem means_logical (op : BinaryOp) (hx : Means x) (hy : Means y) : Means (logical op x y) :=
  .bind hx fun _ => Means.ite (fun _ => .pure _) fun _ => .bind hy fun _ => .pure _

theorem hasKind_operationType (op : BinaryOp) (ha : HasKind a) : HasKind (operationType op a b) := by
  cases op with
  | shl | shr => exact hasKind_promote ha
  | _ => exact hasKind_common ha

theorem hasKind_commonType (op : BinaryOp) (ha : HasKind a) : HasKind (commonType op a b) := by
  unfold commonType
  split
  · rfl
  split
  · rfl
  · exact hasKind_operationType op ha

theorem means_binary {op : BinaryOp} (acting : Track.Acting op a b ty) (notLogical : op.isLogical = false)
    (ha : HasKind a) (small : (a.pointee?.map s.types.slots).getD 0 < UInt32.size) (hx : Means x) (hy : Means y) :
    Means (binary s op a b x y) := by
  cases acting with
  | numbers h =>
    rw [h.eval_eq]
    exact .bind hx fun _ => .bind hy fun _ => means_apply notLogical (hasKind_commonType op ha)
  | offset moves left right =>
    obtain rfl | rfl := moves
    · simp only [binary, left, right]
      exact .bind hx fun _ => .bind hy fun _ => .pure _
    · simp only [binary, left, right]
      exact .bind hx fun _ => .bind hy fun _ => .pure _
  | offsetLeft adds left right =>
    subst adds
    simp only [binary, left, right, Track.not_isPointer_of_number (.inl (isArithmetic_of_isInteger left))]
    exact .bind hy fun _ => .bind hx fun _ => .pure _
  | difference subtracts left right =>
    subst subtracts
    simp only [binary, left, right, Track.not_isInteger_of_isPointer right]
    exact Means.counted small (.bind hx fun _ => .bind hy fun _ => .pure _)

theorem means_assign (object : ty.IsObject) (notArray : ty.isArray = false) (small : s.types.slots ty < UInt32.size)
    (hx : Means x) (hy : Means y) : Means (assign s ty b x y) := by
  refine Means.ite (fun _ => Means.counted small ?_) fun notRecord => ?_
  · exact .bind hx fun _ => .bind hy fun _ => .bind (means_copy _ _ _) fun _ => .pure _
  · have notAggregate : ty.isAggregate = false := by
      rw [Ty.isAggregate, notArray, Bool.eq_false_iff.mpr notRecord]
      rfl
    obtain ⟨k, known⟩ := Option.isSome_iff_exists.mp (hasKind_of_isObject object notAggregate)
    rw [show ty.decay.scalar? = some k from known]
    exact .bind hx fun _ => .bind hy fun _ => .bind (means_store _ _) fun _ => .pure _

theorem means_compound {op : BinaryOp} (notLogical : op.isLogical = false) (kind : HasKind ty) (hx : Means x)
    (hy : Means y) : Means (compound s op ty b x y) := by
  have updates (old w : Value) : Means (update s op ty b old w) :=
    .ite (fun _ => .pure _) fun _ =>
      .bind (means_apply notLogical (hasKind_operationType op kind)) fun _ => .pure _
  obtain ⟨k, known⟩ := Option.isSome_iff_exists.mp kind
  unfold compound
  rw [show ty.decay.scalar? = some k from known]
  refine .bind hx fun _ => .bind (means_load _ _) fun _ => .bind hy fun _ => .bind (updates _ _) fun _ => ?_
  exact .bind (means_store _ _) fun _ => .pure _

theorem means_increment {up post : Bool} (kind : HasKind ty) (hx : Means x) : Means (increment s ty up post x) := by
  obtain ⟨k, known⟩ := Option.isSome_iff_exists.mp kind
  unfold increment
  rw [show ty.decay.scalar? = some k from known]
  exact .bind hx fun _ => .bind (means_load _ _) fun _ => .bind (means_store _ _) fun _ => .pure _

theorem means_branch {target : Ty} {x : Eval (Option Value)} (hx : Means x) (gives : Gives x (Result ty))
    (valued : target.isVoid ∨ ty ≠ .void) : Means (branch target ty x) := by
  refine Means.ite (fun _ => .bind hx fun _ => .pure _) fun notVoid => ?_
  exact .bind (Means.value hx gives (valued.resolve_left notVoid)) fun _ => .pure _

end Eval

/-! ## Expressions -/

namespace Typed
open Eval (Means)

variable {a : Analysis} {s : Scene}

structure Expr.Meant (s : Scene) (e : Expr) : Prop where
  run : Means (Eval.run s e)
  place : e.isLvalue → Means (Eval.place s e)

theorem Expr.small_of_isIntegral {types : TypeTable} {e : Expr} (h : e.isIntegral types) :
    types.slots e.ty < UInt32.size ∧ (e.ty.pointee?.map types.slots).getD 0 < UInt32.size := by
  have small {ty : Ty} (h : types.countable ty) :
      types.slots ty < UInt32.size ∧ (ty.pointee?.map types.slots).getD 0 < UInt32.size := by
    unfold TypeTable.countable at h
    simp only [Bool.and_eq_true] at h
    exact ⟨of_decide_eq_true h.1.2, of_decide_eq_true h.2⟩
  unfold Expr.isIntegral at h
  split at h
  · cases h
  · cases h
  · rw [Bool.and_eq_true] at h
    exact small h.1
  · rw [Bool.and_eq_true, Bool.and_eq_true] at h
    exact small h.1.1
  · exact small h

/-- An expression that is no object has no place. -/
theorem Expr.Meant.ofResult {e : Expr} (definite : e.ty.Definite) (isLvalue : e.isLvalue = e.ty.isDependent)
    (run : Means (Eval.run s e)) : e.Meant s := by
  refine ⟨run, fun object => ?_⟩
  rw [isLvalue, definite.not_isDependent] at object
  cases object

section Nodes

variable {i : Info} {x y c : Expr} (noFallback : a.fallback = none)
include noFallback

theorem meant_ident {name : String} {binding : Binding} (accepted : (Expr.ident i name binding).Accepted a) :
    (Expr.ident i name binding).Meant s := by
  have bound : Bound a binding i.ty := accepted.2
  obtain ⟨object, isVariable | ⟨v, rfl⟩⟩ := bound_cases bound noFallback
  · refine ⟨?_, fun _ => Eval.means_variableAddress isVariable⟩
    have content : Means (do return some (← Eval.content i.ty (← Eval.variableAddress s binding))) :=
      .bind (Eval.means_variableAddress isVariable) fun p => .bind (Eval.means_content object p) fun _ => .pure _
    cases binding with
    | «local» _ | global _ => exact Means.known object.definite content
    | _ => cases isVariable
  · exact ⟨Means.known object.definite (.pure _), nofun⟩

theorem meant_unary {op : UnaryOp} (accepted : (Expr.unary i op x).Accepted a) (hx : x.Meant s) (results : x.Meets s) :
    (Expr.unary i op x).Meant s := by
  have definite : i.ty.Definite := accepted.definite noFallback
  obtain ⟨⟨d, -, -, run⟩, ax⟩ := accepted
  have rule := unaryType_accepts (ax.definite noFallback).not_isDependent run
  have value (notVoid : x.ty ≠ .void) : Means (Eval.value (Eval.run s x)) := hx.run.value results.run notVoid
  have number (h : x.ty.decay.isDynamic ∨ x.ty.decay.isArithmetic) : x.ty.decay.isScalar :=
    h.elim isScalar_of_isDynamic isScalar_of_isArithmetic
  have pointer {t : Ty} (h : x.ty.decay = .pointer t) : x.ty ≠ .void := by
    intro void
    rw [void] at h
    cases h
  refine ⟨?_, fun isLvalue => ?_⟩
  · cases op with
    | plus =>
      exact Means.known definite (.bind (value (isScalar_facts (number rule.1)).2.1) fun _ => .pure _)
    | neg | bitNot =>
      refine Means.known definite (.bind (value (isScalar_facts (number rule.1)).2.1) fun v => ?_)
      exact .bind (Eval.means_unary (hasKind_of_isScalar (number rule.1)) v) fun _ => .pure _
    | not =>
      exact Means.known definite (.bind (value (isScalar_facts rule.1).2.1) fun _ => .pure _)
    | deref =>
      refine Means.known definite (.bind (value (pointer rule.1)) fun p => ?_)
      exact .bind (Eval.means_content ⟨definite, rule.2⟩ p) fun _ => .pure _
    | addrOf =>
      exact Means.known definite (.bind (hx.place rule.1) fun _ => .pure _)
    | preInc | preDec | postInc | postDec =>
      obtain ⟨⟨object, -⟩, kind⟩ := rule
      have kind : HasKind x.ty := hasKind_of_isScalar (kind.elim isScalar_of_isArithmetic
        (·.elim isScalar_of_isPointer isScalar_of_isDynamic))
      exact Means.known definite (.bind (Eval.means_increment kind (hx.place object)) fun _ => .pure _)
  · cases op with
    | deref =>
      exact value (pointer rule.1)
    | _ =>
      rw [show Expr.isLvalue (.unary i _ x) = i.ty.isDependent from rfl, definite.not_isDependent] at isLvalue
      cases isLvalue

theorem meant_binary {op : BinaryOp} (accepted : (Expr.binary i op x y).Accepted a)
    (small : (x.ty.pointee?.map s.types.slots).getD 0 < UInt32.size) (hx : x.Meant s) (hy : y.Meant s)
    (rx : x.Meets s) (ry : y.Meets s) : (Expr.binary i op x y).Meant s := by
  have definite : i.ty.Definite := accepted.definite noFallback
  obtain ⟨⟨d, -, -, run⟩, ax, ay⟩ := accepted
  have rule := binaryType_accepts (ax.definite noFallback).not_isDependent (ay.definite noFallback).not_isDependent
    ax.null ay.null run
  have left := hx.run.value rx.run (isScalar_facts rule.scalars.1).2.1
  have right := hy.run.value ry.run (isScalar_facts rule.scalars.2).2.1
  refine .ofResult definite rfl ?_
  refine Means.known definite (Means.ite (fun _ => ?_) fun notLogical => ?_)
  · exact .bind (Eval.means_logical op left right) fun _ => .pure _
  · have notLogical := Bool.eq_false_iff.mpr notLogical
    have kind : HasKind x.ty.decay := hasKind_decay.mpr (hasKind_of_isScalar rule.scalars.1)
    have small : (x.ty.decay.pointee?.map s.types.slots).getD 0 < UInt32.size := by
      cases h : x.ty <;> rw [h] at small <;> exact small
    exact .bind (Eval.means_binary (Track.acting_of_rule notLogical rule) notLogical kind small left right)
      fun _ => .pure _

theorem meant_assign {op : Option BinaryOp} (accepted : (Expr.assign i op x y).Accepted a)
    (small : s.types.slots x.ty < UInt32.size) (notVoid : y.ty ≠ .void) (hx : x.Meant s) (hy : y.Meant s)
    (ry : y.Meets s) : (Expr.assign i op x y).Meant s := by
  have definite : i.ty.Definite := accepted.definite noFallback
  obtain ⟨arithmetic, ⟨d, -, -, run⟩, ax, ay⟩ := accepted
  obtain ⟨isLvalue, notArray, -, operator⟩ := assignType_accepts (ax.definite noFallback).not_isDependent run
  have object := ax.isObject noFallback isLvalue
  have value := hy.run.value ry.run notVoid
  refine .ofResult definite rfl ?_
  cases op with
  | none =>
    exact Means.known definite
      (.bind (Eval.means_assign object notArray small (hx.place isLvalue) value) fun _ => .pure _)
  | some op =>
    obtain ⟨t, run⟩ := operator op rfl
    have rule := binaryType_accepts (ax.definite noFallback).not_isDependent
      (ay.definite noFallback).not_isDependent ax.null ay.null run
    have kind : HasKind x.ty := hasKind_of_isScalar rule.scalars.1
    have notLogical : op.isLogical = false := by
      have arithmetic := arithmetic op rfl
      cases op <;> first | rfl | cases arithmetic
    exact Means.known definite
      (.bind (Eval.means_compound notLogical kind (hx.place isLvalue) value) fun _ => .pure _)

theorem meant_conditional (accepted : (Expr.conditional i c x y).Accepted a)
    (filled : i.ty.isVoid ∨ x.ty ≠ .void ∧ y.ty ≠ .void) (hc : c.Meant s) (hx : x.Meant s) (hy : y.Meant s)
    (rc : c.Meets s) (rx : x.Meets s) (ry : y.Meets s) : (Expr.conditional i c x y).Meant s := by
  have definite : i.ty.Definite := accepted.definite noFallback
  obtain ⟨⟨d, -, -, run⟩, ac, ax, ay⟩ := accepted
  obtain ⟨scalar, -⟩ := conditionalType_accepts (ac.definite noFallback).not_isDependent
    (ax.definite noFallback).not_isDependent (ay.definite noFallback).not_isDependent ax.null ay.null run
  refine .ofResult definite rfl ?_
  refine Means.known definite (.bind (hc.run.value rc.run (isScalar_facts (isScalar_decay scalar)).2.1) fun u => ?_)
  exact Means.ite (fun _ => Eval.means_branch hx.run rx.run (filled.imp_right And.left))
    fun _ => Eval.means_branch hy.run ry.run (filled.imp_right And.right)

theorem meant_index (accepted : (Expr.index i x y).Accepted a) (hx : x.Meant s) (hy : y.Meant s) (rx : x.Meets s)
    (ry : y.Meets s) : (Expr.index i x y).Meant s := by
  have definite : i.ty.Definite := accepted.definite noFallback
  obtain ⟨⟨d, -, -, run⟩, ax, ay⟩ := accepted
  obtain ⟨notVoid, kinds⟩ := indexType_accepts (ax.definite noFallback).not_isDependent
    (ay.definite noFallback).not_isDependent run
  have pointer {t u : Ty} (h : t.pointee? = some u) : t ≠ .void := by
    rintro rfl
    cases h
  have number {t : Ty} (h : t.isInteger ∨ t.isDynamic) : t ≠ .void := by
    rintro rfl
    rcases h with h | h <;> cases h
  have operands : x.ty ≠ .void ∧ y.ty ≠ .void := by
    rcases kinds with ⟨left, right⟩ | ⟨right, left⟩
    · exact ⟨pointer left, number right⟩
    · exact ⟨number left, pointer right⟩
  have element : Means (Eval.element s i.ty x.ty y.ty (Eval.value (Eval.run s x)) (Eval.value (Eval.run s y))) :=
    Eval.means_element _ _ _ (hx.run.value rx.run operands.1) (hy.run.value ry.run operands.2)
  refine ⟨?_, fun _ => ?_⟩
  · refine Means.known definite (.bind element fun p => ?_)
    exact .bind (Eval.means_content ⟨definite, notVoid⟩ p) fun _ => .pure _
  · exact element

theorem meant_member {field : String} {arrow : Bool} (accepted : (Expr.member i x field arrow).Accepted a)
    (types : s.types = a.types) (object : arrow ∨ x.isLvalue) (hx : x.Meant s) (rx : x.Meets s) :
    (Expr.member i x field arrow).Meant s := by
  have definite : i.ty.Definite := accepted.definite noFallback
  obtain ⟨-, ⟨d, sound, later, run⟩, ax⟩ := accepted
  obtain ⟨id, r, f, record, found, isField, type⟩ :=
    memberType_accepts (ax.definite noFallback).not_isDependent run
  have mem := List.mem_of_find?_eq_some isField
  have notVoid : i.ty ≠ .void := by
    rw [type]
    exact ((sound.record id r found).fields f mem).notVoid
  have complete : r.complete := by
    refine (Bool.not_eq_false _).mp fun incomplete => ?_
    rw [(sound.record id r found).incomplete incomplete] at mem
    cases mem
  have found : s.types.record? id = some r := by
    rw [types]
    exact later.complete id r found complete
  have content (p : Value) : Means (do return some (← Eval.content i.ty p)) :=
    .bind (Eval.means_content ⟨definite, notVoid⟩ p) fun _ => .pure _
  cases arrow with
  | true =>
    have record : x.ty.decay = .pointer (.record id) := record
    have base : Means (Eval.value (Eval.run s x)) := by
      refine hx.run.value rx.run fun void => ?_
      rw [void] at record
      cases record
    have member (p : Value) : Means (Eval.member s x.ty.decay.pointee? field p) := by
      rw [record]
      exact Eval.means_member found isField p
    refine ⟨?_, fun _ => ?_⟩
    · exact Means.known definite (.bind base fun p => .bind (member p) fun q => content q)
    · exact .bind base fun p => member p
  | false =>
    have record : x.ty = .record id := record
    have member (p : Value) : Means (Eval.member s (some x.ty) field p) := by
      rw [record]
      exact Eval.means_member found isField p
    have base := hx.place (object.resolve_left Bool.false_ne_true)
    refine ⟨?_, fun _ => ?_⟩
    · exact Means.known definite (.bind base fun p => .bind (member p) fun q => content q)
    · exact .bind base fun p => member p

theorem meant_cast {target : Ty} (accepted : (Expr.cast i target x).Accepted a) (hx : x.Meant s) (rx : x.Meets s) :
    (Expr.cast i target x).Meant s := by
  have definite : i.ty.Definite := accepted.definite noFallback
  obtain ⟨spelled, ⟨d, -, -, run⟩, ax⟩ := accepted
  obtain ⟨-, kinds⟩ := castType_accepts spelled.definite.not_isDependent (ax.definite noFallback).not_isDependent run
  refine .ofResult definite rfl ?_
  exact Means.known definite (Eval.means_branch hx.run rx.run
    (kinds.imp_right fun scalar => (isScalar_facts scalar.2).2.1))

end Nodes

theorem isVoid_eq_false {ty : Ty} (h : (!ty.isVoid) = true) : ty ≠ .void := by
  rintro rfl
  cases h

/-- An accepted expression without calls and floating numbers is evaluated to an end: to its result, or to a fault. -/
theorem Expr.Accepted.meant {e : Expr} (accepted : e.Accepted a) (noFallback : a.fallback = none)
    (types : s.types = a.types) (integral : e.each (Expr.isIntegral s.types)) (filled : e.filled) : e.Meant s := by
  have both {p q : Bool} (h : (p && q) = true) : p = true ∧ q = true := (Bool.and_eq_true _ _).mp h
  have small {e : Expr} (integral : e.each (Expr.isIntegral s.types)) :=
    Expr.small_of_isIntegral (Expr.each_here integral)
  induction e using Expr.rec (motive_2 := fun _ => True) with
  | int i v suffix => exact .ofResult (accepted.definite noFallback) rfl (Means.known (accepted.definite noFallback) (.pure _))
  | char i c => exact .ofResult (accepted.definite noFallback) rfl (Means.known (accepted.definite noFallback) (.pure _))
  | bool i b => exact .ofResult (accepted.definite noFallback) rfl (Means.known (accepted.definite noFallback) (.pure _))
  | null i => exact .ofResult (accepted.definite noFallback) rfl (Means.known (accepted.definite noFallback) (.pure _))
  | str i text => exact ⟨Means.known (accepted.definite noFallback) (.pure _), fun _ => .pure _⟩
  | float i v single => exact .ofResult (accepted.definite noFallback) rfl (Means.known (accepted.definite noFallback) (.pure _))
  | sizeofType i target => exact .ofResult (accepted.definite noFallback) rfl (Means.known (accepted.definite noFallback) (.pure _))
  | sizeofExpr i x ih => exact .ofResult (accepted.definite noFallback) rfl (Means.known (accepted.definite noFallback) (.pure _))
  | ident i name binding => exact meant_ident noFallback accepted
  | unary i op x ih =>
    have hx := (both integral).2
    exact meant_unary noFallback accepted (ih accepted.2 hx filled) (accepted.2.results noFallback hx)
  | binary i op x y ihx ihy =>
    obtain ⟨hx, hy⟩ := both (both integral).2
    obtain ⟨fx, fy⟩ := both filled
    exact meant_binary noFallback accepted (small hx).2 (ihx accepted.2.1 hx fx) (ihy accepted.2.2 hy fy)
      (accepted.2.1.results noFallback hx) (accepted.2.2.results noFallback hy)
  | assign i op x y ihx ihy =>
    obtain ⟨hx, hy⟩ := both (both integral).2
    obtain ⟨valued, fy⟩ := both filled
    obtain ⟨notVoid, fx⟩ := both valued
    exact meant_assign noFallback accepted (small hx).1 (isVoid_eq_false notVoid) (ihx accepted.2.2.1 hx fx)
      (ihy accepted.2.2.2 hy fy) (accepted.2.2.2.results noFallback hy)
  | conditional i c x y ihc ihx ihy =>
    obtain ⟨hcx, hy⟩ := both (both integral).2
    obtain ⟨hc, hx⟩ := both hcx
    obtain ⟨rest, fy⟩ := both filled
    obtain ⟨rest, fx⟩ := both rest
    obtain ⟨valued, fc⟩ := both rest
    have valued : i.ty.isVoid ∨ x.ty ≠ .void ∧ y.ty ≠ .void := by
      rw [Bool.or_eq_true] at valued
      exact valued.imp_right fun both_ => ⟨isVoid_eq_false (both both_).1, isVoid_eq_false (both both_).2⟩
    obtain ⟨rule, ac, ax, ay⟩ := id accepted
    exact meant_conditional noFallback accepted valued (ihc ac hc fc) (ihx ax hx fx) (ihy ay hy fy)
      (ac.results noFallback hc) (ax.results noFallback hx) (ay.results noFallback hy)
  | call i name target args => exact absurd (Expr.each_here integral) nofun
  | index i x y ihx ihy =>
    obtain ⟨hx, hy⟩ := both (both integral).2
    obtain ⟨fx, fy⟩ := both filled
    exact meant_index noFallback accepted (ihx accepted.2.1 hx fx) (ihy accepted.2.2 hy fy)
      (accepted.2.1.results noFallback hx) (accepted.2.2.results noFallback hy)
  | member i x field arrow ih =>
    have hx := (both integral).2
    obtain ⟨object, fx⟩ := both filled
    rw [Bool.or_eq_true] at object
    exact meant_member noFallback accepted types object (ih accepted.2.2 hx fx) (accepted.2.2.results noFallback hx)
  | cast i target x ih =>
    have hx := (both integral).2
    exact meant_cast noFallback accepted (ih accepted.2.2 hx filled) (accepted.2.2.results noFallback hx)
  | comma i x y ihx ihy =>
    obtain ⟨hx, hy⟩ := both (both integral).2
    obtain ⟨fx, fy⟩ := both filled
    refine .ofResult (accepted.definite noFallback) rfl ?_
    exact Means.known (accepted.definite noFallback)
      (.bind (ihx accepted.2.1 hx fx).run fun _ => (ihy accepted.2.2 hy fy).run)
  | invalid i => exact accepted.elim
  | nil => trivial
  | cons => trivial

end Typed

end IncrementalC
