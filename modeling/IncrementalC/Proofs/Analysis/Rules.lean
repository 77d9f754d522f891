import IncrementalC.Proofs.Analysis.Known

/-!
# What the typing rules accept

Each rule read backwards: if it gives a type without a complaint, its operands are as it asks. No
operand is taken to be dependent, as a rule asks nothing then.
-/
namespace IncrementalC.Analyze
set_option autoImplicit false
open Typed

variable {a : Analysis} {ty : Ty} {span : Span}

theorem not_fail {problem : Problem} : (fail problem span).run a ≠ (ty, a) := by
  intro run
  have errors : a.errors.push ⟨problem, span⟩ = a.errors := congrArg (fun r => r.2.errors) run
  have size := congrArg Array.size errors
  rw [Array.size_push] at size
  omega

theorem run_typeName {α : Type} (t : Ty) (f : String → Analyze α) :
    (typeName t >>= f).run a = (f (a.types.name t)).run a := rfl

theorem not_failNamed {problem : String → Problem} {t : Ty} :
    (do Analyze.fail (problem (← typeName t)) span : Analyze Ty).run a ≠ (ty, a) := by
  rw [run_typeName]
  exact not_fail

theorem not_failNamed₂ {problem : String → String → Problem} {t t' : Ty} :
    (do Analyze.fail (problem (← typeName t) (← typeName t')) span : Analyze Ty).run a ≠ (ty, a) := by
  rw [run_typeName, run_typeName]
  exact not_fail

theorem of_pure {t : Ty} (run : (Pure.pure t : Analyze Ty).run a = (ty, a)) : ty = t :=
  (congrArg Prod.fst run).symm

theorem run_get {α : Type} (f : Analysis → Analyze α) : (MonadState.get >>= f).run a = (f a).run a :=
  rfl

theorem isDependent_decay (t : Ty) : t.decay.isDependent = t.isDependent := by
  cases t <;> rfl

theorem isDynamic_iff {t : Ty} : t.isDynamic ↔ t = .dynamic := by
  cases t <;> simp [Ty.isDynamic]

/-! ## Operators -/

/-- What a unary operator asks of its operand, and the type that it gives. -/
def UnaryRule (op : UnaryOp) (e : Expr) (ty : Ty) : Prop :=
  match op with
  | .neg | .plus | .bitNot =>
    (e.ty.decay.isDynamic ∨ e.ty.decay.isArithmetic) ∧ ty = e.ty.decay.promote
  | .not => e.ty.decay.isScalar ∧ ty = .bool
  | .deref => e.ty.decay = .pointer ty ∧ ty ≠ .void
  | .addrOf => e.isLvalue ∧ ty = .pointer e.ty
  | .preInc | .preDec | .postInc | .postDec =>
    (e.isLvalue ∧ ty = e.ty)
      ∧ (e.ty.decay.isArithmetic ∨ e.ty.decay.isPointer ∨ e.ty.decay.isDynamic)

theorem unaryType_accepts {op : UnaryOp} {e : Expr} (known : e.ty.isDependent = false)
    (run : (unaryType op e span).run a = (ty, a)) : UnaryRule op e ty := by
  have notDependent : ¬e.ty.decay.isDependent := by
    rw [isDependent_decay, known]
    exact nofun
  unfold unaryType at run
  dsimp only at run
  rw [if_neg notDependent] at run
  cases op with
  | neg | plus | bitNot =>
    dsimp only at run
    split at run
    · rename_i dynamic
      cases run
      exact ⟨.inl dynamic, by rw [isDynamic_iff.mp dynamic]; rfl⟩
    · split at run
      · rename_i kind
        cases run
        refine ⟨.inr ?_, rfl⟩
        first | exact kind | rw [Ty.isArithmetic, kind, Bool.true_or]
      · exact absurd run not_failNamed
  | not =>
    dsimp only at run
    split at run
    · rename_i scalar
      cases run
      exact ⟨scalar, rfl⟩
    · exact absurd run not_failNamed
  | deref =>
    dsimp only at run
    split at run
    · exact absurd run not_fail
    · rename_i inner notVoid pointer
      cases run
      exact ⟨pointer, notVoid⟩
    · exact absurd run not_failNamed
  | addrOf =>
    dsimp only at run
    split at run
    · cases run
      exact ⟨‹_›, rfl⟩
    · exact absurd run not_fail
  | preInc | preDec | postInc | postDec =>
    dsimp only at run
    split at run
    · exact absurd run not_fail
    · split at run
      · exact absurd run not_failNamed
      · rename_i object kind
        cases run
        simp only [Bool.or_eq_true, Bool.not_eq_true', not_or, Bool.not_eq_false] at object
        simp only [Bool.and_eq_true, Bool.not_eq_true', not_and, Bool.not_eq_false] at kind
        refine ⟨⟨object.1, rfl⟩, ?_⟩
        by_cases arithmetic : e.ty.decay.isArithmetic
        · exact .inl arithmetic
        · by_cases pointer : e.ty.decay.isPointer
          · exact .inr (.inl pointer)
          · exact .inr (.inr (kind ⟨Bool.eq_false_iff.mpr arithmetic, Bool.eq_false_iff.mpr pointer⟩))

/-- What a binary operator makes of operands of decayed types `s` and `t`. -/
inductive BinaryRule (op : BinaryOp) (s t : Ty) : Ty → Prop where
  | logical (isLogical : op.isLogical) (left : s.isScalar) (right : t.isScalar) : BinaryRule op s t .bool
  | dynamic (notLogical : op.isLogical = false) (dynamic : s.isDynamic ∨ t.isDynamic)
      (left : s.isArithmetic ∨ s.isDynamic) (right : t.isArithmetic ∨ t.isDynamic) :
      BinaryRule op s t (if op.isComparison then .bool else .dynamic)
  | compared (isComparison : op.isComparison)
      (operands : s.isArithmetic ∧ t.isArithmetic ∨ s.isPointer ∧ t.isScalar ∨ s.isScalar ∧ t.isPointer) :
      BinaryRule op s t .bool
  | common (notComparison : op.isComparison = false) (notLogical : op.isLogical = false)
      (notShift : op ≠ .shl ∧ op ≠ .shr) (left : s.isArithmetic) (right : t.isArithmetic) : BinaryRule op s t (Ty.common s t)
  | shifted (isShift : op = .shl ∨ op = .shr) (left : s.isArithmetic) (right : t.isArithmetic) :
      BinaryRule op s t s.promote
  | offset (moves : op = .add ∨ op = .sub) (left : s.isPointer) (right : t.isInteger) :
      BinaryRule op s t s
  | offsetLeft (moves : op = .add) (left : s.isInteger) (right : t.isPointer) : BinaryRule op s t t
  | difference (moves : op = .sub) (left : s.isPointer) (right : t.isPointer) :
      BinaryRule op s t .long

theorem isScalar_of_isNullConstant {types : TypeTable} {e : Expr}
    (null : ∀ i, e = .null i → i.ty = .voidPtr) (h : isNullConstant types e) : e.ty.decay.isScalar := by
  unfold isNullConstant at h
  split at h
  · rename_i i
    rw [show (Expr.null i).ty = i.ty from rfl, null i rfl]
    rfl
  · rw [Bool.and_eq_true] at h
    have integer := h.1
    cases hty : e.ty <;> rw [hty] at integer <;> first | rfl | cases integer

theorem isScalar_of_isArithmetic {t : Ty} (h : t.isArithmetic) : t.isScalar := by
  rw [Ty.isScalar, h, Bool.true_or, Bool.true_or]

theorem isArithmetic_of_isInteger {t : Ty} (h : t.isInteger) : t.isArithmetic := by
  rw [Ty.isArithmetic, h, Bool.true_or]

theorem isScalar_of_isPointer {t : Ty} (h : t.isPointer) : t.isScalar := by
  cases t with
  | pointer t => rfl
  | _ => cases h

theorem isScalar_of_isDynamic {t : Ty} (h : t.isDynamic) : t.isScalar := by
  rw [isDynamic_iff.mp h]
  rfl

theorem binaryType_accepts {op : BinaryOp} {x y : Expr} (dx : x.ty.isDependent = false)
    (dy : y.ty.isDependent = false)
    (nx : ∀ i, x = .null i → i.ty = .voidPtr) (ny : ∀ i, y = .null i → i.ty = .voidPtr)
    (run : (binaryType op x y span).run a = (ty, a)) : BinaryRule op x.ty.decay y.ty.decay ty := by
  have notDependent : ¬(x.ty.decay.isDependent || y.ty.decay.isDependent) = true := by
    rw [isDependent_decay, isDependent_decay, dx, dy]
    exact nofun
  unfold binaryType at run
  dsimp only at run
  rw [if_neg notDependent] at run
  split at run
  · rename_i isLogical
    split at run
    · rename_i scalars
      rw [Bool.and_eq_true] at scalars
      cases of_pure run
      exact .logical isLogical scalars.1 scalars.2
    · exact absurd run not_failNamed₂
  rename_i notLogical
  have notLogical := Bool.eq_false_iff.mpr notLogical
  split at run
  · rename_i dynamic
    split at run
    · rename_i operands
      simp only [Bool.and_eq_true, Bool.or_eq_true] at operands dynamic
      cases of_pure run
      exact .dynamic notLogical dynamic operands.1 operands.2
    · exact absurd run not_failNamed₂
  split at run
  · rename_i isComparison
    rw [run_get] at run
    split at run
    · rename_i operands
      simp only [Bool.and_eq_true, Bool.or_eq_true] at operands
      cases of_pure run
      refine .compared isComparison ?_
      rcases operands with ((operands | ⟨px, py⟩) | ⟨px, null⟩) | ⟨py, null⟩
      · exact .inl operands
      · exact .inr (.inl ⟨px, isScalar_of_isPointer py⟩)
      · exact .inr (.inl ⟨px, isScalar_of_isNullConstant ny null⟩)
      · exact .inr (.inr ⟨isScalar_of_isNullConstant nx null, py⟩)
    · exact absurd run not_failNamed₂
  rename_i notComparison
  have notComparison := Bool.eq_false_iff.mpr notComparison
  have common (notShift : op ≠ .shl ∧ op ≠ .shr) (h : x.ty.decay.isArithmetic && y.ty.decay.isArithmetic) :
      BinaryRule op x.ty.decay y.ty.decay (Ty.common x.ty.decay y.ty.decay) := by
    rw [Bool.and_eq_true] at h
    exact .common notComparison notLogical notShift h.1 h.2
  have integers (h : x.ty.decay.isInteger && y.ty.decay.isInteger) :
      x.ty.decay.isArithmetic ∧ y.ty.decay.isArithmetic := by
    rw [Bool.and_eq_true] at h
    exact ⟨isArithmetic_of_isInteger h.1, isArithmetic_of_isInteger h.2⟩
  cases op with
  | add =>
    dsimp only at run
    split at run
    · cases of_pure run
      exact common ⟨nofun, nofun⟩ ‹_›
    split at run
    · rename_i operands
      rw [Bool.and_eq_true] at operands
      cases of_pure run
      exact .offset (.inl rfl) operands.1 operands.2
    split at run
    · rename_i operands
      rw [Bool.and_eq_true] at operands
      cases of_pure run
      exact .offsetLeft rfl operands.1 operands.2
    · exact absurd run not_failNamed₂
  | sub =>
    dsimp only at run
    split at run
    · cases of_pure run
      exact common ⟨nofun, nofun⟩ ‹_›
    split at run
    · rename_i operands
      rw [Bool.and_eq_true] at operands
      cases of_pure run
      exact .offset (.inr rfl) operands.1 operands.2
    split at run
    · rename_i operands
      rw [Bool.and_eq_true] at operands
      cases of_pure run
      exact .difference rfl operands.1 operands.2
    · exact absurd run not_failNamed₂
  | mul | div =>
    dsimp only at run
    split at run
    · cases of_pure run
      exact common ⟨nofun, nofun⟩ ‹_›
    · exact absurd run not_failNamed₂
  | rem | bitAnd | bitOr | bitXor =>
    dsimp only at run
    split at run
    · rename_i operands
      cases of_pure run
      exact .common notComparison notLogical ⟨nofun, nofun⟩ (integers operands).1 (integers operands).2
    · exact absurd run not_failNamed₂
  | shl | shr =>
    dsimp only at run
    split at run
    · rename_i operands
      cases of_pure run
      refine .shifted ?_ (integers operands).1 (integers operands).2
      first | exact .inl rfl | exact .inr rfl
    · exact absurd run not_failNamed₂
  | lt | le | gt | ge | eq | ne => cases notComparison
  | and | or => cases notLogical

/-- Both operands of a binary operator have values. -/
theorem BinaryRule.scalars {op : BinaryOp} {s t : Ty} (h : BinaryRule op s t ty) :
    s.isScalar ∧ t.isScalar := by
  cases h with
  | logical _ left right => exact ⟨left, right⟩
  | dynamic _ _ left right =>
    exact ⟨left.elim isScalar_of_isArithmetic isScalar_of_isDynamic,
      right.elim isScalar_of_isArithmetic isScalar_of_isDynamic⟩
  | compared _ operands =>
    rcases operands with ⟨left, right⟩ | ⟨left, right⟩ | ⟨left, right⟩
    · exact ⟨isScalar_of_isArithmetic left, isScalar_of_isArithmetic right⟩
    · exact ⟨isScalar_of_isPointer left, right⟩
    · exact ⟨left, isScalar_of_isPointer right⟩
  | common _ _ _ left right | shifted _ left right =>
    exact ⟨isScalar_of_isArithmetic left, isScalar_of_isArithmetic right⟩
  | offset _ left right =>
    exact ⟨isScalar_of_isPointer left, isScalar_of_isArithmetic (isArithmetic_of_isInteger right)⟩
  | offsetLeft _ left right =>
    exact ⟨isScalar_of_isArithmetic (isArithmetic_of_isInteger left), isScalar_of_isPointer right⟩
  | difference _ left right => exact ⟨isScalar_of_isPointer left, isScalar_of_isPointer right⟩

/-- A logical operator gives a truth value. -/
theorem BinaryRule.logical_type {op : BinaryOp} {s t : Ty} (h : BinaryRule op s t ty) (isLogical : op.isLogical) :
    ty = .bool := by
  cases h with
  | logical | compared => rfl
  | dynamic notLogical | common _ notLogical =>
    rw [isLogical] at notLogical
    cases notLogical
  | shifted isShift => obtain rfl | rfl := isShift <;> cases isLogical
  | offset moves => obtain rfl | rfl := moves <;> cases isLogical
  | offsetLeft moves | difference moves =>
    subst moves
    cases isLogical

/-! ## Other expressions -/

theorem assignType_accepts {op : Option BinaryOp} {x y : Expr} (known : x.ty.isDependent = false)
    (run : (assignType op x y span).run a = (ty, a)) :
    x.isLvalue ∧ x.ty.isArray = false ∧ ty = x.ty
      ∧ ∀ o, op = some o → ∃ t, (binaryType o x y span).run a = (t, a) := by
  unfold assignType at run
  rw [if_neg (by rw [known]; exact nofun)] at run
  split at run
  · exact absurd run not_fail
  rename_i object
  simp only [Bool.not_eq_true', Bool.not_eq_false] at object
  split at run
  · exact absurd run not_failNamed
  rename_i notArray
  refine ⟨object, Bool.eq_false_iff.mpr notArray, ?_⟩
  cases op with
  | none => exact ⟨(congrArg Prod.fst run).symm, nofun⟩
  | some op =>
    have after : ((binaryType op x y span).run a).2 = a := congrArg Prod.snd run
    refine ⟨(congrArg Prod.fst run).symm, fun o same => ?_⟩
    cases same
    exact ⟨_, Prod.ext rfl after⟩

/-- What a conditional expression makes of branches of decayed types `s` and `t`. -/
inductive ConditionalRule (s t : Ty) : Ty → Prop where
  | dynamic (dynamic : s.isDynamic ∨ t.isDynamic) : ConditionalRule s t .dynamic
  | common (left : s.isArithmetic) (right : t.isArithmetic) : ConditionalRule s t (Ty.common s t)
  | same (same : s = t) : ConditionalRule s t s
  | left (pointer : s.isPointer) (other : t.isScalar) : ConditionalRule s t s
  | right (other : s.isScalar) (pointer : t.isPointer) : ConditionalRule s t t

theorem conditionalType_accepts {c x y : Expr} (dc : c.ty.isDependent = false)
    (dx : x.ty.isDependent = false) (dy : y.ty.isDependent = false)
    (nx : ∀ i, x = .null i → i.ty = .voidPtr) (ny : ∀ i, y = .null i → i.ty = .voidPtr)
    (run : (conditionalType c x y span).run a = (ty, a)) :
    c.ty.isScalar ∧ ConditionalRule x.ty.decay y.ty.decay ty := by
  have notDependent : ¬(c.ty.isDependent || x.ty.decay.isDependent || y.ty.decay.isDependent) = true := by
    rw [isDependent_decay, isDependent_decay, dc, dx, dy]
    exact nofun
  unfold conditionalType at run
  dsimp only at run
  rw [run_get, if_neg notDependent] at run
  split at run
  · exact absurd run not_fail
  rename_i scalar
  simp only [Bool.not_eq_true', Bool.not_eq_false] at scalar
  refine ⟨scalar, ?_⟩
  split at run
  · rename_i dynamic
    rw [Bool.or_eq_true] at dynamic
    cases of_pure run
    exact .dynamic dynamic
  split at run
  · rename_i arithmetic
    rw [Bool.and_eq_true] at arithmetic
    cases of_pure run
    exact .common arithmetic.1 arithmetic.2
  split at run
  · rename_i same
    cases of_pure run
    exact .same same
  split at run
  · rename_i pointer
    rw [Bool.and_eq_true, Bool.or_eq_true] at pointer
    cases of_pure run
    exact .left pointer.1 (pointer.2.elim isScalar_of_isPointer (isScalar_of_isNullConstant ny))
  split at run
  · rename_i pointer
    rw [Bool.and_eq_true] at pointer
    cases of_pure run
    exact .right (isScalar_of_isNullConstant nx pointer.2) pointer.1
  · exact absurd run not_failNamed₂

/-- A conditional expression has the type of a branch, or one that both branches convert to. -/
theorem ConditionalRule.oneOf {s t : Ty} (h : ConditionalRule s t ty) :
    ty = .dynamic ∨ ty = Ty.common s t ∨ ty = s ∨ ty = t := by
  cases h with
  | dynamic _ => exact .inl rfl
  | common _ _ => exact .inr (.inl rfl)
  | same _ | left _ _ => exact .inr (.inr (.inl rfl))
  | right _ _ => exact .inr (.inr (.inr rfl))

/-- One operand is a pointer to elements of type `ty`, the other one is an index. -/
theorem indexType_accepts {base index : Expr} (db : base.ty.isDependent = false)
    (di : index.ty.isDependent = false)
    (run : (indexType base index span).run a = (ty, a)) :
    ty ≠ .void ∧ (base.ty.pointee? = some ty ∧ (index.ty.isInteger ∨ index.ty.isDynamic)
      ∨ index.ty.pointee? = some ty ∧ (base.ty.isInteger ∨ base.ty.isDynamic)) := by
  have notDependent : ¬(base.ty.isDependent || index.ty.isDependent) = true := by
    rw [db, di]
    exact Bool.false_ne_true
  unfold indexType at run
  rw [if_neg notDependent] at run
  extract_lets check at run
  have checked {ptr i : Expr} (run : (check ptr i).run a = (ty, a)) :
      ty ≠ .void ∧ ptr.ty.pointee? = some ty ∧ (i.ty.isInteger ∨ i.ty.isDynamic) := by
    dsimp only [check] at run
    split at run
    · exact absurd run not_fail
    rename_i kind
    simp only [Bool.and_eq_true, Bool.not_eq_true', not_and, Bool.not_eq_false] at kind
    split at run
    · exact absurd run not_fail
    · exact absurd run not_fail
    · rename_i inner notVoid found
      cases of_pure run
      refine ⟨notVoid, found, ?_⟩
      by_cases integer : i.ty.isInteger
      · exact .inl integer
      · exact .inr (kind (Bool.eq_false_iff.mpr integer))
  split at run
  · obtain ⟨notVoid, found, kind⟩ := checked run
    exact ⟨notVoid, .inl ⟨found, kind⟩⟩
  split at run
  · obtain ⟨notVoid, found, kind⟩ := checked run
    exact ⟨notVoid, .inr ⟨found, kind⟩⟩
  · exact absurd run not_fail

theorem fieldType_accepts {record : Ty} {field : String}
    (run : (fieldType record field span).run a = (ty, a)) :
    ∃ id r f, record = .record id ∧ a.types.record? id = some r ∧ r.field? field = some f ∧ ty = f.ty := by
  unfold fieldType at run
  split at run
  · rename_i id
    rw [run_get] at run
    split at run
    · rename_i f found
      obtain ⟨r, hr, hf⟩ := Option.bind_eq_some_iff.mp found
      exact ⟨id, r, f, rfl, hr, hf, of_pure run⟩
    · exact absurd run not_failNamed
  · exact absurd run not_failNamed

theorem memberType_accepts {base : Expr} {field : String} {arrow : Bool} (known : base.ty.isDependent = false)
    (run : (memberType base field arrow span).run a = (ty, a)) :
    ∃ id r f, (if arrow then base.ty.decay = .pointer (.record id) else base.ty = .record id)
      ∧ a.types.record? id = some r ∧ r.field? field = some f ∧ ty = f.ty := by
  unfold memberType at run
  rw [if_neg (by rw [known]; exact nofun)] at run
  split at run
  · split at run
    · rename_i inner pointer
      obtain ⟨id, r, f, rfl, found⟩ := fieldType_accepts run
      exact ⟨id, r, f, by rwa [if_pos ‹_›], found⟩
    · exact absurd run not_failNamed
  split at run
  · exact absurd run not_failNamed
  · obtain ⟨id, r, f, record, found⟩ := fieldType_accepts run
    exact ⟨id, r, f, by rwa [if_neg ‹_›], found⟩

theorem castType_accepts {target : Ty} {e : Expr} (dt : target.isDependent = false)
    (de : e.ty.isDependent = false)
    (run : (castType target e span).run a = (ty, a)) :
    ty = target ∧ (target.isVoid ∨ target.isScalar ∧ e.ty.decay.isScalar) := by
  unfold castType at run
  dsimp only at run
  rw [if_neg (by rw [dt]; exact nofun)] at run
  split at run
  · rename_i void
    rw [de, Bool.false_or] at void
    exact ⟨of_pure run, .inl void⟩
  split at run
  · exact absurd run not_failNamed
  rename_i targetScalar
  split at run
  · exact absurd run not_failNamed
  rename_i sourceScalar
  split at run
  · exact absurd run not_failNamed₂
  simp only [Bool.not_eq_true', Bool.not_eq_false] at targetScalar sourceScalar
  exact ⟨of_pure run, .inr ⟨targetScalar, sourceScalar⟩⟩

theorem sizeofType_accepts {t : Ty} (known : t.isDependent = false)
    (run : (sizeofType t span).run a = (ty, a)) : ty = .unsignedLong := by
  unfold sizeofType at run
  rw [if_neg (by rw [known]; exact nofun)] at run
  rw [run_get] at run
  split at run
  · exact absurd run not_failNamed
  · exact of_pure run

/-- The size of what an unknown name stands for is refused. -/
theorem sizeofExprType_known {e : Expr} (run : (sizeofExprType e span).run a = (ty, a)) : e.ty.isDependent = false := by
  unfold sizeofExprType at run
  split at run
  · exact absurd run not_fail
  · rename_i known
    rw [Bool.or_eq_true, not_or] at known
    exact Bool.eq_false_iff.mpr known.1

theorem sizeofExprType_accepts {e : Expr} (known : e.ty.isDependent = false)
    (run : (sizeofExprType e span).run a = (ty, a)) : ty = .unsignedLong := by
  unfold sizeofExprType at run
  split at run
  · exact absurd run not_fail
  · exact sizeofType_accepts known run

/-! ## Calls -/

theorem checkCall_accepts {name : String} {sig : FunctionSig} {args : List Expr}
    (run : (checkCall name sig args span).run a = (ty, a)) : ty = sig.ret := by
  have given : ((checkCall name sig args span).run a).1 = sig.ret := by
    unfold checkCall
    dsimp only
    split
    · rfl
    · split <;> rfl
  rw [run] at given
  exact given

theorem checkHook_accepts {name : String} {b : Builtin} {args : List Expr}
    (run : (checkHook name b args span).run a = (ty, a)) : ty = .void ∧ ∃ e, args = [e] := by
  unfold checkHook at run
  split at run
  · rename_i e
    refine ⟨?_, e, rfl⟩
    dsimp only at run
    split at run <;> split at run <;> exact (congrArg Prod.fst run).symm
  · exact absurd run not_fail

end IncrementalC.Analyze
