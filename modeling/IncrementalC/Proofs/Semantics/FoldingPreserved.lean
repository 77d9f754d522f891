import IncrementalC.Proofs.Semantics.ConstantValues
import IncrementalC.Proofs.Semantics.ExpressionPreserved

/-!
# Constant folding agrees with execution

The code of an expression that is folded to a constant leaves the value of that constant and changes nothing
else (`Expr.Accepted.folded`). Parts that the constant does not depend on, such as the branch that is not
taken, may be anything.
-/
namespace IncrementalC
set_option autoImplicit false
open Lowering Analyze Structured
open Typed (Expr Info Binding constant?)

namespace Track

variable {η : Type} {σ : Track η} {a : Analysis}

/-! ## What lowering makes sure of -/

/-- What is known once the piece is lowered and the literals have places. -/
def Assures (σ : Track η) (p : Piece) (P : Prop) : Prop :=
  ∀ start g is g', p start g = .ok (is, g') → σ.Knows g' → P

namespace Assures

variable {p q c : Piece} {P Q : Prop}

theorem of (h : P) : σ.Assures p P := fun _ _ _ _ _ _ => h

theorem imp (h : σ.Assures p P) (hPQ : P → Q) : σ.Assures p Q :=
  fun start g is g' run knows => hPQ (h start g is g' run knows)

theorem left (h : σ.Assures p P) (keeps : q.Keeps) : σ.Assures (p ++ q) P := by
  intro start g is g' run knows
  obtain ⟨x, y, g₁, first, second, -⟩ := append_eq_ok run
  exact h start g x g₁ first (knows.of_keeps (keeps _ _ _ _ second))

theorem right (h : σ.Assures q P) : σ.Assures (p ++ q) P := by
  intro start g is g' run knows
  obtain ⟨x, y, g₁, -, second, -⟩ := append_eq_ok run
  exact h _ g₁ y g' second knows

theorem runs {xs : List Value} {α : Type} {M : Eval α} {out : α → List Value} (h : σ.Assures p P)
    (hp : P → σ.Runs p xs M out) : σ.Runs p xs M out :=
  fun start g is g' run knows => hp (h start g is g' run knows) start g is g' run knows

theorem logical_left {op : BinaryOp} (h : σ.Assures p P) (keeps : q.Keeps) : σ.Assures (logical op p q) P := by
  intro start g is g' run knows
  obtain ⟨x, g₁, first, run⟩ := bind_eq_ok run
  obtain ⟨y, g₂, second, done⟩ := bind_eq_ok run
  cases done
  exact h start g x g₁ first (knows.of_keeps (keeps _ _ _ _ second))

theorem logical_right {op : BinaryOp} (h : σ.Assures q P) : σ.Assures (logical op p q) P := by
  intro start g is g' run knows
  obtain ⟨x, g₁, -, run⟩ := bind_eq_ok run
  obtain ⟨y, g₂, second, done⟩ := bind_eq_ok run
  cases done
  exact h _ g₁ y _ second knows

theorem conditional_test (h : σ.Assures c P) (kp : p.Keeps) (kq : q.Keeps) : σ.Assures (conditional c p q) P := by
  intro start g is g' run knows
  obtain ⟨x, g₁, test, run⟩ := bind_eq_ok run
  obtain ⟨y, g₂, yes, run⟩ := bind_eq_ok run
  obtain ⟨z, g₃, no, done⟩ := bind_eq_ok run
  cases done
  exact h start g x g₁ test ((knows.of_keeps (kq _ _ _ _ no)).of_keeps (kp _ _ _ _ yes))

theorem conditional_left (h : σ.Assures p P) (kq : q.Keeps) : σ.Assures (conditional c p q) P := by
  intro start g is g' run knows
  obtain ⟨x, g₁, -, run⟩ := bind_eq_ok run
  obtain ⟨y, g₂, yes, run⟩ := bind_eq_ok run
  obtain ⟨z, g₃, no, done⟩ := bind_eq_ok run
  cases done
  exact h _ g₁ y g₂ yes (knows.of_keeps (kq _ _ _ _ no))

theorem conditional_right (h : σ.Assures q P) : σ.Assures (conditional c p q) P := by
  intro start g is g' run knows
  obtain ⟨x, g₁, -, run⟩ := bind_eq_ok run
  obtain ⟨y, g₂, -, run⟩ := bind_eq_ok run
  obtain ⟨z, g₃, no, done⟩ := bind_eq_ok run
  cases done
  exact h _ g₂ z _ no knows

end Assures

/-! ## Folded expressions -/

/-- The code of the expression leaves the value of the constant. -/
structure Folded (σ : Track η) (a : Analysis) (e : Expr) (c : Constant) : Prop where
  fits : Eval.Fits e.ty c
  runs : σ.Runs (rvalue a e) [] (pure (Eval.worth (σ.scene a.types) c)) fun v => [v]
  sees : σ.Assures (rvalue a e) (Eval.Sees (σ.scene a.types) c)

theorem Folded.operand {e : Expr} {c : Constant} (h : σ.Folded a e c) :
    σ.Operand (rvalue a e) e.ty (pure (Eval.worth (σ.scene a.types) c)) := by
  refine ⟨h.runs, keeps_rvalue e, fun m v m' given => ?_⟩
  cases given
  exact h.fits.suits

/-- An operand that is not evaluated. -/
theorem operand_skipped (e : Expr) : σ.Operand (rvalue a e) e.ty Eval.meaningless :=
  ⟨.meaningless, keeps_rvalue e, fun _ _ _ given => nomatch given⟩

section Nodes

variable {i : Info} {x y z : Expr} {c c' d d' : Constant} {target : Ty}

theorem runs_constant {instr : Instr} {v : Value} (acts : σ.Acts instr [] (pure ()) fun _ => [v])
    (patched : σ.Patched instr instr) : σ.Runs (.code [instr]) [] (pure v) fun v => [v] :=
  Turns.result (.single acts patched)

/-- A word that stands in the code. -/
theorem folded_word {e : Expr} {n : Int64} {k : Scalar} (type : Eval.IsIntegerOf e.ty k) (wrapped : k.wrap n = n)
    (code : rvalue a e = .code [.pushInt n]) : σ.Folded a e (.int n) := by
  refine ⟨.int type wrapped, ?_, .of nofun⟩
  rw [code]
  exact runs_constant (acts_pushInt n) rfl

theorem folded_size {e : Expr} {n : Nat} (type : e.ty = .unsignedLong)
    (folds : (Constant.int (Int64.ofNat n)).coerce e.ty = some c) (code : rvalue a e = .code [.pushInt (Int64.ofNat n)]) :
    σ.Folded a e c := by
  have isInteger : Eval.IsIntegerOf e.ty .u64 := type ▸ ⟨.inl ⟨_, rfl⟩, rfl⟩
  rw [type] at folds
  cases folds
  exact folded_word isInteger rfl code

theorem folded_string (placed : Machine.LiteralsPlaced σ.linked) (text : String) (pointer : i.ty.isPointerLike) :
    σ.Folded a (.str i text) (.str text) := by
  refine ⟨.str pointer text, runs_stringAddress text, fun start g is g' run knows => ?_⟩
  intro _ same
  cases same
  cases run
  obtain ⟨p, -, found⟩ := knows _ text (g.intern_keeps text).2
  obtain ⟨k, rfl⟩ := placed text p found
  refine ⟨_, found, fun null => ?_⟩
  have high := congrArg UInt64.toNat null
  rw [Address.encode_toNat _ (show Region.global ≠ .raw by decide)] at high
  have region : (Address.tag (Address.global k).region).toNat = 1 := rfl
  rw [region] at high
  have reach : 0 < Address.reach := by decide
  have zero : (0 : UInt64).toNat = 0 := rfl
  omega

/-- The constant after a conversion. -/
theorem Folded.converted (hx : σ.Folded a x c) (becomes : Eval.Coerced target c c') :
    σ.Runs (rvalue a x ++ .code (convert x.ty target)) [] (pure (Eval.worth (σ.scene a.types) c')) fun v => [v] := by
  refine (hx.sees.left (.code _)).runs fun sees => ?_
  have turns : σ.Turns (convert x.ty target) _ _ := turns_convert (hx.fits.suits (s := σ.scene a.types))
  rw [Eval.converted_worth hx.fits sees becomes] at turns
  have runs : σ.Runs _ [] (do let _ ← pure (Eval.worth (σ.scene a.types) c); pure _) fun v => [v] :=
    hx.runs.append (.code (convert x.ty target)) fun v m m' given => by
      cases given
      exact turns.result
  rwa [pure_bind] at runs

/-- A value that is converted to the type of a whole expression. -/
theorem Folded.branch (hx : σ.Folded a x c) (becomes : Eval.Coerced target c c') :
    σ.Runs (rvalue.branch target x.ty (rvalue a x)) [] (pure (Eval.worth (σ.scene a.types) c')) (fun v => [v]) ∧
      σ.Assures (rvalue.branch target x.ty (rvalue a x)) (Eval.Sees (σ.scene a.types) c') := by
  have code : rvalue.branch target x.ty (rvalue a x) = rvalue a x ++ .code (convert x.ty target) := by
    rw [rvalue.branch, becomes.fits.valued.1, if_neg nofun]
  rw [code]
  exact ⟨hx.converted becomes, (hx.sees.left (.code _)).imp becomes.sees⟩

theorem folded_cast (hx : σ.Folded a x c) (becomes : Eval.Coerced target c c') (type : i.ty = target) :
    σ.Folded a (.cast i target x) c' := by
  obtain ⟨runs, sees⟩ := hx.branch becomes
  exact ⟨type.symm ▸ becomes.fits, runs, sees⟩

theorem folded_not (hx : σ.Folded a x c) (becomes : Eval.Coerced i.ty (.bool !c.truthy) c') :
    σ.Folded a (.unary i .not x) c' := by
  refine ⟨becomes.fits, ?_, .of (becomes.sees (by rintro _ ⟨⟩))⟩
  refine Assures.runs (P := Eval.Sees (σ.scene a.types) c) (hx.sees.left (.needs _ _ _ _)) fun sees => ?_
  have runs := runs_not (T := a.types) (i := i) hx.operand
  rw [pure_bind, Eval.isTruthy_worth sees, ← Eval.worth_truth (s := σ.scene a.types) becomes] at runs
  exact runs

theorem folded_sign {op : UnaryOp} {code : Code.UnaryOp} (hx : σ.Folded a x c) (notFloating : x.ty.isFloating = false)
    (arithmetic : x.ty.decay.isArithmetic) (type : i.ty = x.ty.decay.promote)
    (isCode : op = .neg ∧ code = .neg ∨ op = .bitNot ∧ code = .bitNot) (folds : Typed.foldUnary op c = some d)
    (becomes : Eval.Coerced i.ty d c') : σ.Folded a (.unary i op x) c' := by
  obtain ⟨k, wide⟩ := Eval.isWide_promote arithmetic (Ty.not_isFloating_decay notFloating)
  have fits := becomes.fits
  have notPointer : i.ty.isPointerLike = false := by
    rw [type]
    rcases wide.type with ⟨_, h⟩ | ⟨_, h⟩ <;> rw [h] <;> rfl
  have runs := runs_promoted (T := a.types) (i := i) hx.operand type isCode
  rw [type] at becomes
  rw [pure_bind, Eval.unary_folded hx.fits notFloating arithmetic isCode folds becomes] at runs
  refine ⟨fits, ?_, .of (fits.sees notPointer)⟩
  obtain ⟨rfl, -⟩ | ⟨rfl, -⟩ := isCode <;> exact runs

theorem folded_arithmetic {op : BinaryOp} (hx : σ.Folded a x c) (hy : σ.Folded a y d)
    (fx : x.ty.isFloating = false) (fy : y.ty.isFloating = false) (notLogical : op.isLogical = false)
    (rule : BinaryRule op x.ty.decay y.ty.decay i.ty) (folds : Typed.foldArithmetic op x.ty y.ty c d = some c')
    (becomes : Eval.Coerced i.ty c' d') : σ.Folded a (.binary i op x y) d' := by
  have runs := runs_binary (T := a.types) hx.operand.decayed hy.operand.decayed notLogical rule
  rw [Eval.binary_folded hx.fits hy.fits fx fy notLogical folds rule becomes] at runs
  exact ⟨becomes.fits, runs, .of (becomes.sees (Eval.sees_of_folded folds))⟩

/-- The first operand may decide a logical operator. -/
theorem logical_pure {op : BinaryOp} {u : Value} {Y : Eval Value} {b : Bool} (truth : u.isTruthy = b) :
    Eval.logical op (pure u) Y = if b = decide (op = .or) then pure (.ofBool b)
      else do return .ofBool (← Y).isTruthy := by
  unfold Eval.logical
  rw [pure_bind, truth]

theorem folded_logical {op : BinaryOp} {Y : Eval Value} {b : Bool} {P : Prop} (isLogical : op.isLogical)
    (hx : σ.Folded a x c) (hy : σ.Operand (rvalue a y) y.ty Y) (known : σ.Assures (rvalue a y) P)
    (becomes : Eval.Coerced i.ty (.bool b) c')
    (value : P → (if c.truthy = decide (op = .or) then pure (.ofBool c.truthy)
      else do return .ofBool (← Y).isTruthy) = (pure (.ofBool b) : Eval Value)) : σ.Folded a (.binary i op x y) c' := by
  have code : rvalue a (.binary i op x y) = logical op (rvalue a x) (rvalue a y) := by
    rw [rvalue, Lowering.binary, if_pos isLogical]
  refine ⟨becomes.fits, ?_, .of (becomes.sees (by rintro _ ⟨⟩))⟩
  rw [code, Eval.worth_truth becomes]
  refine Assures.runs (hx.sees.logical_left (keeps_rvalue y)) fun left => ?_
  refine Assures.runs known.logical_right fun right => ?_
  have runs := runs_logical isLogical hx.operand hy
  rwa [logical_pure (Eval.isTruthy_worth left), value right] at runs

/-- The second operand is not evaluated. -/
theorem folded_decided {op : BinaryOp} (isLogical : op.isLogical) (hx : σ.Folded a x c)
    (decides : c.truthy = decide (op = .or)) (becomes : Eval.Coerced i.ty (.bool c.truthy) c') :
    σ.Folded a (.binary i op x y) c' :=
  folded_logical (P := True) isLogical hx (operand_skipped y) (.of trivial) becomes fun _ => if_pos decides

theorem folded_undecided {op : BinaryOp} (isLogical : op.isLogical) (hx : σ.Folded a x c) (hy : σ.Folded a y d)
    (undecided : ¬c.truthy = decide (op = .or)) (becomes : Eval.Coerced i.ty (.bool d.truthy) c') :
    σ.Folded a (.binary i op x y) c' := by
  refine folded_logical isLogical hx hy.operand hy.sees becomes fun sees => ?_
  rw [if_neg undecided, pure_bind, Eval.isTruthy_worth sees]

theorem folded_conditional {M N : Eval Value} (hz : σ.Folded a z c)
    (hx : σ.Runs (rvalue.branch i.ty x.ty (rvalue a x)) [] M fun v => [v])
    (hy : σ.Runs (rvalue.branch i.ty y.ty (rvalue a y)) [] N fun v => [v])
    (taken : (if c.truthy then M else N) = pure (Eval.worth (σ.scene a.types) c')) (fits : Eval.Fits i.ty c')
    (sees : σ.Assures (rvalue a (.conditional i z x y)) (Eval.Sees (σ.scene a.types) c')) :
    σ.Folded a (.conditional i z x y) c' := by
  have branch (ty : Ty) {p : Piece} (hp : p.Keeps) : (rvalue.branch i.ty ty p).Keeps :=
    .ite (keeps_discard _ hp) (hp.append (.code _))
  have kx := branch x.ty (keeps_rvalue (a := a) x)
  have ky := branch y.ty (keeps_rvalue (a := a) y)
  refine ⟨fits, Assures.runs (hz.sees.conditional_test kx ky) fun test => ?_, sees⟩
  have runs := runs_conditional hz.operand.runs hx hy kx ky
  rwa [pure_bind, Eval.isTruthy_worth test, taken] at runs

end Nodes

end Track

/-! ## Trees -/

/-- No floating number; a character and an enumerator lie in the range of their type. -/
def Typed.Expr.isPlain : Expr → Bool
  | .char _ c => c ≤ 127
  | .ident _ _ (.enumConst v) => -2 ^ 31 ≤ v.toInt && v.toInt < 2 ^ 31
  | e => !e.ty.isFloating

/-- The type of an integer literal. -/
theorem isIntegerOf_intLiteral (v : Nat) (suffix : IntSuffix) :
    ∃ k, Eval.IsIntegerOf (intLiteralType v suffix) k ∧ k.wrap (Int64.ofNat v) = Int64.ofNat v := by
  obtain ⟨k, known, -, fits⟩ := Typed.wrap_intLiteral v suffix
  have type : ∃ kind, intLiteralType v suffix = .int kind := by
    unfold intLiteralType
    cases suffix with
    | none =>
      dsimp only
      split
      · exact ⟨_, rfl⟩
      · split <;> exact ⟨_, rfl⟩
    | u | l =>
      dsimp only
      split <;> exact ⟨_, rfl⟩
    | ul | ll | ull => exact ⟨_, rfl⟩
  obtain ⟨kind, type⟩ := type
  rw [type] at known ⊢
  exact ⟨k, ⟨.inl ⟨kind, rfl⟩, known⟩, fits⟩

theorem isIntegerOf_enumConst {a : Analysis} {v : Int64} {ty : Ty} (bound : Bound a (.enumConst v) ty) :
    Eval.IsIntegerOf ty .i32 := by
  cases bound with
  | object isVariable _ => cases isVariable
  | enumConst _ kind =>
    cases ty with
    | int k => exact ⟨.inl ⟨k, rfl⟩, kind⟩
    | enum name => exact ⟨.inr ⟨name, rfl⟩, kind⟩
    | _ => cases kind

theorem Typed.Expr.Accepted.isFloating {a : Analysis} {e : Expr} (accepted : e.Accepted a)
    (plain : e.each Expr.isPlain) : e.ty.isFloating = false := by
  have here := Expr.each_here plain
  unfold Expr.isPlain at here
  split at here
  · rename_i i c
    rw [show (Expr.char i c).ty = .char from accepted]
    rfl
  · rename_i i name v
    show i.ty.isFloating = false
    rcases (isIntegerOf_enumConst accepted.2).type with ⟨_, h⟩ | ⟨_, h⟩ <;> rw [h] <;> rfl
  · simpa using here

/-- Where an expression is folded to a constant, its code leaves the value of the constant. -/
theorem Typed.Expr.Accepted.folded {η : Type} {σ : Track η} {a : Analysis} {e : Expr} {c : Constant}
    (accepted : e.Accepted a) (plain : e.each Expr.isPlain) (folds : constant? a.types e = some c)
    (placed : Machine.LiteralsPlaced σ.linked) : σ.Folded a e c := by
  have both {p q : Bool} (h : (p && q) = true) : p = true ∧ q = true := (Bool.and_eq_true _ _).mp h
  induction e using Expr.rec (motive_2 := fun _ => True) generalizing c with
  | int i v suffix =>
    obtain ⟨k, type, fits⟩ := isIntegerOf_intLiteral v suffix
    rw [← show i.ty = _ from accepted.2] at type
    obtain ⟨w, read, rfl⟩ := Eval.Coerced.of_int type (Eval.coerced (accepted.isFloating plain) folds)
    cases read
    rw [fits]
    refine Track.folded_word type fits ?_
    unfold rvalue
    rw [show kindOf? i.ty = some k from type.known, Option.getD_some, fits]
  | float i v single =>
    have notFloating : i.ty.isFloating = false := accepted.isFloating plain
    rw [show i.ty = _ from accepted] at notFloating
    cases single <;> cases notFloating
  | char i v =>
    have type : i.ty = .char := accepted
    have small : v ≤ 127 := of_decide_eq_true (Expr.each_here (e := .char i v) plain)
    have isInteger : Eval.IsIntegerOf i.ty .i8 := type ▸ ⟨.inl ⟨_, rfl⟩, rfl⟩
    obtain ⟨w, read, rfl⟩ := Eval.Coerced.of_int isInteger (Eval.coerced (accepted.isFloating plain) folds)
    cases read
    rw [Scalar.wrap_i8_ofNat small]
    exact Track.folded_word isInteger (Scalar.wrap_i8_ofNat small) rfl
  | bool i b =>
    have type : i.ty = .bool := accepted
    have folds : (Constant.bool b).coerce i.ty = some c := folds
    rw [type] at folds
    cases folds
    exact ⟨.bool type b, Track.runs_constant (Track.acts_pushInt _) rfl, .of (by rintro _ ⟨⟩)⟩
  | null i =>
    have type : i.ty = .voidPtr := accepted
    have folds : (Constant.ptr 0).coerce i.ty = some c := folds
    rw [type] at folds
    cases folds
    exact ⟨.ptr type 0, Track.runs_constant (Track.acts_pushPtr _) rfl, .of (by rintro _ ⟨⟩)⟩
  | str i text =>
    have type : i.ty = .array .char _ := accepted
    have folds : (Constant.str text).coerce i.ty = some c := folds
    rw [type] at folds
    cases folds
    exact Track.folded_string placed text (by rw [type]; rfl)
  | ident i name binding =>
    cases binding with
    | enumConst v =>
      obtain ⟨low, high⟩ := both (Expr.each_here (e := .ident i name (.enumConst v)) plain)
      have fits := Scalar.wrap_i32 (of_decide_eq_true low) (of_decide_eq_true high)
      have isInteger : Eval.IsIntegerOf i.ty .i32 := isIntegerOf_enumConst accepted.2
      obtain ⟨w, read, rfl⟩ := Eval.Coerced.of_int isInteger (Eval.coerced (accepted.isFloating plain) folds)
      cases read
      rw [fits]
      exact Track.folded_word isInteger fits rfl
    | _ => cases folds
  | sizeofType i target =>
    obtain ⟨spelled, d, -, -, run⟩ := accepted
    have type := sizeofType_accepts spelled.definite.not_isDependent run
    obtain ⟨n, size, folds⟩ := Option.bind_eq_some_iff.mp folds
    refine Track.folded_size type folds ?_
    unfold rvalue
    rw [size, Option.getD_some]
  | sizeofExpr i x ih =>
    obtain ⟨⟨d, -, -, run⟩, ax⟩ := accepted
    obtain ⟨n, size, folds⟩ := Option.bind_eq_some_iff.mp folds
    have notDependent : x.ty.isDependent = false := by
      cases ty : x.ty with
      | dependent =>
        rw [ty] at size
        cases size
      | _ => rfl
    refine Track.folded_size (sizeofExprType_accepts notDependent run) folds ?_
    unfold rvalue
    rw [size, Option.getD_some]
  | unary i op x ih =>
    have px := (both plain).2
    have notFloating : i.ty.isFloating = false := accepted.isFloating plain
    obtain ⟨c₁, inner, folds⟩ := Option.bind_eq_some_iff.mp folds
    obtain ⟨d, folded, folds⟩ := Option.bind_eq_some_iff.mp folds
    have hx := ih accepted.2 px inner
    have becomes := Eval.coerced notFloating folds
    obtain ⟨⟨d', -, -, run⟩, ax⟩ := accepted
    have rule := unaryType_accepts hx.fits.valued.2 run
    have sign {code : Code.UnaryOp} (isCode : op = .neg ∧ code = .neg ∨ op = .bitNot ∧ code = .bitNot)
        (rule : (x.ty.decay.isDynamic ∨ x.ty.decay.isArithmetic) ∧ i.ty = x.ty.decay.promote) :
        σ.Folded a (.unary i op x) c := by
      obtain ⟨dynamic | arithmetic, type⟩ := rule
      · rw [isDynamic_iff.mp dynamic] at type
        rw [type] at folds
        cases folds
      · exact Track.folded_sign hx (ax.isFloating px) arithmetic type isCode folded becomes
    cases op with
    | plus =>
      cases folded
      exact ⟨becomes.fits, hx.converted becomes, (hx.sees.left (.code _)).imp becomes.sees⟩
    | not =>
      cases folded
      exact Track.folded_not hx becomes
    | neg => exact sign (.inl ⟨rfl, rfl⟩) rule
    | bitNot => exact sign (.inr ⟨rfl, rfl⟩) rule
    | deref | addrOf | preInc | preDec | postInc | postDec => cases folded
  | binary i op x y ihx ihy =>
    obtain ⟨px, py⟩ := both (both plain).2
    have notFloating : i.ty.isFloating = false := accepted.isFloating plain
    obtain ⟨⟨d', -, -, run⟩, ax, ay⟩ := accepted
    cases op with
    | and =>
      obtain ⟨c₁, first, folds⟩ := Option.bind_eq_some_iff.mp folds
      have hx := ihx ax px first
      split at folds
      · rename_i truth
        obtain ⟨c₂, second, folds⟩ := Option.bind_eq_some_iff.mp folds
        refine Track.folded_undecided rfl hx (ihy ay py second) ?_ (Eval.coerced notFloating folds)
        rw [truth]
        rintro ⟨⟩
      · rename_i truth
        have truth := Bool.eq_false_iff.mpr truth
        exact Track.folded_decided rfl hx truth (truth.symm ▸ Eval.coerced notFloating folds)
    | or =>
      obtain ⟨c₁, first, folds⟩ := Option.bind_eq_some_iff.mp folds
      have hx := ihx ax px first
      split at folds
      · rename_i truth
        exact Track.folded_decided rfl hx truth (truth.symm ▸ Eval.coerced notFloating folds)
      · rename_i truth
        obtain ⟨c₂, second, folds⟩ := Option.bind_eq_some_iff.mp folds
        exact Track.folded_undecided rfl hx (ihy ay py second) truth (Eval.coerced notFloating folds)
    | _ =>
      obtain ⟨c₁, first, folds⟩ := Option.bind_eq_some_iff.mp folds
      obtain ⟨c₂, second, folds⟩ := Option.bind_eq_some_iff.mp folds
      obtain ⟨d, folded, folds⟩ := Option.bind_eq_some_iff.mp folds
      have hx := ihx ax px first
      have hy := ihy ay py second
      have rule := binaryType_accepts hx.fits.valued.2 hy.fits.valued.2 ax.null ay.null run
      exact Track.folded_arithmetic hx hy (ax.isFloating px) (ay.isFloating py) rfl rule folded
        (Eval.coerced notFloating folds)
  | conditional i z x y ihz ihx ihy =>
    obtain ⟨pzx, py⟩ := both (both plain).2
    obtain ⟨pz, px⟩ := both pzx
    have notFloating : i.ty.isFloating = false := accepted.isFloating plain
    obtain ⟨-, az, ax, ay⟩ := accepted
    obtain ⟨c₁, test, folds⟩ := Option.bind_eq_some_iff.mp folds
    have hz := ihz az pz test
    have ky : (rvalue.branch i.ty y.ty (rvalue a y)).Keeps :=
      .ite (keeps_discard _ (keeps_rvalue y)) ((keeps_rvalue y).append (.code _))
    split at folds
    · rename_i truth
      obtain ⟨c₂, value, folds⟩ := Option.bind_eq_some_iff.mp folds
      have becomes := Eval.coerced notFloating folds
      obtain ⟨runs, sees⟩ := (ihx ax px value).branch becomes
      exact Track.folded_conditional hz runs .meaningless (if_pos truth) becomes.fits (sees.conditional_left ky)
    · rename_i truth
      obtain ⟨c₂, value, folds⟩ := Option.bind_eq_some_iff.mp folds
      have becomes := Eval.coerced notFloating folds
      obtain ⟨runs, sees⟩ := (ihy ay py value).branch becomes
      exact Track.folded_conditional hz .meaningless runs (if_neg truth) becomes.fits sees.conditional_right
  | cast i target x ih =>
    obtain ⟨c₁, inner, folds⟩ := Option.bind_eq_some_iff.mp folds
    obtain ⟨spelled, ⟨d, -, -, run⟩, ax⟩ := id accepted
    have hx := ih ax (both plain).2 inner
    obtain ⟨type, -⟩ := castType_accepts spelled.definite.not_isDependent hx.fits.valued.2 run
    have notFloating : i.ty.isFloating = false := accepted.isFloating plain
    exact Track.folded_cast hx (Eval.coerced (type ▸ notFloating) folds) type
  | assign | call | index | member | comma => cases folds
  | invalid i => exact accepted.elim
  | nil => trivial
  | cons => trivial

/-! ## Linked code -/

/-- Constant folding agrees with execution. Where an expression that is analysed without errors, without
floating numbers and with its characters and enumerators in range, is folded to a constant, its code leaves the
value of that constant wherever it stands in a linked module, and leaves the memory as it is. -/
theorem folding_preserved {a₀ a b : Analysis} {e : Syntax.Expr} {t : Expr} {k : Constant} (sound : a₀.Sound)
    (written : e.Written) (analyzed : (Analyze.expr e).run a₀ = (t, a)) (correct : a.errors = #[])
    (later : a.Extends b) (plain : t.each Expr.isPlain) (folds : constant? b.types t = some k) {c : CodeModule}
    {f : CodeFunction} {s : Segment} (lowered : c.Includes b t f s)
    (distinct : (c.functions.toList.map (·.name)).Nodup) {m m' : Machine} {names : List String}
    (reached : m.Reached) (linked : Machine.link c m = .ok names m') :
    ∃ f', m'.functions.get? f.name = some f' ∧
      ∀ (η : Type) (host : Option (Host η)) (w : World η) (l : List Frame) (frame : Frame),
        frame.function = f' → Stands l frame s.first w →
          Evaluates host l frame s w (.ok (some (Eval.worth ⟨b.types, frame.base, m'⟩ k)) w.machine) := by
  have accepted : t.Accepted b := Analyze.accepted_expr sound written analyzed correct later
  have placed : Machine.LiteralsPlaced m' := by
    have reached' := (reached.linked c).literalsPlaced
    rwa [linked] at reached'
  obtain ⟨f', found, evaluates⟩ := lowered.evaluates distinct linked
  refine ⟨f', found, fun η host w l frame isFunction stands => ?_⟩
  obtain ⟨σ, rfl, rfl, comes⟩ := evaluates η host w l frame isFunction stands
  have runs := (accepted.folded plain folds placed).runs.some
  rw [pure_bind] at runs
  exact comes _ runs

/-- `1 || 1 / 0` -/
def decidedFirst : Syntax.Expr :=
  let here : Span := ⟨0, 0, 0, 1, 1⟩
  .binary here .or (.int here 1 .none) (.binary here .div (.int here 1 .none) (.int here 0 .none))

theorem decided_first_folds :
    ∃ (t : Expr) (a : Analysis) (c : CodeModule) (is : List Instr) (names : List String) (m : Machine)
      (f : CodeFunction),
      (Analyze.expr decidedFirst).run {} = (t, a) ∧ constant? a.types t = some (.bool true) ∧
      rvalue a t 0 {} = .ok (is, c) ∧ Machine.link (c.withCode is) {} = .ok names m ∧
      m.functions.get? "f" = some f ∧
      Evaluates none [] ⟨f, 0, m.stack.size, m.operands.length⟩ ⟨0, is.length⟩ (⟨m.enter f [], ()⟩ : World Unit)
        (.ok (some (.int 1)) (m.enter f [])) := by
  have outcome : (do
      let analyzed ← some ((Analyze.expr decidedFirst).run {})
      let folded ← constant? analyzed.2.types analyzed.1
      let code ← (rvalue analyzed.2 analyzed.1 0 {}).toOption
      let linked ← given? (Machine.link (code.2.withCode code.1) {})
      let _ ← linked.2.functions.get? "f"
      return (analyzed.2.errors.isEmpty && analyzed.1.each Expr.isPlain && linked.2.frames.isEmpty &&
        decide ((code.2.withCode code.1).functions.toList.map (·.name)).Nodup, folded) : Option _) =
      some (true, .bool true) := by
    decide +kernel
  simp only [Option.bind_eq_bind, Option.bind_eq_some_iff] at outcome
  obtain ⟨⟨t, a⟩, analyzed, v, folds, ⟨is, c⟩, code, ⟨names, m⟩, linked, f, found, outcome⟩ := outcome
  have linked := given?_eq_some linked
  obtain ⟨checks, rfl⟩ := Prod.mk.inj (Option.some.inj outcome)
  simp only [Bool.and_eq_true, decide_eq_true_eq] at checks
  obtain ⟨⟨⟨correct, plain⟩, frames⟩, distinct⟩ := checks
  have correct : a.errors = #[] := Array.isEmpty_iff.mp correct
  have frames : m.frames = #[] := Array.isEmpty_iff.mp frames
  have analyzed := Option.some.inj analyzed
  have code := Syntax.toOption_eq_some code
  have small : 0 < UInt64.size ∧ 1 < UInt64.size := by decide
  have written : decidedFirst.Written := ⟨small.2, small.2, small.1⟩
  obtain ⟨f', known, evaluates⟩ := folding_preserved Analysis.Reached.start.sound written analyzed correct
    (.refl a) plain folds (.withCode code) distinct (.new _ _ _) linked
  cases found.symm.trans known
  exact ⟨t, a, c, is, names, m, f, analyzed, folds, code, linked, found,
    evaluates Unit none _ [] _ rfl (stands_enter frames f)⟩

end IncrementalC
