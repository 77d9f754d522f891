import IncrementalC.Proofs.Analysis.Definite
import IncrementalC.Proofs.Lowering.Operators

/-!
# The code of accepted expressions

The analysis lets a void expression stand in a few places where code takes a value: as an argument in
a variadic position, as a result in a function that returns nothing, as a branch of a conditional
expression with a dynamic type, in an assignment to a dynamic object, and it lets `.` stand behind
an expression that is no object. `filled` says that a tree has none of these, and no initial
value for a part of type void.

`Expr.Coded`: the code of an expression leaves its value, or nothing if it is void, and the code of an
object leaves its address. Each form of expression has a lemma that takes the typing rule and what its
operands leave; `coded` puts them together.
-/
namespace IncrementalC
set_option autoImplicit false

namespace Typed

mutual

def Expr.filled : Expr → Bool
  | .unary _ _ e | .cast _ _ e => e.filled
  | .binary _ _ x y | .index _ x y | .comma _ x y => x.filled && y.filled
  | .assign _ _ x y => !y.ty.isVoid && x.filled && y.filled
  | .conditional i c x y =>
    (i.ty.isVoid || !x.ty.isVoid && !y.ty.isVoid) && c.filled && x.filled && y.filled
  | .call _ _ _ args => filledArgs args
  | .member _ base _ arrow => (arrow || base.isLvalue) && base.filled
  | _ => true

def filledArgs : List Expr → Bool
  | [] => true
  | e :: es => !e.ty.isVoid && e.filled && filledArgs es

end

/-- The value of `e` is stored into a part of type `ty`. -/
def filledPart (ty : Ty) (e : Expr) : Bool := !ty.isVoid && !e.ty.isVoid && e.filled

mutual

def filledInit (types : TypeTable) (ty : Ty) : Initializer → Bool
  | .expr e =>
    match ty, e with
    | .array _ _, .str .. => true
    | ty, e => filledPart ty e
  | .list items _ =>
    match ty with
    | .array elem _ => filledElements types elem items
    | .record id => filledMembers types (((types.record? id).map (·.fields)).getD []) items
    | ty =>
      match items with
      | [] => true
      | item :: _ => filledInit types ty item
  | .construct args _ =>
    match args with
    | [] => true
    | e :: _ => filledPart ty e

def filledElements (types : TypeTable) (elem : Ty) : List Initializer → Bool
  | [] => true
  | item :: items => filledInit types elem item && filledElements types elem items

def filledMembers (types : TypeTable) (fields : List Field) : List Initializer → Bool
  | [] => true
  | item :: items =>
    match fields with
    | [] => true
    | f :: fields => filledInit types f.ty item && filledMembers types fields items

end

def Decl.filled (types : TypeTable) (d : Decl) : Bool :=
  match d.kind with
  | .var v => v.init.all (filledInit types v.ty)
  | _ => true

def filledForInit (types : TypeTable) : ForInit Expr DeclGroup → Bool
  | .none => true
  | .decl _ g => g.decls.all (·.filled types)
  | .expr _ e => e.filled

mutual

def filledStmt (types : TypeTable) : Stmt → Bool
  | .null _ | .break _ | .continue _ | .return _ none => true
  | .expr _ e => e.filled
  | .decl _ g => g.decls.all (·.filled types)
  | .compound _ ss => filledStmts types ss
  | .ifThen _ c yes => c.filled && filledStmt types yes
  | .ifElse _ c yes no => c.filled && filledStmt types yes && filledStmt types no
  | .while _ c body | .doWhile _ body c => c.filled && filledStmt types body
  | .for _ init c step body =>
    filledForInit types init && c.all (·.filled) && step.all (·.filled) && filledStmt types body
  | .return _ (some e) => !e.ty.isVoid && e.filled

def filledStmts (types : TypeTable) : List Stmt → Bool
  | [] => true
  | s :: ss => filledStmt types s && filledStmts types ss

end

def TopLevel.filled (types : TypeTable) (t : TopLevel) : Bool :=
  t.group.decls.all (·.filled types) && t.body.all (filledStmt types)

end Typed

/-! ## Types with a machine kind -/

namespace Lowering

theorem hasKind_of_definite {ty : Ty} (definite : ty.Definite) (notVoid : ty ≠ .void)
    (notRecord : ty.isRecord = false) : HasKind ty := by
  cases ty with
  | void => exact absurd rfl notVoid
  | record id => cases notRecord
  | dependent => exact definite.elim
  | int k =>
    obtain ⟨rank, signed⟩ := k
    cases rank <;> cases signed <;> rfl
  | _ => rfl

/-- Records apart, an object has a machine kind. -/
theorem hasKind_of_isObject {ty : Ty} (object : ty.IsObject) (notAggregate : ty.isAggregate = false) :
    HasKind ty := by
  rw [Ty.isAggregate, Bool.or_eq_false_iff] at notAggregate
  exact hasKind_of_definite object.definite object.notVoid notAggregate.2

theorem isScalar_decay {ty : Ty} (h : ty.isScalar) : ty.decay.isScalar := by
  cases ty <;> exact h

theorem isScalar_facts {ty : Ty} (h : ty.decay.isScalar) :
    ty ≠ .dependent ∧ ty ≠ .void ∧ ty.isRecord = false := by
  cases ty with
  | dependent | void | record => cases h
  | _ => exact ⟨nofun, nofun, rfl⟩

theorem hasKind_of_isScalar {ty : Ty} (h : ty.decay.isScalar) : HasKind ty := by
  cases ty with
  | dependent | void | record => cases h
  | int k =>
    obtain ⟨rank, signed⟩ := k
    cases rank <;> cases signed <;> rfl
  | _ => rfl

theorem hasKind_decay {ty : Ty} : HasKind ty.decay ↔ HasKind ty := by
  cases ty <;> exact Iff.rfl

theorem hasKind_promote {ty : Ty} (h : HasKind ty) : HasKind ty.promote := by
  cases ty with
  | int k =>
    obtain ⟨rank, signed⟩ := k
    cases rank <;> cases signed <;> rfl
  | bool | enum _ => rfl
  | _ => exact h

theorem hasKind_common {s t : Ty} (h : HasKind s) : HasKind (Ty.common s t) := by
  unfold Ty.common
  split
  · rfl
  split
  · rfl
  split
  · rfl
  split
  · rename_i x y _ _
    generalize Ty.IntKind.common x y = k
    obtain ⟨rank, signed⟩ := k
    cases rank <;> cases signed <;> rfl
  · exact hasKind_promote h

theorem hasKind_of_binaryRule {op : BinaryOp} {s t ty : Ty} (rule : Analyze.BinaryRule op s t ty) :
    HasKind ty := by
  obtain ⟨left, right⟩ := rule.scalars
  have kind {u : Ty} (h : u.isScalar) : HasKind u := hasKind_of_isScalar (isScalar_decay h)
  cases rule with
  | logical | compared | difference => rfl
  | dynamic => split <;> rfl
  | common => exact hasKind_common (kind left)
  | shifted => exact hasKind_promote (kind left)
  | offset => exact kind left
  | offsetLeft => exact kind right

theorem values_eq_one {ty : Ty} (h : ty ≠ .void) : ty.values = 1 := by
  cases ty with
  | void => exact absurd rfl h
  | _ => rfl

theorem values_of_isVoid {ty : Ty} (h : ty.isVoid = false) : ty.values = 1 := by
  rw [Ty.values, h]
  rfl

end Lowering

end IncrementalC

namespace IncrementalC.Lowering
set_option autoImplicit false
open Typed Analyze

variable {S : Signatures} {r : Nat} {a : Analysis}

/-- What is compiled: every name is known, and the functions have the given signatures. -/
structure Declared (S : Signatures) (a : Analysis) : Prop where
  noFallback : a.fallback = none
  signature : ∀ name sig, a.signature? name = some sig → S name = some sig

structure Coded (S : Signatures) (r : Nat) (a : Analysis) (e : Expr) : Prop where
  value : (rvalue a e).Trades S r 0 e.ty.values
  address : e.isLvalue → (lvalue a e).Trades S r 0 1

theorem notVoid_of_eq {ty ty' : Ty} (h : ty = ty') (notVoid : ty' ≠ .void) : ty ≠ .void := h ▸ notVoid

theorem notVoid_of_hasKind {ty : Ty} (h : HasKind ty) : ty ≠ .void := by
  rintro rfl
  cases h

namespace Coded

variable {e x y : Expr}

theorem one (h : Coded S r a e) (notVoid : e.ty ≠ .void) : (rvalue a e).Trades S r 0 1 := by
  have value := h.value
  rwa [values_eq_one notVoid] at value

/-- An expression that is no object. -/
theorem ofResult (accepted : e.Accepted a) (declared : Declared S a)
    (isLvalue : e.isLvalue = e.ty.isDependent) (value : (rvalue a e).Trades S r 0 e.ty.values) :
    Coded S r a e := by
  refine ⟨value, fun object => ?_⟩
  rw [isLvalue, (accepted.definite declared.noFallback).not_isDependent] at object
  cases object

theorem ofValue (accepted : e.Accepted a) (declared : Declared S a) (notVoid : e.ty ≠ .void)
    (isLvalue : e.isLvalue = e.ty.isDependent) (value : (rvalue a e).Trades S r 0 1) :
    Coded S r a e := by
  refine ofResult accepted declared isLvalue ?_
  rwa [values_eq_one notVoid]

/-- An object, whose value is read from its address. -/
theorem ofObject (accepted : e.Accepted a) (declared : Declared S a) (isLvalue : e.isLvalue)
    (code : rvalue a e = lvalue a e ++ load a.types e.ty e.span)
    (address : (lvalue a e).Trades S r 0 1) : Coded S r a e := by
  have object := accepted.isObject declared.noFallback isLvalue
  refine ⟨?_, fun _ => address⟩
  rw [values_eq_one object.notVoid, code]
  exact address.append (trades_load (hasKind_of_isObject object))

/-! ## Names -/

theorem ident {i : Info} {name : String} {binding : Binding} (declared : Declared S a)
    (accepted : (Expr.ident i name binding).Accepted a) : Coded S r a (.ident i name binding) := by
  obtain ⟨object, kind⟩ := bound_cases accepted.2 declared.noFallback
  have notVoid : (Expr.ident i name binding).ty ≠ .void := object.notVoid
  rcases kind with isVariable | ⟨v, rfl⟩
  · have address (problem : LoweringProblem) :
        (variableAddress binding problem i.span).Trades S r 0 1 := trades_variableAddress isVariable
    have load : (load a.types i.ty i.span).Trades S r 1 1 := trades_load (hasKind_of_isObject object)
    have read := (address (.unresolvedName name)).append load
    refine ⟨?_, fun _ => address _⟩
    rw [values_eq_one notVoid]
    cases binding with
    | «local» slot => exact read
    | global link => exact read
    | _ => cases isVariable
  · refine ⟨?_, nofun⟩
    rw [values_eq_one notVoid]
    exact trades_push rfl rfl rfl

/-! ## Operators -/

theorem unary {i : Info} {op : UnaryOp} (declared : Declared S a)
    (accepted : (Expr.unary i op e).Accepted a) (he : Coded S r a e) :
    Coded S r a (.unary i op e) := by
  obtain ⟨⟨c, -, -, run⟩, inner⟩ := id accepted
  have definite := inner.definite declared.noFallback
  have rule := unaryType_accepts definite.not_isDependent run
  have arithmetic {ty : Ty} (h : ty.decay.isDynamic ∨ ty.decay.isArithmetic) : ty.decay.isScalar :=
    h.elim isScalar_of_isDynamic isScalar_of_isArithmetic
  have computed (op : UnaryOp) (h : e.ty.decay.isDynamic ∨ e.ty.decay.isArithmetic)
      (ty : i.ty = e.ty.decay.promote) (truth : op ≠ .not) (loads : op ≠ .deref) :
      i.ty ≠ .void ∧ (Lowering.unary a.types op e.ty i (rvalue a e)).Trades S r 0 1 := by
    have scalar := arithmetic h
    have kind : HasKind i.ty := by
      rw [ty]
      exact hasKind_promote (hasKind_decay.mpr (hasKind_of_isScalar scalar))
    refine ⟨notVoid_of_hasKind kind, ?_⟩
    exact trades_unary (he.one (isScalar_facts scalar).2.1) (fun _ => kind)
      (fun not => absurd not truth) (fun deref => absurd deref loads)
  have incremented (h : (e.isLvalue ∧ i.ty = e.ty)
      ∧ (e.ty.decay.isArithmetic ∨ e.ty.decay.isPointer ∨ e.ty.decay.isDynamic)) :
      i.ty ≠ .void ∧ HasKind e.ty := by
    obtain ⟨⟨-, ty⟩, kind⟩ := h
    have scalar : e.ty.decay.isScalar := kind.elim isScalar_of_isArithmetic fun kind =>
      kind.elim isScalar_of_isPointer isScalar_of_isDynamic
    exact ⟨notVoid_of_eq ty (isScalar_facts scalar).2.1, hasKind_of_isScalar scalar⟩
  cases op with
  | neg =>
    obtain ⟨notVoid, code⟩ := computed .neg rule.1 rule.2 nofun nofun
    exact ofValue accepted declared notVoid rfl code
  | bitNot =>
    obtain ⟨notVoid, code⟩ := computed .bitNot rule.1 rule.2 nofun nofun
    exact ofValue accepted declared notVoid rfl code
  | plus =>
    obtain ⟨notVoid, code⟩ := computed .plus rule.1 rule.2 nofun nofun
    exact ofValue accepted declared notVoid rfl code
  | not =>
    refine ofValue accepted declared ?_ rfl ?_
    · rw [show Expr.ty (.unary i .not e) = i.ty from rfl, rule.2]
      exact nofun
    · show (Lowering.unary a.types .not e.ty i (rvalue a e)).Trades S r 0 1
      refine trades_unary (he.one (isScalar_facts rule.1).2.1) ?_ (fun _ => hasKind_of_isScalar rule.1) ?_
      all_goals exact nofun
  | deref =>
    refine ofObject accepted declared rfl rfl (he.one fun void => ?_)
    have pointer := rule.1
    rw [void] at pointer
    cases pointer
  | addrOf =>
    refine ofValue accepted declared ?_ rfl (he.address rule.1)
    rw [show Expr.ty (.unary i .addrOf e) = i.ty from rfl, rule.2]
    exact nofun
  | preInc | preDec | postInc | postDec =>
    obtain ⟨notVoid, kind⟩ := incremented rule
    exact ofValue accepted declared notVoid rfl (trades_increment (he.address rule.1.1) kind)

/-- The type in which a binary operator computes. -/
theorem operation_arithmetic {types : TypeTable} {op : BinaryOp} {s t result ty : Ty}
    (act : operation types op s t result = .arithmetic ty) :
    ty = if !op.isComparison then result
      else if s.isPointer || t.isPointer then .voidPtr else Ty.common s t := by
  unfold operation at act
  dsimp only at act
  split at act
  · cases act
    rfl
  · split at act
    · split at act
      · cases act
      · split at act <;> cases act
        rfl
    · split at act
      · cases act
      · split at act <;> cases act
        rfl
    · cases act
      rfl

theorem binary {i : Info} {op : BinaryOp} (declared : Declared S a)
    (accepted : (Expr.binary i op x y).Accepted a) (hx : Coded S r a x) (hy : Coded S r a y) :
    Coded S r a (.binary i op x y) := by
  obtain ⟨⟨c, -, -, run⟩, ax, ay⟩ := id accepted
  have rule := binaryType_accepts (ax.definite declared.noFallback).not_isDependent
    (ay.definite declared.noFallback).not_isDependent ax.null ay.null run
  obtain ⟨left, right⟩ := rule.scalars
  refine ofValue accepted declared (notVoid_of_hasKind (hasKind_of_binaryRule rule)) rfl ?_
  refine trades_binary (hx.one (isScalar_facts left).2.1) (hy.one (isScalar_facts right).2.1)
    fun _ ty act => ?_
  rw [operation_arithmetic act]
  split
  · exact hasKind_of_binaryRule rule
  · split
    · rfl
    · exact hasKind_common (hasKind_decay.mpr (hasKind_of_isScalar left))

theorem assign {i : Info} {op : Option BinaryOp} (declared : Declared S a)
    (accepted : (Expr.assign i op x y).Accepted a) (filled : y.ty.isVoid = false)
    (hx : Coded S r a x) (hy : Coded S r a y) : Coded S r a (.assign i op x y) := by
  obtain ⟨arithmetic, ⟨c, -, -, run⟩, ax, ay⟩ := id accepted
  have definite := ax.definite declared.noFallback
  obtain ⟨isLvalue, -, same, compound⟩ := assignType_accepts definite.not_isDependent run
  have object := ax.isObject declared.noFallback isLvalue
  have operands (o : BinaryOp) (given : op = some o) : x.ty.decay.isScalar := by
    obtain ⟨t, run⟩ := compound o given
    exact (binaryType_accepts definite.not_isDependent (ay.definite declared.noFallback).not_isDependent
      ax.null ay.null run).scalars.1
  refine ofValue accepted declared (fun void => object.notVoid (same.symm.trans void)) rfl ?_
  refine trades_assign (hx.address isLvalue) (hy.one fun void => ?_) (fun record => ?_)
    (hasKind_of_definite definite object.notVoid) fun o given => ⟨?_, fun _ => ?_⟩
  · rw [void] at filled
    cases filled
  · cases op with
    | none => rfl
    | some o =>
      rw [(isScalar_facts (operands o rfl)).2.2] at record
      cases record
  · have plain := arithmetic o given
    unfold BinaryOp.isArithmetic at plain
    cases o <;> first | rfl | cases plain
  · have kind := hasKind_of_isScalar (operands o given)
    cases o with
    | shl | shr => exact hasKind_promote kind
    | _ => exact hasKind_common kind

theorem conditional {i : Info} {c : Expr} (declared : Declared S a)
    (accepted : (Expr.conditional i c x y).Accepted a)
    (filled : i.ty.isVoid ∨ x.ty.isVoid = false ∧ y.ty.isVoid = false)
    (hc : Coded S r a c) (hx : Coded S r a x) (hy : Coded S r a y) :
    Coded S r a (.conditional i c x y) := by
  obtain ⟨⟨d, -, -, run⟩, ac, ax, ay⟩ := id accepted
  have rule := conditionalType_accepts (ac.definite declared.noFallback).not_isDependent
    (ax.definite declared.noFallback).not_isDependent (ay.definite declared.noFallback).not_isDependent
    ax.null ay.null run
  have branch {e : Expr} (he : Coded S r a e) (filled : i.ty.isVoid ∨ e.ty.isVoid = false) :
      (rvalue.branch i.ty e.ty (rvalue a e)).Trades S r 0 i.ty.values := by
    unfold rvalue.branch Ty.values
    split
    · exact trades_discard he.value
    · rename_i notVoid
      have value := he.value
      rw [values_of_isVoid (filled.resolve_left notVoid)] at value
      exact value.append (.code (.convert _ _))
  refine ofResult accepted declared rfl ?_
  refine trades_conditional (hc.one (isScalar_facts (isScalar_decay rule.1)).2.1) (branch hx ?_) (branch hy ?_)
  · exact filled.imp_right And.left
  · exact filled.imp_right And.right

/-! ## Parts of objects -/

theorem index {i : Info} (declared : Declared S a) (accepted : (Expr.index i x y).Accepted a)
    (hx : Coded S r a x) (hy : Coded S r a y) : Coded S r a (.index i x y) := by
  obtain ⟨⟨c, -, -, run⟩, ax, ay⟩ := id accepted
  obtain ⟨-, kinds⟩ := indexType_accepts (ax.definite declared.noFallback).not_isDependent
    (ay.definite declared.noFallback).not_isDependent run
  have pointer {t s : Ty} (h : t.pointee? = some s) : t ≠ .void := by
    rintro rfl
    cases h
  have number {t : Ty} (h : t.isInteger ∨ t.isDynamic) : t ≠ .void := by
    rintro rfl
    rcases h with h | h <;> cases h
  have notVoid : x.ty ≠ .void ∧ y.ty ≠ .void := by
    rcases kinds with ⟨left, right⟩ | ⟨right, left⟩
    · exact ⟨pointer left, number right⟩
    · exact ⟨number left, pointer right⟩
  exact ofObject accepted declared rfl rfl
    (trades_elementAddress (hx.one notVoid.1) (hy.one notVoid.2))

theorem member {i : Info} {field : String} {arrow : Bool} (declared : Declared S a)
    (accepted : (Expr.member i e field arrow).Accepted a) (filled : arrow ∨ e.isLvalue)
    (he : Coded S r a e) : Coded S r a (.member i e field arrow) := by
  obtain ⟨-, ⟨c, sound, extended, run⟩, ae⟩ := id accepted
  obtain ⟨id, record, f, base, known, found, -⟩ :=
    memberType_accepts (ae.definite declared.noFallback).not_isDependent run
  have complete : record.complete := by
    cases complete : record.complete with
    | true => rfl
    | false =>
      have fields := (sound.record id record known).incomplete complete
      unfold RecordDef.field? at found
      rw [fields] at found
      cases found
  have offset : (fieldOffset a.types (some (.record id)) field i.span).Trades S r 1 1 := by
    refine trades_fieldOffset ?_
    rw [extended.complete id record known complete, Option.bind_some, found]
    rfl
  cases arrow with
  | true =>
    have base : e.ty.decay = .pointer (.record id) := base
    refine ofObject accepted declared rfl rfl ?_
    show (rvalue a e ++ fieldOffset a.types e.ty.decay.pointee? field i.span).Trades S r 0 1
    rw [base]
    refine (he.one fun void => ?_).append offset
    rw [void] at base
    cases base
  | false =>
    have base : e.ty = .record id := base
    have isLvalue : e.isLvalue := filled.resolve_left nofun
    refine ofObject accepted declared ?_ rfl ?_
    · exact isLvalue
    · show (lvalue a e ++ fieldOffset a.types (some e.ty) field i.span).Trades S r 0 1
      rw [base]
      exact (he.address isLvalue).append offset

/-! ## Conversions and sequences -/

theorem cast {i : Info} {target : Ty} (declared : Declared S a)
    (accepted : (Expr.cast i target e).Accepted a) (he : Coded S r a e) :
    Coded S r a (.cast i target e) := by
  obtain ⟨spelled, ⟨c, -, -, run⟩, ae⟩ := id accepted
  obtain ⟨same, kinds⟩ := castType_accepts spelled.definite.not_isDependent
    (ae.definite declared.noFallback).not_isDependent run
  refine ofResult accepted declared rfl ?_
  rw [show Expr.ty (.cast i target e) = target from same]
  show (if target.isVoid then discard e.ty (rvalue a e)
    else rvalue a e ++ Piece.code (convert e.ty target)).Trades S r 0 target.values
  unfold Ty.values
  split
  · exact trades_discard he.value
  · rename_i notVoid
    have scalar := (kinds.resolve_left notVoid).2
    exact (he.one (isScalar_facts scalar).2.1).append (.code (.convert _ _))

theorem comma {i : Info} (declared : Declared S a) (accepted : (Expr.comma i x y).Accepted a)
    (hx : Coded S r a x) (hy : Coded S r a y) : Coded S r a (.comma i x y) := by
  obtain ⟨same, ax, ay⟩ := id accepted
  rw [(ax.definite declared.noFallback).not_isDependent,
    (ay.definite declared.noFallback).not_isDependent] at same
  refine ofResult accepted declared rfl ?_
  rw [show Expr.ty (.comma i x y) = y.ty from same]
  exact (trades_discard hx.value).append hy.value

/-! ## Calls -/

theorem length_rvalues (args : List Expr) : (rvalues a args).length = args.length := by
  induction args with
  | nil => rfl
  | cons _ args ih => exact congrArg (· + 1) ih

theorem passed (params : List Ty) {args : List Expr} (filled : filledArgs args)
    (coded : ∀ e ∈ args, Coded S r a e) :
    (Lowering.passed params (rvalues a args)).Trades S r 0 args.length := by
  have given : ∀ arg ∈ rvalues a args, arg.2.Trades S r 0 1 := by
    clear params
    induction args with
    | nil => exact nofun
    | cons e es ih =>
      unfold filledArgs at filled
      rw [Bool.and_eq_true, Bool.and_eq_true, Bool.not_eq_true'] at filled
      refine List.forall_mem_cons.mpr ⟨?_, ih filled.2 fun e he => coded e (List.mem_cons_of_mem _ he)⟩
      have value := (coded e List.mem_cons_self).value
      rwa [values_of_isVoid filled.1.1] at value
  have values := trades_passed (S := S) (r := r) params fun arg harg _ => given arg harg
  rwa [length_rvalues] at values

/-- Builtins that are called like declared functions give a value. -/
theorem builtin_values {b : Builtin} {sig : FunctionSig} (h : b.signature? = some sig) :
    sig.ret.values = if b = .setResult then 0 else 1 := by
  cases b <;> cases h <;> rfl

theorem call {i : Info} {name : String} {target : Binding} {args : List Expr}
    (declared : Declared S a) (accepted : (Expr.call i name target args).Accepted a)
    (filled : filledArgs args) (coded : ∀ e ∈ args, Coded S r a e) :
    Coded S r a (.call i name target args) := by
  obtain ⟨-, -, callee, resolved, rule⟩ := id accepted
  have known : target ≠ .placeholder := fun same => accepted.names_known declared.noFallback (congrArg some same)
  refine ofResult accepted declared rfl ?_
  show (Lowering.call a i name target (rvalues a args)).Trades S r 0 i.ty.values
  rcases callType_accepts resolved known rule with
    ⟨sig, rfl, found, -, same⟩ | ⟨b, sig, rfl, found, same⟩ | ⟨b, e, rfl, hook, same, rfl⟩
  · unfold Lowering.call
    dsimp only
    rw [found, same, length_rvalues]
    exact (passed sig.params filled coded).append (.code (.call (declared.signature _ _ found) _))
  · have invoke : (Lowering.passed sig.params (rvalues a args) ++ Piece.code
        [.builtin b (rvalues a args).length]).Trades S r 0 sig.ret.values := by
      rw [length_rvalues, builtin_values found]
      exact (passed sig.params filled coded).append (.code (trades_instr rfl rfl rfl))
    rw [same]
    unfold Lowering.call
    cases b with
    | printValue | setResult => cases found
    | _ =>
      dsimp only
      rw [found]
      exact invoke
  · have value := (coded e List.mem_cons_self).value
    unfold filledArgs at filled
    rw [Bool.and_eq_true, Bool.and_eq_true, Bool.not_eq_true'] at filled
    rw [values_of_isVoid filled.1.1] at value
    rw [same]
    cases b with
    | printValue | setResult => exact value.append (.code (trades_instr rfl rfl rfl))
    | _ => cases hook

end Coded

/-! ## All expressions -/

mutual

/-- The code of an accepted expression, every part of which gives the value that is taken. -/
theorem coded (declared : Declared S a) : ∀ {e : Expr}, e.Accepted a → e.filled → Coded S r a e
  | .int i v suffix, h, _ => by
    refine .ofValue h declared (notVoid_of_eq h.2 ?_) rfl (trades_push rfl rfl rfl)
    cases suffix <;> unfold intLiteralType <;> dsimp only <;> (try split) <;> (try split) <;> exact nofun
  | .float i x single, h, _ => by
    refine .ofValue h declared (notVoid_of_eq (show i.ty = _ from h) ?_) rfl (trades_push rfl rfl rfl)
    split <;> exact nofun
  | .char i c, h, _ =>
    .ofValue h declared (notVoid_of_eq (show i.ty = .char from h) nofun) rfl (trades_push rfl rfl rfl)
  | .bool i b, h, _ =>
    .ofValue h declared (notVoid_of_eq (show i.ty = .bool from h) nofun) rfl (trades_push rfl rfl rfl)
  | .null i, h, _ =>
    .ofValue h declared (notVoid_of_eq (show i.ty = .voidPtr from h) nofun) rfl
      (trades_push rfl rfl rfl)
  | .str i s, h, _ =>
    .ofValue h declared (notVoid_of_eq (show i.ty = _ from h) nofun) rfl (trades_stringAddress s)
  | .ident i name binding, h, _ => .ident declared h
  | .unary i op e, h, f => .unary declared h (coded declared h.2 f)
  | .binary i op x y, h, f => by
    have f := Bool.and_eq_true_iff.mp f
    exact .binary declared h (coded declared h.2.1 f.1) (coded declared h.2.2 f.2)
  | .assign i op x y, h, f => by
    unfold Expr.filled at f
    rw [Bool.and_eq_true, Bool.and_eq_true, Bool.not_eq_true'] at f
    exact .assign declared h f.1.1 (coded declared h.2.2.1 f.1.2) (coded declared h.2.2.2 f.2)
  | .conditional i c x y, h, f => by
    unfold Expr.filled at f
    rw [Bool.and_eq_true, Bool.and_eq_true, Bool.and_eq_true, Bool.or_eq_true, Bool.and_eq_true,
      Bool.not_eq_true', Bool.not_eq_true'] at f
    exact .conditional declared h f.1.1.1 (coded declared h.2.1 f.1.1.2) (coded declared h.2.2.1 f.1.2)
      (coded declared h.2.2.2 f.2)
  | .call i name target args, h, f => .call declared h f (codedAll declared h.2.1 f)
  | .index i x y, h, f => by
    have f := Bool.and_eq_true_iff.mp f
    exact .index declared h (coded declared h.2.1 f.1) (coded declared h.2.2 f.2)
  | .member i e field arrow, h, f => by
    unfold Expr.filled at f
    rw [Bool.and_eq_true, Bool.or_eq_true] at f
    exact .member declared h f.1 (coded declared h.2.2 f.2)
  | .cast i target e, h, f => .cast declared h (coded declared h.2.2 f)
  | .sizeofType i target, h, _ => by
    obtain ⟨spelled, c, -, -, run⟩ := id h
    refine .ofValue h declared (notVoid_of_eq (sizeofType_accepts spelled.definite.not_isDependent run) nofun) rfl ?_
    exact trades_push rfl rfl rfl
  | .sizeofExpr i e, h, _ => by
    obtain ⟨⟨c, -, -, run⟩, he⟩ := id h
    have definite := he.definite declared.noFallback
    refine .ofValue h declared (notVoid_of_eq (sizeofExprType_accepts definite.not_isDependent run) nofun) rfl ?_
    exact trades_push rfl rfl rfl
  | .comma i x y, h, f => by
    have f := Bool.and_eq_true_iff.mp f
    exact .comma declared h (coded declared h.2.1 f.1) (coded declared h.2.2 f.2)
  | .invalid i, h, _ => h.elim

theorem codedAll (declared : Declared S a) :
    ∀ {es : List Expr}, AcceptedAll a es → filledArgs es → ∀ e ∈ es, Coded S r a e
  | [], _, _ => nofun
  | e :: es, h, f => by
    unfold filledArgs at f
    rw [Bool.and_eq_true, Bool.and_eq_true] at f
    exact List.forall_mem_cons.mpr ⟨coded declared h.1 f.1.2, codedAll declared h.2 f.2⟩

end

end IncrementalC.Lowering
