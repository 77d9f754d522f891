import IncrementalC.Proofs.Semantics.Comparison
import IncrementalC.Proofs.Semantics.Stepped

/-!
# Compound assignments and increments mean what they abbreviate

The code of `x += y` evaluates the place of `x` once, that of `x = x + y` evaluates it twice, and behind that the two are
the same (`Lowering.assign_binary`). The code of `++x` is a single instruction, which does what `x += 1` comes to. So the
runs agree wherever evaluating the place has no side effects (`abbreviation_agrees`), unless the instructions run out: the
abbreviation has fewer of them (`stepped_outlasts`).
-/
namespace IncrementalC
set_option autoImplicit false
open Lowering Analyze Structured
open Typed (Expr Info Binding)

namespace Lowering

/-! ## Pieces of an abbreviation -/

variable {a : Analysis} {T : TypeTable} {x : Expr} {kind : Scalar} {ty s t : Ty} {op : BinaryOp}

theorem load_known (known : kindOf? ty = some kind) (notAggregate : ty.isAggregate = false) (span : Span) :
    load T ty span = .code [.load kind] := by
  unfold load
  rw [notAggregate, known]
  rfl

/-- The value of an object is read from its place. -/
theorem rvalue_object (object : x.isLvalue) (known : kindOf? x.ty = some kind) (notAggregate : x.ty.isAggregate = false) :
    rvalue a x = lvalue a x ++ .code [.load kind] := by
  have notDependent : ¬x.ty.isDependent := by
    intro dependent
    cases type : x.ty with
    | dependent => rw [type] at known; cases known
    | _ => rw [type] at dependent; cases dependent
  cases x with
  | ident i name binding =>
    cases binding with
    | «local» slot | global link => exact congrArg (_ ++ ·) (load_known known notAggregate i.span)
    | _ => cases object
  | unary i op e =>
    cases op with
    | deref => exact congrArg (_ ++ ·) (load_known known notAggregate i.span)
    | _ => exact absurd object notDependent
  | index i base index => exact congrArg (_ ++ ·) (load_known known notAggregate i.span)
  | member i base field arrow =>
    cases arrow with
    | true | false => exact congrArg (_ ++ ·) (load_known known notAggregate i.span)
  | _ => exact absurd object notDependent

section

variable (plain : ty.isInteger ∨ ty.isPointer)
include plain

theorem decay_of_plain : ty.decay = ty := by
  cases ty with
  | array elem n => rcases plain with h | h <;> cases h
  | _ => rfl

theorem notDependent_of_plain : ty.isDependent = false := by
  rcases plain with h | h <;> cases ty <;> first | rfl | cases h

theorem notAggregate_of_plain : ty.isAggregate = false := by
  rcases plain with h | h <;> cases ty <;> first | rfl | cases h

theorem notRecord_of_plain : ty.isRecord = false := by
  rcases plain with h | h <;> cases ty <;> first | rfl | cases h

theorem hasKind_of_plain : HasKind ty := by
  refine hasKind_of_isScalar ?_
  rw [decay_of_plain plain]
  exact plain.elim (fun h => isScalar_of_isArithmetic (isArithmetic_of_isInteger h)) isScalar_of_isPointer

end

theorem convert_self (ty : Ty) : convert ty ty = [] := by
  unfold convert
  split
  · rename_i s t hs ht
    exact if_pos (Option.some.inj (hs.symm.trans ht))
  · rfl

/-- What an operator on numbers leaves is converted and stored. -/
theorem binary_append {code : Code.BinaryOp} (known : kindOf? ty = some kind) (found : machineOp? op = some code)
    (problem first second : LoweringProblem) (span span' : Span) (is : List Instr) :
    (Piece.gen do
      let kind ← need (kindOf? ty) problem span
      return [.binary (← need (machineOp? op) problem span) kind]) ++ .code is =
    .gen do
      let op ← need (machineOp? op) first span'
      let kind ← need (kindOf? ty) second span'
      return .binary op kind :: is := by
  rw [known, found]
  rfl

section

variable {p y : Piece} {k : Info} (arithmetic : op.isArithmetic)
include arithmetic

theorem not_isLogical : op.isLogical = false ∧ op.isComparison = false := by
  unfold BinaryOp.isArithmetic at arithmetic
  simpa using arithmetic

/-- An operator on numbers, whose result is stored in the object that the first one is read from. -/
theorem binary_numbers (left : s.isInteger) (right : t.isInteger) (type : k.ty = Typed.operationType op s t)
    (hasKind : HasKind k.ty) (span : Span) :
    binary T op s t k (p ++ .code [.load kind]) y ++ .code (convert k.ty s ++ [.store kind]) =
      p ++ updating T op kind s t span y := by
  obtain ⟨notLogical, notComparison⟩ := not_isLogical arithmetic
  obtain ⟨common, known⟩ := Option.isSome_iff_exists.mp hasKind
  obtain ⟨code, found⟩ := Option.isSome_iff_exists.mp (machineOp?_isSome notLogical)
  have notPointer : s.isPointer = false := Track.not_isPointer_of_number (.inl (isArithmetic_of_isInteger left))
  have notPointer' : t.isPointer = false := Track.not_isPointer_of_number (.inl (isArithmetic_of_isInteger right))
  unfold binary updating
  rw [notLogical, if_neg Bool.false_ne_true, decay_of_plain (.inl left), decay_of_plain (.inl right), notPointer, if_neg Bool.false_ne_true]
  dsimp only
  rw [(Track.ActsOnNumbers.of_notPointer notPointer notPointer').operation_eq, notComparison, ← type]
  simp only [Piece.append_assoc, Bool.not_false, if_true]
  rw [binary_append known found]
  rfl

/-- A pointer that is moved and stored back. -/
theorem binary_offset (moves : op = .add ∨ op = .sub) (left : s.isPointer) (right : t.isInteger) (type : k.ty = s) (span : Span) :
    binary T op s t k (p ++ .code [.load kind]) y ++ .code (convert k.ty s ++ [.store kind]) =
      p ++ updating T op kind s t span y := by
  have notDynamic : (s.isDynamic || t.isDynamic) = false := by
    rw [Track.not_isDynamic_of_isPointer left, Track.not_isDynamic_of_isArithmetic (isArithmetic_of_isInteger right)]
    rfl
  have offset : operation T op s t s = .offset true (op = .sub) (pointeeStride T s) := by
    obtain rfl | rfl := moves <;> simp [operation, notDynamic, left, right]
  unfold binary updating
  rw [(not_isLogical arithmetic).1, if_neg Bool.false_ne_true, decay_of_plain (.inr left), decay_of_plain (.inl right), if_pos left, type,
    convert_self]
  dsimp only
  rw [offset]
  simp only [Piece.append_assoc, List.nil_append]

/-- The type of an operation on two integers. -/
theorem type_of_integers (left : s.isInteger) (right : t.isInteger) (rule : BinaryRule op s t ty) :
    ty = Typed.operationType op s t := by
  have number {ty : Ty} (h : ty.isInteger) := isArithmetic_of_isInteger h
  obtain ⟨notLogical, notComparison⟩ := not_isLogical arithmetic
  have acting := Track.acting_of_rule notLogical rule
  cases acting with
  | numbers _ =>
    rw [notComparison, Eval.commonType, notComparison, Track.not_isDynamic_of_isArithmetic (number left),
      Track.not_isDynamic_of_isArithmetic (number right)]
    rfl
  | offset _ pointer _ | difference _ pointer _ =>
    rw [Track.not_isInteger_of_isPointer pointer] at left
    cases left
  | offsetLeft _ _ pointer =>
    rw [Track.not_isInteger_of_isPointer pointer] at right
    cases right

/-- All that arithmetic can do with a pointer and an integer is to move the pointer. -/
theorem moves_of_pointer (left : s.isPointer) (right : t.isInteger) (rule : BinaryRule op s t ty) :
    (op = .add ∨ op = .sub) ∧ ty = s := by
  obtain ⟨notLogical, notComparison⟩ := not_isLogical arithmetic
  have number (h : s.isArithmetic ∨ s.isDynamic) : False := by
    rw [Track.not_isPointer_of_number h] at left
    cases left
  cases rule with
  | logical isLogical => rw [isLogical] at notLogical; cases notLogical
  | compared isComparison => rw [isComparison] at notComparison; cases notComparison
  | dynamic _ _ h => exact (number h).elim
  | common _ _ _ h | shifted _ h => exact (number (.inl h)).elim
  | offset moves => exact ⟨moves, rfl⟩
  | offsetLeft _ h => exact (number (.inl (isArithmetic_of_isInteger h))).elim
  | difference _ _ h =>
    rw [Track.not_isInteger_of_isPointer h] at right
    cases right

/-- An assignment of a binary operation on the object is a compound assignment that evaluates the place twice. -/
theorem assign_binary (known : kindOf? s = some kind) (left : s.isInteger ∨ s.isPointer) (right : t.isInteger)
    (rule : BinaryRule op s t k.ty) (span span' : Span) :
    assign T none s k.ty span p (binary T op s t k (p ++ .code [.load kind]) y) =
      p ++ (p ++ updating T op kind s t span' y) := by
  unfold assign
  rw [notRecord_of_plain left, known, if_neg Bool.false_ne_true]
  dsimp only
  rw [Piece.append_assoc]
  congr 1
  rcases left with left | left
  · exact binary_numbers arithmetic left right (type_of_integers arithmetic left right rule) (hasKind_of_binaryRule rule) span'
  · obtain ⟨moves, type⟩ := moves_of_pointer arithmetic left right rule
    exact binary_offset arithmetic moves left right type span'

end

/-- An operator and an object of integer or pointer type, and an integer that the operator combines with it. -/
structure Combines (op : BinaryOp) (x y : Expr) (kind : Scalar) : Prop where
  object : x.isLvalue
  number : x.ty.isInteger ∨ x.ty.isPointer
  known : kindOf? x.ty = some kind
  integer : y.ty.isInteger
  arithmetic : op.isArithmetic

section

variable {y x' x'' y' : Expr} {i j k : Info}

theorem combines_of_accepted (accepted : (Expr.assign i (some op) x y).Accepted a) (number : x.ty.isInteger ∨ x.ty.isPointer)
    (integer : y.ty.isInteger) : ∃ kind, Combines op x y kind := by
  obtain ⟨arithmetic, ⟨d, -, -, run⟩, -, -⟩ := accepted
  obtain ⟨kind, known⟩ := Option.isSome_iff_exists.mp (hasKind_of_plain number)
  have object := (assignType_accepts (notDependent_of_plain number) run).1
  exact ⟨kind, object, number, known, integer, arithmetic op rfl⟩

theorem ty_of_unplaced (same : x.unplaced = y.unplaced) : x.ty = y.ty := by
  rw [← x.ty_unplaced, same, y.ty_unplaced]

theorem rvalue_assign_unplaced (o : Option BinaryOp) : rvalue a (Expr.assign i o x y).unplaced =
    assign a.types o x.ty y.ty .none (lvalue a x.unplaced) (rvalue a y.unplaced) := by
  show assign a.types o x.unplaced.ty y.unplaced.ty .none (lvalue a x.unplaced) (rvalue a y.unplaced) = _
  rw [x.ty_unplaced, y.ty_unplaced]

theorem rvalue_compound (combines : Combines op x y kind) : rvalue a (Expr.assign i (some op) x y).unplaced =
    lvalue a x.unplaced ++ (.code [.dup] ++ updating a.types op kind x.ty y.ty .none (rvalue a y.unplaced)) := by
  rw [rvalue_assign_unplaced, assign, notRecord_of_plain combines.number, combines.known, if_neg Bool.false_ne_true]
  dsimp only
  rw [compound_eq, decay_of_plain (.inl combines.integer)]

theorem rvalue_full (combines : Combines op x y kind) (accepted : (Expr.assign j none x' (.binary k op x'' y')).Accepted a)
    (hx : x'.unplaced = x.unplaced) (hx' : x''.unplaced = x.unplaced) (hy : y'.unplaced = y.unplaced) :
    rvalue a (Expr.assign j none x' (.binary k op x'' y')).unplaced =
      lvalue a x.unplaced ++ (lvalue a x.unplaced ++ updating a.types op kind x.ty y.ty .none (rvalue a y.unplaced)) := by
  obtain ⟨-, -, -, ⟨d, -, -, run⟩, ax, ay⟩ := accepted
  have rule : BinaryRule op x.ty y.ty k.ty := by
    have known : x''.ty.isDependent = false := ty_of_unplaced hx' ▸ notDependent_of_plain combines.number
    have known' : y'.ty.isDependent = false := ty_of_unplaced hy ▸ notDependent_of_plain (.inl combines.integer)
    have rule := binaryType_accepts known known' ax.null ay.null run
    rwa [ty_of_unplaced hx', ty_of_unplaced hy, decay_of_plain combines.number, decay_of_plain (.inl combines.integer)] at rule
  have object : rvalue a x.unplaced = lvalue a x.unplaced ++ .code [.load kind] := by
    refine rvalue_object (x.isLvalue_unplaced.trans combines.object) ?_ ?_
    · rw [x.ty_unplaced, combines.known]
    · rw [x.ty_unplaced, notAggregate_of_plain combines.number]
  have combined : rvalue a (Expr.binary k op x'' y').unplaced =
      binary a.types op x.ty y.ty k.unplaced (lvalue a x.unplaced ++ .code [.load kind]) (rvalue a y.unplaced) := by
    show binary a.types op x''.unplaced.ty y'.unplaced.ty k.unplaced (rvalue a x''.unplaced) (rvalue a y'.unplaced) = _
    rw [hx', hy, x.ty_unplaced, y.ty_unplaced, object]
  rw [rvalue_assign_unplaced, hx, ty_of_unplaced hx, combined, show (Expr.binary k op x'' y').ty = k.unplaced.ty from rfl]
  exact assign_binary (k := k.unplaced) combines.arithmetic combines.known combines.number combines.integer rule .none .none

end

end Lowering

/-! ## Abbreviations -/

/-- One tree abbreviates the other; both act on the object that `x` denotes. If `delayed`, the first one is worth what the
object held before. -/
inductive Typed.Expr.ShortFor (x : Expr) : Bool → Expr → Expr → Prop
  | compound {op : BinaryOp} {i j k : Info} {x' x'' y y' : Expr} (target : x'.unplaced = x.unplaced)
      (operand : x''.unplaced = x.unplaced) (value : y'.unplaced = y.unplaced) (integer : y.ty.isInteger) :
      ShortFor x false (.assign i (some op) x y) (.assign j none x' (.binary k op x'' y'))
  | before (up : Bool) {i j k : Info} {x' : Expr} (target : x'.unplaced = x.unplaced) :
      ShortFor x false (.unary i (if up then .preInc else .preDec) x) (.assign j (some (Eval.stepOp up)) x' (.int k 1 .none))
  | after (up : Bool) {i j k : Info} {x' : Expr} (target : x'.unplaced = x.unplaced) :
      ShortFor x true (.unary i (if up then .postInc else .postDec) x) (.assign j (some (Eval.stepOp up)) x' (.int k 1 .none))

theorem Typed.Expr.ShortFor.accepted {a : Analysis} {x t t' : Expr} {delayed : Bool} (short : x.ShortFor delayed t t')
    (accepted : t.Accepted a) : x.Accepted a := by
  cases short with
  | compound => exact accepted.2.2.1
  | before | after => exact accepted.2

/-- Two runs on the memory of `m` come to the same error, or they leave the same memory and the same value. If `delayed`, the
first one leaves instead the value that was read at `place`. -/
inductive Ending.Agrees {η : Type} (m : Machine) (ty : Ty) (place : Except MachineError Value) :
    Bool → Ending η → Ending η → Prop
  | limit {delayed : Bool} {o o' : Ending η} (limit : o = .limit ∨ o' = .limit) : Agrees m ty place delayed o o'
  | failed {delayed : Bool} (e : MachineError) (globals stack : Array Value) :
      Agrees m ty place delayed (.error e globals stack) (.error e globals stack)
  | same (o : Ending η) : Agrees m ty place false o o
  | delayed {p old : Value} (new : Value) (m' : Machine) (h : η) (found : place = .ok p) (read : Eval.content ty p m = .ok old m) :
      Agrees m ty place true (.ended ({ m' with operands := old :: m.operands }.running [] 0) h)
        (.ended ({ m' with operands := new :: m.operands }.running [] 0) h)

theorem Ending.Agrees.of_error {η : Type} {m : Machine} {ty : Ty} {place : Except MachineError Value} {delayed : Bool}
    {o o' : Ending η} (e : MachineError) (w : World η) (left : o = .limit ∨ o = .of (.error e w))
    (right : o' = .limit ∨ o' = .of (.error e w)) : o.Agrees m ty place delayed o' := by
  rcases left with limit | rfl
  · exact .limit (.inl limit)
  rcases right with limit | rfl
  · exact .limit (.inr limit)
  unfold Ending.of
  dsimp only
  split
  · exact .limit (.inl rfl)
  · exact .failed e _ _

section

variable {η : Type} {P : FramePlace} {host : Option (Host η)} {c : CodeModule} {a : Analysis} {linked m : Machine} {h : η}
  {strings : Array UInt64} {f f' g g' : CodeFunction} {s d : Segment} {x y : Expr} {place : Except MachineError Value}
  (link : LinkedModule c linked strings) (found : linked.functions.get? f.name = some f')
  (found' : linked.functions.get? g.name = some g') (free : SideEffectFree P host c a linked m h x place)
include link found found' free

/-- The rest of both runs is the same. -/
theorem agrees_compound {op : BinaryOp} {kind : Scalar}
    (short : c.Contains (lvalue a x.unplaced ++ (.code [.dup] ++
      updating a.types op kind x.ty y.ty .none (rvalue a y.unplaced))) f s)
    (full : c.Contains (lvalue a x.unplaced ++ (lvalue a x.unplaced ++
      updating a.types op kind x.ty y.ty .none (rvalue a y.unplaced))) g d) :
    (P.outcome host f' s m h).Agrees m x.ty place false (P.outcome host g' d m h) := by
  have keeps : (updating a.types op kind x.ty y.ty .none (rvalue a y.unplaced)).Keeps :=
    Track.keeps_updating (keeps_rvalue _) op kind x.ty y.ty .none
  have rest : (updating a.types op kind x.ty y.ty .none (rvalue a y.unplaced)).Composed fun _ => True :=
    composed_updating op kind x.ty y.ty .none (composed_rvalue y.unplaced.within_true)
  have left : P.ComesDownTo host c f f' s m h [] _ := .start short
  have right : P.ComesDownTo host c g g' d m h [] _ := .start full
  cases place with
  | error e =>
    exact .of_error e ⟨m, h⟩ (left.place_fails link found ((Piece.Keeps.code _).append keeps) free)
      (right.place_fails link found' ((keeps_lvalue _).append keeps) free)
  | ok p =>
    have copied : (P.track host h linked strings f' s).Turns [.dup] [p] [p, p] := .single (Track.acts_dup p) rfl
    have left := (left.place link found ((Piece.Keeps.code _).append keeps) free).turns link found keeps copied
    have right := (right.place link found' ((keeps_lvalue _).append keeps) free).place link found' keeps free
    rcases left.same link found found' (.of_composed rest) right with limit | limit | same
    · exact .limit (.inl limit)
    · exact .limit (.inr limit)
    · rw [same]
      exact .same _

/-- One run takes a step, and the other one stores what it computes. -/
theorem agrees_step {kind : Scalar} (number : x.ty.isInteger ∨ x.ty.isPointer) (known : kindOf? x.ty = some kind) (up post : Bool)
    (short : c.Contains (lvalue a x.unplaced ++ .code [.incDec kind (Eval.stepOf a.types x.ty up) post]) f s)
    (full : c.Contains (lvalue a x.unplaced ++ (.code [.dup] ++
      updating a.types (Eval.stepOp up) kind x.ty .signedInt .none (.code [.pushInt 1]))) g d) :
    (P.outcome host f' s m h).Agrees m x.ty place post (P.outcome host g' d m h) := by
  have keeps : (updating a.types (Eval.stepOp up) kind x.ty .signedInt .none (.code [.pushInt 1])).Keeps :=
    Track.keeps_updating (.code _) _ _ _ _ _
  have left : P.ComesDownTo host c f f' s m h [] _ := .start short
  have right : P.ComesDownTo host c g g' d m h [] _ := .start full
  cases place with
  | error e =>
    exact .of_error e ⟨m, h⟩ (left.place_fails link found (.code _) free)
      (right.place_fails link found' ((Piece.Keeps.code _).append keeps) free)
  | ok p =>
    have copied : (P.track host h linked strings g' d).Turns [.dup] [p] [p, p] := .single (Track.acts_dup p) rfl
    have left := left.place link found (.code _) free
    have right := (right.place link found' ((Piece.Keeps.code _).append keeps) free).turns link found' keeps copied
    rcases left.computes link found (Track.runs_incDec kind _ post p) with limit | left
    · exact .limit (.inl limit)
    rcases right.computes link found' (Track.runs_step number known up .none p) with limit | right
    · exact .limit (.inr limit)
    rcases Eval.step_cases kind (Eval.stepOf a.types x.ty up) p m with ⟨e, m', fails⟩ | ⟨old, new, m', read, steps⟩
    · rw [fails post] at left
      rw [fails false] at right
      exact .of_error _ _ (.inr left) (.inr right)
    · rw [steps post] at left
      rw [steps false] at right
      rw [left, right]
      cases post with
      | false => exact .same _
      | true =>
        refine .delayed new m' h rfl ?_
        unfold Eval.content
        rw [notAggregate_of_plain number, if_neg Bool.false_ne_true, show x.ty.decay.scalar? = some kind from known]
        exact read

end

theorem contains_of_includes {c : CodeModule} {a : Analysis} {t : Expr} {f : CodeFunction} {s : Segment}
    (h : c.Includes a t f s) : c.Contains (rvalue a t.unplaced) f s :=
  CodeModule.Contains.sameCode ⟨h.function, h.code⟩ (sameCode_rvalue t)

theorem rvalue_before {a : Analysis} {x : Expr} {i : Info} (up : Bool) :
    rvalue a (Expr.unary i (if up then .preInc else .preDec) x).unplaced =
      increment a.types x.unplaced.ty up false .none (lvalue a x.unplaced) := by
  cases up <;> rfl

theorem rvalue_after {a : Analysis} {x : Expr} {i : Info} (up : Bool) :
    rvalue a (Expr.unary i (if up then .postInc else .postDec) x).unplaced =
      increment a.types x.unplaced.ty up true .none (lvalue a x.unplaced) := by
  cases up <;> rfl

theorem increment_unplaced {a : Analysis} {x : Expr} {kind : Scalar} (known : kindOf? x.ty = some kind) (up post : Bool) :
    increment a.types x.unplaced.ty up post .none (lvalue a x.unplaced) =
      lvalue a x.unplaced ++ .code [.incDec kind (Eval.stepOf a.types x.ty up) post] := by
  unfold increment Eval.stepOf
  rw [x.ty_unplaced, known, Track.pointeeStride_eq]
  rfl

theorem rvalue_one {a : Analysis} {x x' : Expr} {j k : Info} {kind : Scalar} {up : Bool} (target : x'.unplaced = x.unplaced)
    (accepted : (Expr.assign j (some (Eval.stepOp up)) x' (.int k 1 .none)).Accepted a) (number : x.ty.isInteger ∨ x.ty.isPointer)
    (known : kindOf? x.ty = some kind) :
    rvalue a (Expr.assign j (some (Eval.stepOp up)) x' (.int k 1 .none)).unplaced =
      lvalue a x.unplaced ++ (.code [.dup] ++
        updating a.types (Eval.stepOp up) kind x.ty .signedInt .none (.code [.pushInt 1])) := by
  have type : x'.ty = x.ty := ty_of_unplaced target
  have literal : k.ty = .signedInt := accepted.2.2.2.2
  have integer : (Expr.int k 1 .none).ty.isInteger := by
    show k.ty.isInteger
    rw [literal]
    rfl
  obtain ⟨kind', combines⟩ := combines_of_accepted accepted (type.symm ▸ number) integer
  have same : kind' = kind := Option.some.inj (combines.known.symm.trans (type.symm ▸ known))
  subst same
  have pushed : rvalue a (Expr.int k 1 .none).unplaced = .code [.pushInt 1] := by
    show Piece.code [.pushInt (((kindOf? k.ty).getD .i64).wrap (Int64.ofNat 1))] = _
    rw [literal]
    rfl
  rw [rvalue_compound combines, target, type, pushed, show (Expr.int k 1 .none).ty = Ty.signedInt from literal]

/-- A compound assignment means what it abbreviates, and so does an increment. Both trees are accepted, and their code
stands somewhere in a module that is linked. On any machine, if evaluating the place of `x` has no side effects there, the
two runs come to the same error or to the same memory and the same value; a postfix operator is worth the old value
instead. One of the two may run out of instructions before. -/
theorem abbreviation_agrees {a : Analysis} {c : CodeModule} {x t t' : Expr} {delayed : Bool} {f g : CodeFunction} {s d : Segment}
    {m₀ linked : Machine} {names : List String} (distinct : (c.functions.toList.map (·.name)).Nodup)
    (link : Machine.link c m₀ = .ok names linked) (number : x.ty.isInteger ∨ x.ty.isPointer) (short : x.ShortFor delayed t t')
    (accepted : t.Accepted a) (accepted' : t'.Accepted a) (lowered : c.Includes a t f s) (lowered' : c.Includes a t' g d) :
    ∃ f' g', linked.functions.get? f.name = some f' ∧ linked.functions.get? g.name = some g' ∧
      ∀ (η : Type) (P : FramePlace) (host : Option (Host η)) (m : Machine) (h : η) (place : Except MachineError Value),
        SideEffectFree P host c a linked m h x place →
          (P.outcome host f' s m h).Agrees m x.ty place delayed (P.outcome host g' d m h) := by
  obtain ⟨strings, literals, finds⟩ := Machine.link_code link distinct
  have link : LinkedModule c linked strings := ⟨literals, finds⟩
  obtain ⟨code, -, found⟩ := finds f lowered.function
  obtain ⟨code', -, found'⟩ := finds g lowered'.function
  refine ⟨_, _, found, found', fun η P host m h place free => ?_⟩
  have left := contains_of_includes lowered
  have right := contains_of_includes lowered'
  cases short with
  | compound target operand value integer =>
    obtain ⟨kind, combines⟩ := combines_of_accepted accepted number integer
    rw [rvalue_compound combines] at left
    rw [rvalue_full combines accepted' target operand value] at right
    exact agrees_compound link found found' free left right
  | before up target =>
    obtain ⟨kind, known⟩ := Option.isSome_iff_exists.mp (hasKind_of_plain number)
    rw [rvalue_before, increment_unplaced known] at left
    rw [rvalue_one target accepted' number known] at right
    exact agrees_step link found found' free number known up false left right
  | after up target =>
    obtain ⟨kind, known⟩ := Option.isSome_iff_exists.mp (hasKind_of_plain number)
    rw [rvalue_after, increment_unplaced known] at left
    rw [rvalue_one target accepted' number known] at right
    exact agrees_step link found found' free number known up true left right

/-- The value on top. -/
def Ending.value? {η : Type} : Ending η → Option Value
  | .ended m _ => m.operands.head?
  | _ => none

def Ending.isLimit {η : Type} : Ending η → Bool
  | .limit => true
  | _ => false

theorem Ending.eq_limit {η : Type} {o : Ending η} (h : o.isLimit) : o = .limit := by
  cases o with
  | limit => rfl
  | _ => cases h

/-! ## A pair of expressions -/

/-- Two expressions behind the declarations of a unit, and the code of both of them, one behind the other. -/
structure CodePair where
  analysis : Analysis
  left : Expr
  right : Expr
  start : CodeModule
  code : List Instr
  middle : Nat
  names : List String
  linked : Machine

namespace CodePair

def module (p : CodePair) : CodeModule := p.start.withCode p.code

def function (p : CodePair) : CodeFunction := ⟨"f", [], none, 0, (p.code ++ [Instr.returnVoid]).toArray⟩

def of (text : String) (e e' : Syntax.Expr) : Option CodePair := do
  let u ← Syntax.groupOf? text
  let unit ← (({} : Analysis).analyze u).1.toOption
  let left ← some ((Analyze.expr e).run (({} : Analysis).analyze u).2)
  let right ← some ((Analyze.expr e').run left.2)
  let c ← (lower right.2 unit {}).toOption
  let first ← (rvalue right.2 left.1 0 c).toOption
  let second ← (rvalue right.2 right.1 first.1.length first.2).toOption
  let linked ← given? (Machine.link (second.2.withCode (first.1 ++ second.1)) {})
  return ⟨right.2, left.1, right.1, second.2, first.1 ++ second.1, first.1.length, linked.1, linked.2⟩

/-- What the name of an object stands for. -/
def object? : Expr → Option (Ty × String × Binding)
  | .ident i name binding => some (i.ty, name, binding)
  | _ => none

/-- The expression names an object of integer type, and the pair was analysed without errors. -/
def isAbout (p : CodePair) (x : Expr) : Bool :=
  (object? x).isSome && x.ty.isInteger && x.each (Expr.isIntegral p.analysis.types) && x.each Expr.isReading && x.isLvalue &&
    x.filled && p.analysis.errors.isEmpty && decide (p.module.functions.toList.map (·.name)).Nodup

theorem unplaced_of_object? {x y : Expr} (isObject : (object? x).isSome) (same : object? y = object? x) :
    y.unplaced = x.unplaced := by
  cases x with
  | ident i name binding =>
    cases y with
    | ident i' name' binding' =>
      obtain ⟨ty, rest⟩ := Prod.mk.inj (Option.some.inj same)
      obtain ⟨rfl, rfl⟩ := Prod.mk.inj rest
      show Expr.ident ⟨.none, i'.ty⟩ name' binding' = Expr.ident ⟨.none, i.ty⟩ name' binding'
      rw [ty]
    | _ => cases same
  | _ => cases isObject

theorem isAbout_object {p : CodePair} {x : Expr} (about : p.isAbout x) : (object? x).isSome ∧ x.ty.isInteger := by
  simp only [isAbout, Bool.and_eq_true] at about
  obtain ⟨⟨⟨⟨⟨⟨facts, -⟩, -⟩, -⟩, -⟩, -⟩, -⟩ := about
  exact facts

/-- The name `x` where the pair is `x += x` and `x = x + x`. -/
def doubled? (p : CodePair) : Option Expr :=
  match p.left, p.right with
  | .assign _ (some .add) x y, .assign _ none x' (.binary _ .add x'' y') =>
    if [y, x', x'', y'].all (object? · = object? x) then some x else none
  | _, _ => none

/-- The name `x` where the pair is `++x` and `x += 1`. -/
def stepped? (p : CodePair) : Option Expr :=
  match p.left, p.right with
  | .unary _ .preInc x, .assign _ (some .add) x' (.int _ 1 .none) => if object? x' = object? x then some x else none
  | _, _ => none

theorem shortFor_of_doubled? {p : CodePair} {x : Expr} (double : p.doubled? = some x) (about : p.isAbout x) :
    x.ShortFor false p.left p.right := by
  obtain ⟨object, integer⟩ := isAbout_object about
  unfold doubled? at double
  split at double
  · rename_i left right
    obtain ⟨same, ⟨⟩⟩ := Option.ite_none_right_eq_some.mp double
    simp only [List.all_cons, List.all_nil, Bool.and_true, Bool.and_eq_true, decide_eq_true_eq] at same
    obtain ⟨hy, hx', hx'', hy'⟩ := same
    have unplaced {y : Expr} (h : object? y = object? _) := unplaced_of_object? object h
    rw [left, right]
    exact .compound (unplaced hx') (unplaced hx'') ((unplaced hy').trans (unplaced hy).symm)
      (by rwa [ty_of_unplaced (unplaced hy)])
  · cases double

theorem shortFor_of_stepped? {p : CodePair} {x : Expr} (step : p.stepped? = some x) (about : p.isAbout x) :
    x.ShortFor false p.left p.right := by
  unfold stepped? at step
  split at step
  · rename_i left right
    obtain ⟨same, ⟨⟩⟩ := Option.ite_none_right_eq_some.mp step
    rw [left, right]
    exact .before true (unplaced_of_object? (isAbout_object about).1 same)
  · cases step

structure Lowers (p : CodePair) : Prop where
  left : p.left.Accepted p.analysis
  right : p.right.Accepted p.analysis
  noFallback : p.analysis.fallback = none
  distinct : (p.module.functions.toList.map (·.name)).Nodup
  includes : p.module.Includes p.analysis p.left p.function ⟨0, p.middle⟩
  includes' : p.module.Includes p.analysis p.right p.function ⟨p.middle, p.code.length⟩
  link : Machine.link p.module {} = .ok p.names p.linked

variable {p : CodePair} {x : Expr}

theorem of_lowers {text : String} {e e' : Syntax.Expr} (made : of text e e' = some p) (written : e.Written)
    (written' : e'.Written) (about : p.isAbout x) : p.Lowers := by
  simp only [isAbout, Bool.and_eq_true, decide_eq_true_eq] at about
  obtain ⟨⟨-, correct⟩, distinct⟩ := about
  have correct : p.analysis.errors = #[] := Array.isEmpty_iff.mp correct
  unfold of at made
  simp only [Option.bind_eq_bind, Option.bind_eq_some_iff] at made
  obtain ⟨u, read, unit, accepted, ⟨t, a₁⟩, left, ⟨t', a₂⟩, right, made⟩ := made
  obtain ⟨c, lowered, ⟨is, c₁⟩, first, ⟨is', c₂⟩, second, ⟨names, m⟩, linked, same⟩ := made
  cases same
  have accepted := Syntax.toOption_eq_some accepted
  have left := Option.some.inj left
  have right := Option.some.inj right
  have first := Syntax.toOption_eq_some first
  have second := Syntax.toOption_eq_some second
  have keeps : c₁.KeepsStrings c₂ := keeps_rvalue t' _ _ _ _ second
  have sound := (Analysis.Reached.start.accepted (Syntax.groupOf?_written read) accepted).sound
  have fallback : (({} : Analysis).analyze u).2.fallback = none :=
    (Analyze.Changes.extends (analyze_changes {} u)).fallback
  have analyzed := MeetsAt.expr (P := True) (a := (({} : Analysis).analyze u).2) written
  have grows := analyzed.grows
  have meets := analyzed.meets trivial sound
  have grows' := (MeetsAt.expr (P := True) (a := a₁) written').grows
  rw [left] at meets grows
  rw [right] at grows'
  obtain ⟨sound', accepted⟩ := meets (grows'.errors correct)
  have shown : Shows Eq (is ++ is' ++ [Instr.returnVoid]).toArray 0 (is ++ is') := (shows_self _).left
  have behind := shown.right
  rw [Nat.zero_add] at behind
  exact {
    left := accepted.mono grows'
    right := Analyze.accepted_expr sound' written' right correct (.refl _)
    noFallback := (grows'.fallback.trans grows.fallback).trans fallback
    distinct
    includes := ⟨Array.mem_push_self, c, is, c₁, first, keeps, (Nat.zero_add _).symm, shown.left⟩
    includes' := ⟨Array.mem_push_self, c₁, is', c₂, second, fun _ _ known => known, List.length_append, behind⟩
    link := given?_eq_some linked }

/-- An idle machine on which the object is only read. -/
theorem Lowers.free (lowers : p.Lowers) (about : p.isAbout x) (accepted : x.Accepted p.analysis) (m : Machine) :
    ∃ place, SideEffectFree ⟨[], 0, 0⟩ (none : Option (Host Unit)) p.module p.analysis p.linked m () x place := by
  simp only [isAbout, Bool.and_eq_true] at about
  obtain ⟨⟨⟨⟨⟨⟨-, integral⟩, reading⟩, isLvalue⟩, filled⟩, -⟩, -⟩ := about
  obtain ⟨strings, literals, finds⟩ := Machine.link_code lowers.link lowers.distinct
  exact sideEffectFree_of_reading ⟨literals, finds⟩ accepted lowers.noFallback integral filled isLvalue reading

end CodePair

theorem written_x : (Syntax.Expr.ident ⟨0, 0, 0, 1, 1⟩ "x").Written :=
  ⟨⟨'x', [], rfl, by decide, by decide⟩, by decide⟩

/-- `x += x` -/
def doubled : Syntax.Expr :=
  let here : Span := ⟨0, 0, 0, 1, 1⟩
  .assign here (some .add) (.ident here "x") (.ident here "x")

/-- `x = x + x` -/
def doubledInFull : Syntax.Expr :=
  let here : Span := ⟨0, 0, 0, 1, 1⟩
  .assign here none (.ident here "x") (.binary here .add (.ident here "x") (.ident here "x"))

theorem doubled_written : doubled.Written := by
  refine ⟨fun o same => ?_, written_x, written_x⟩
  cases same
  rfl

theorem doubledInFull_written : doubledInFull.Written := by
  refine ⟨fun o same => ?_, written_x, written_x, written_x⟩
  cases same

theorem doubled_abbreviates : ∃ (p : CodePair) (x : Expr) (f : CodeFunction) (place : Except MachineError Value),
    CodePair.of "int x = 5;" doubled doubledInFull = some p ∧ x.ShortFor false p.left p.right ∧
    p.linked.functions.get? "f" = some f ∧
    let P : FramePlace := ⟨[], 0, 0⟩
    let short := P.outcome (none : Option (Host Unit)) f ⟨0, p.middle⟩ p.linked ()
    let long := P.outcome (none : Option (Host Unit)) f ⟨p.middle, p.code.length⟩ p.linked ()
    SideEffectFree P (none : Option (Host Unit)) p.module p.analysis p.linked p.linked () x place ∧
    short.Agrees p.linked x.ty place false long ∧ short.value? = some (.int 10) ∧ long.value? = some (.int 10) := by
  have outcome : (do
      let p ← CodePair.of "int x = 5;" doubled doubledInFull
      let f ← p.linked.functions.get? "f"
      let x ← p.doubled?
      let P : FramePlace := ⟨[], 0, 0⟩
      let short := P.outcome (none : Option (Host Unit)) f ⟨0, p.middle⟩ p.linked ()
      let long := P.outcome (none : Option (Host Unit)) f ⟨p.middle, p.code.length⟩ p.linked ()
      return p.isAbout x && short.value? = some (.int 10) && long.value? = some (.int 10) : Option _) = some true := by
    decide +kernel
  simp only [Option.bind_eq_bind, Option.bind_eq_some_iff, Option.pure_def, Option.some.injEq, Bool.and_eq_true,
    decide_eq_true_eq] at outcome
  obtain ⟨p, made, f, found, x, double, ⟨about, short⟩, long⟩ := outcome
  have lowers := CodePair.of_lowers made doubled_written doubledInFull_written about
  have shortFor := CodePair.shortFor_of_doubled? double about
  obtain ⟨-, integer⟩ := CodePair.isAbout_object about
  obtain ⟨f', g', found', found'', agrees⟩ := abbreviation_agrees lowers.distinct lowers.link (.inl integer) shortFor
    lowers.left lowers.right lowers.includes lowers.includes'
  cases found.symm.trans found'
  cases found.symm.trans found''
  obtain ⟨place, free⟩ := lowers.free about (shortFor.accepted lowers.left) p.linked
  exact ⟨p, x, f, place, made, shortFor, found, free, agrees Unit _ none _ () place free, short, long⟩

/-- `++x` -/
def stepped : Syntax.Expr :=
  let here : Span := ⟨0, 0, 0, 1, 1⟩
  .unary here .preInc (.ident here "x")

/-- `x += 1` -/
def steppedInFull : Syntax.Expr :=
  let here : Span := ⟨0, 0, 0, 1, 1⟩
  .assign here (some .add) (.ident here "x") (.int here 1 .none)

theorem steppedInFull_written : steppedInFull.Written := by
  refine ⟨fun o same => ?_, written_x, show 1 < UInt64.size by decide⟩
  cases same
  rfl

/-- An increment has fewer instructions than what it stands for, so it may end where these have run out. -/
theorem stepped_outlasts : ∃ (p : CodePair) (x : Expr) (f : CodeFunction) (place : Except MachineError Value),
    CodePair.of "int x = 5;" stepped steppedInFull = some p ∧ p.Lowers ∧ x.ty.isInteger ∧ x.ShortFor false p.left p.right ∧
    p.linked.functions.get? "f" = some f ∧
    let P : FramePlace := ⟨[], 0, 0⟩
    let m := { p.linked with maxInstructions := 2 }
    SideEffectFree P (none : Option (Host Unit)) p.module p.analysis p.linked m () x place ∧
    (P.outcome (none : Option (Host Unit)) f ⟨0, p.middle⟩ m ()).value? = some (.int 6) ∧
    P.outcome (none : Option (Host Unit)) f ⟨p.middle, p.code.length⟩ m () = .limit := by
  have outcome : (do
      let p ← CodePair.of "int x = 5;" stepped steppedInFull
      let f ← p.linked.functions.get? "f"
      let x ← p.stepped?
      let P : FramePlace := ⟨[], 0, 0⟩
      let m := { p.linked with maxInstructions := 2 }
      let short := P.outcome (none : Option (Host Unit)) f ⟨0, p.middle⟩ m ()
      let long := P.outcome (none : Option (Host Unit)) f ⟨p.middle, p.code.length⟩ m ()
      return p.isAbout x && short.value? = some (.int 6) && long.isLimit : Option _) = some true := by
    decide +kernel
  simp only [Option.bind_eq_bind, Option.bind_eq_some_iff, Option.pure_def, Option.some.injEq, Bool.and_eq_true,
    decide_eq_true_eq] at outcome
  obtain ⟨p, made, f, found, x, step, ⟨about, short⟩, long⟩ := outcome
  have lowers := CodePair.of_lowers made written_x steppedInFull_written about
  have shortFor := CodePair.shortFor_of_stepped? step about
  obtain ⟨-, integer⟩ := CodePair.isAbout_object about
  obtain ⟨place, free⟩ := lowers.free about (shortFor.accepted lowers.left) { p.linked with maxInstructions := 2 }
  exact ⟨p, x, f, place, made, lowers, integer, shortFor, found, free, short, Ending.eq_limit long⟩

end IncrementalC
