import IncrementalC.Proofs.Semantics.ConstantValues
import IncrementalC.Proofs.Semantics.OperatorMeaning

/-!
# One step

An increment changes an object by one, at once in its own kind. Adding one to the object in the common type and storing
the sum, as an assignment does, comes to the same at every width (`Eval.step_eq`).
-/
namespace IncrementalC
set_option autoImplicit false
open Lowering Analyze

namespace Scalar

/-- The kinds whose values compute as `int`. -/
def isNarrow : Scalar → Bool
  | .bool | .i8 | .u8 | .i16 | .u16 => true
  | _ => false

theorem range_of_isNarrow {k : Scalar} (narrow : k.isNarrow) (n : Int64) :
    -2 ^ 15 ≤ (k.wrap n).toInt ∧ (k.wrap n).toInt < 2 ^ 16 := by
  cases k with
  | bool => by_cases h : n = 0 <;> simp [wrap, h]
  | i8 =>
    have low := n.toInt8.le_toInt
    have high := n.toInt8.toInt_lt
    rw [wrap, Int8.toInt_toInt64]
    omega
  | i16 =>
    have low := n.toInt16.le_toInt
    have high := n.toInt16.toInt_lt
    rw [wrap, Int16.toInt_toInt64]
    omega
  | u8 =>
    have high := n.toUInt64.toUInt8.toNat_lt
    rw [wrap, toInt_toInt64 (by rw [UInt8.toNat_toUInt64]; omega), UInt8.toNat_toUInt64]
    omega
  | u16 =>
    have high := n.toUInt64.toUInt16.toNat_lt
    rw [wrap, toInt_toInt64 (by rw [UInt16.toNat_toUInt64]; omega), UInt16.toNat_toUInt64]
    omega
  | _ => cases narrow

/-- One step from a value of a narrow kind stays inside `int`. -/
theorem wrap_step_narrow {k : Scalar} (narrow : k.isNarrow) {n d : Int64} (fits : k.wrap n = n) (one : d = 1 ∨ d = -1) :
    wrap .i32 (wrap .i32 n + d) = n + d := by
  obtain ⟨low, high⟩ := range_of_isNarrow narrow n
  rw [fits] at low high
  have step : -1 ≤ d.toInt ∧ d.toInt ≤ 1 := by obtain rfl | rfl := one <;> decide
  have moved : (n + d).toInt = n.toInt + d.toInt := by
    rw [Int64.toInt_add]
    exact Int.bmod_eq_of_le (by omega) (by omega)
  have stays : wrap .i32 n = n := wrap_i32 (by omega) (by omega)
  rw [stays]
  exact wrap_i32 (by omega) (by omega)

/-- A wide kind computes as it is, so it does not matter when a word is brought into its range. -/
theorem wrap_step_wide {k : Scalar} (wide : k.isWide) (n d : Int64) : k.wrap (k.wrap (k.wrap n + d)) = k.wrap (n + d) := by
  rw [wrap_wrap]
  cases k with
  | i32 | i64 | u64 => simp [wrap]
  | u32 =>
    simp only [wrap, Int64.toUInt64_add, UInt64.toUInt32_add, UInt32.toUInt32_toUInt64, UInt64.toUInt64_toInt64]
  | _ => cases wide

theorem wrap_one (k : Scalar) : k.wrap 1 = 1 := by
  cases k <;> rfl

/-- The kind in which one is added to a value of the kind `k`. -/
def StepsIn (k common : Scalar) : Prop := k.isNarrow ∧ common = .i32 ∨ k.isWide ∧ common = k

variable {k common : Scalar}

theorem StepsIn.wide (h : k.StepsIn common) : common.isWide := by
  rcases h with ⟨-, rfl⟩ | ⟨wide, rfl⟩
  · rfl
  · exact wide

theorem StepsIn.isInteger (h : k.StepsIn common) : k.isInteger := by
  rcases h with ⟨narrow, -⟩ | ⟨wide, -⟩
  · cases k <;> first | rfl | cases narrow
  · cases k <;> first | rfl | cases wide

theorem StepsIn.wrap (h : k.StepsIn common) {n d : Int64} (fits : k.wrap n = n) (one : d = 1 ∨ d = -1) :
    k.wrap (common.wrap (common.wrap n + d)) = k.wrap (n + d) := by
  rcases h with ⟨narrow, rfl⟩ | ⟨wide, rfl⟩
  · rw [wrap_step_narrow narrow fits one]
  · exact wrap_step_wide wide n d

end Scalar

namespace Eval

variable {s : Scene} {ty : Ty} {k : Scalar} {old : Value}

theorem stepsIn_of_isInteger (integer : ty.isInteger) (known : kindOf? ty = some k) :
    ∃ common, kindOf? (Ty.common ty .signedInt) = some common ∧ k.StepsIn common := by
  cases ty with
  | bool =>
    cases known
    exact ⟨.i32, rfl, .inl ⟨rfl, rfl⟩⟩
  | enum name =>
    cases known
    exact ⟨.i32, rfl, .inr ⟨rfl, rfl⟩⟩
  | int kind =>
    obtain ⟨rank, signed⟩ := kind
    cases rank with
    | char | short =>
      cases signed <;> cases known <;> exact ⟨.i32, rfl, .inl ⟨rfl, rfl⟩⟩
    | int | long | longLong =>
      cases signed <;> cases known <;> exact ⟨_, rfl, .inr ⟨rfl, rfl⟩⟩
  | _ => cases integer

/-- The amount by which `up` changes a value of the type. -/
def stepOf (types : TypeTable) (ty : Ty) (up : Bool) : Int64 :=
  let unit := if ty.isPointer then pointeeDistance types ty else 1
  if up then unit else -unit

/-- Machine integers of two kinds. -/
theorem converted_int {source target : Ty} {k k' : Scalar} (known : kindOf? source = some k) (known' : kindOf? target = some k')
    (integer : k'.isInteger) (n : Int64) : converted source target (.int n) = .int (k'.wrap n) := by
  unfold converted
  rw [show source.decay.scalar? = some k from known, show target.decay.scalar? = some k' from known']
  dsimp only
  rw [Value.convert_eq (Scalar.isFloat_of_isInteger integer), Value.coerce_int integer]

/-- The operator of a step. -/
def stepOp (up : Bool) : BinaryOp := if up then .add else .sub

theorem binary_step {common : Scalar} (wide : common.isWide) (n : Int64) (up : Bool) :
    ∃ code, machineOp? (stepOp up) = some code ∧
      Operation.binary code common (.int n) (.int 1) = .ok (.int (common.wrap (n + if up then 1 else -1))) := by
  cases up with
  | true =>
    have words : Typed.foldWords .add common.isUnsigned n 1 = some (.int (n + 1)) := rfl
    obtain ⟨comparison, -⟩ | ⟨-, r, same, result⟩ := binary_of_foldWords wide rfl words
    · cases comparison
    · cases same
      exact ⟨.add, rfl, result⟩
  | false =>
    have words : Typed.foldWords .sub common.isUnsigned n 1 = some (.int (n - 1)) := rfl
    obtain ⟨comparison, -⟩ | ⟨-, r, same, result⟩ := binary_of_foldWords wide rfl words
    · cases comparison
    · cases same
      rw [Int64.sub_eq_add_neg] at result
      exact ⟨.sub, rfl, result⟩

/-- Adding one to an integer, in the type in which that is done, and converting the sum back is an increment. -/
theorem update_integer (integer : ty.isInteger) (known : kindOf? ty = some k) (own : old.IsOf k) (up : Bool) :
    ∃ v, update s (stepOp up) ty .signedInt old (.int 1) = pure v ∧
      v.coerce k = Operation.increment k old (stepOf s.types ty up) := by
  obtain ⟨common, knownCommon, steps⟩ := stepsIn_of_isInteger integer known
  obtain ⟨n, rfl, fits⟩ := own.int steps.isInteger
  have notPointer : ty.isPointer = false := Track.not_isPointer_of_number (.inl (isArithmetic_of_isInteger integer))
  have wide := steps.wide
  have integer' : common.isInteger := by cases common <;> first | rfl | cases wide
  have one : (if up then 1 else -1 : Int64) = 1 ∨ (if up then 1 else -1 : Int64) = -1 := by cases up <;> simp
  have type : Typed.operationType (stepOp up) ty .signedInt = Ty.common ty .signedInt := by cases up <;> rfl
  have left := converted_int known knownCommon integer' n
  have right : converted .signedInt (Ty.common ty .signedInt) (.int 1) = .int 1 :=
    (converted_int rfl knownCommon integer' 1).trans (congrArg Value.int common.wrap_one)
  obtain ⟨code, found, sum⟩ := binary_step wide (common.wrap n) up
  have back := converted_int knownCommon known steps.isInteger (common.wrap (common.wrap n + if up then 1 else -1))
  rw [steps.wrap fits one] at back
  have incremented : Operation.increment k (.int n) (stepOf s.types ty up) = .int (k.wrap (n + if up then 1 else -1)) := by
    have integer := steps.isInteger
    unfold stepOf
    rw [notPointer]
    cases k <;> first | rfl | cases integer
  refine ⟨.int (k.wrap (n + if up then 1 else -1)), ?_, ?_⟩
  · unfold update
    rw [notPointer, if_neg nofun]
    dsimp only
    rw [type, Track.apply_eq found knownCommon, left, right, sum]
    exact congrArg (fun v => (pure v : Eval Value)) back
  · rw [Value.coerce_int steps.isInteger, Scalar.wrap_wrap, incremented]

/-- Moving a pointer by one is an increment. -/
theorem update_pointer (pointer : ty.isPointer) (known : kindOf? ty = some k) (up : Bool) :
    ∃ v, update s (stepOp up) ty .signedInt old (.int 1) = pure v ∧
      v.coerce k = Operation.increment k old (stepOf s.types ty up) := by
  have kind : k = .ptr := by
    cases ty with
    | pointer _ =>
      cases known
      rfl
    | _ => cases pointer
  subst kind
  refine ⟨moved old (stepOf s.types ty up), ?_, Value.isOf_ptr _⟩
  have one : steps .signedInt (.int 1) = 1 := rfl
  unfold update stepOf
  rw [if_pos pointer, if_pos pointer, one]
  cases up with
  | true =>
    show pure (moved old (1 * _)) = _
    rw [Int64.one_mul]
    rfl
  | false =>
    show pure (moved old (-1 * _)) = _
    rw [Int64.neg_mul, Int64.one_mul]
    rfl

/-- Changes the object at `p` by the amount, and gives its old value or its new one. -/
def step (kind : Scalar) (amount : Int64) (post : Bool) (p : Value) : Eval Value := do
  let old ← load kind p
  let new := Operation.increment kind old amount
  store p new
  return if post then old else new

/-- An object of integer or pointer type. -/
theorem update_step (number : ty.isInteger ∨ ty.isPointer) (known : kindOf? ty = some k) (own : old.IsOf k) (up : Bool) :
    ∃ v, update s (stepOp up) ty .signedInt old (.int 1) = pure v ∧ v.coerce k = Operation.increment k old (stepOf s.types ty up) :=
  number.elim (fun integer => update_integer integer known own up) fun pointer => update_pointer pointer known up

/-- Storing what the operator makes of the old value and one is a step. -/
theorem step_eq (number : ty.isInteger ∨ ty.isPointer) (known : kindOf? ty = some k) (notFloat : k.isFloat = false) (up : Bool)
    (p : Value) : (do
      let old ← load k p
      let v ← pure (Value.int 1)
      let new := (← update s (stepOp up) ty .signedInt old v).coerce k
      store p new
      return new) = step k (stepOf s.types ty up) false p := by
  funext m
  unfold step
  rw [Track.load_bind, Track.load_bind]
  have same (v : Value) : (do
      let u ← update s (stepOp up) ty .signedInt (v.coerce k) (.int 1)
      store p (u.coerce k)
      return u.coerce k) = (do
      store p (Operation.increment k (v.coerce k) (stepOf s.types ty up))
      return Operation.increment k (v.coerce k) (stepOf s.types ty up)) := by
    obtain ⟨u, updated, stepped⟩ := update_step (s := s) number known (Value.isOf_coerce notFloat v) up
    rw [updated, ← stepped]
    rfl
  simp only [pure_bind, same]
  rfl

/-- A step meets a fault, or it changes the object. -/
theorem step_cases (kind : Scalar) (amount : Int64) (p : Value) (m : Machine) :
    (∃ e m', ∀ post, step kind amount post p m = .error (.fault e) m') ∨
    ∃ old new m', load kind p m = .ok old m ∧ ∀ post, step kind amount post p m = .ok (if post then old else new) m' := by
  have stepped (post : Bool) : step kind amount post p m = (ofExcept (m.read p.bits) >>= fun v => do
      store p (Operation.increment kind (v.coerce kind) amount)
      return if post then v.coerce kind else Operation.increment kind (v.coerce kind) amount) m := by
    unfold step
    rw [Track.load_bind]
  have loaded : load kind p m = (ofExcept (m.read p.bits) >>= fun v => pure (v.coerce kind)) m := rfl
  cases read : m.read p.bits with
  | error e =>
    refine .inl ⟨e, m, fun post => ?_⟩
    rw [stepped, read]
    rfl
  | ok v =>
    rw [read] at loaded stepped
    have stored (post : Bool) : step kind amount post p m =
        ((ofExcept (m.write p.bits (Operation.increment kind (v.coerce kind) amount)) >>= set) >>= fun _ =>
          pure (if post then v.coerce kind else Operation.increment kind (v.coerce kind) amount)) m := stepped post
    cases written : m.write p.bits (Operation.increment kind (v.coerce kind) amount) with
    | error e =>
      rw [written] at stored
      exact .inl ⟨e, m, stored⟩
    | ok m' =>
      rw [written] at stored
      exact .inr ⟨_, _, m', loaded, stored⟩

end Eval

namespace Track

variable {η : Type} {σ : Track η} {T : TypeTable} {ty : Ty} {k : Scalar}

theorem operand_one : σ.Operand (.code [.pushInt 1]) .signedInt (pure (.int 1)) := by
  refine ⟨Turns.result (.single (acts_pushInt 1) rfl), .code _, fun m v m' given kind known => ?_⟩
  cases given
  cases known
  exact ⟨rfl, rfl⟩

theorem runs_incDec (kind : Scalar) (amount : Int64) (post : Bool) (p : Value) :
    σ.Runs (.code [.incDec kind amount post]) [p] (Eval.step kind amount post p) fun v => [v] :=
  .single (acts_incDec kind amount post p) rfl

theorem runs_step (number : ty.isInteger ∨ ty.isPointer) (known : kindOf? ty = some k) (up : Bool) (span : Span) (p : Value) :
    σ.Runs (updating T (Eval.stepOp up) k ty .signedInt span (.code [.pushInt 1])) [p, p]
      (Eval.step k (Eval.stepOf T ty up) false p) fun v => [v] := by
  have notFloating : ty.isFloating = false := by
    rcases number with h | h <;> cases ty <;> first | rfl | cases h
  have notFloat : ∀ k, ty.decay.scalar? = some k → k.isFloat = false := fun _ => Ty.isFloat_of_isFloating notFloating
  have common : (Typed.operationType (Eval.stepOp up) ty .signedInt).isFloating = false :=
    Ty.not_isFloating_operationType _ notFloating rfl
  have arithmetic : (Eval.stepOp up).isArithmetic := by cases up <;> rfl
  have same := Eval.step_eq (s := σ.scene T) number known (notFloat k known) up p
  rw [show Eval.stepOf T ty up = Eval.stepOf (σ.scene T).types ty up from rfl, ← same]
  exact runs_updating known operand_one arithmetic notFloat (fun _ => Ty.isFloat_of_isFloating common) span p

end Track

end IncrementalC
