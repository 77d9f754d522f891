import IncrementalC.Proofs.Analysis.Rules
import IncrementalC.Proofs.Semantics.Computes

/-!
# The code of operators

What the code of each operator computes, given what the code of its operands does: the operator of
`Eval`, on the same operands in the same order.
-/
namespace IncrementalC.Track
set_option autoImplicit false
open Lowering Analyze

variable {η : Type} {σ : Track η} {T : TypeTable} {x y : Piece} {X Y : Eval Value} {s t : Ty}

/-- What names and literals refer to in the stretch. -/
def scene (σ : Track η) (T : TypeTable) : Scene := ⟨T, σ.frame.base, σ.linked⟩

/-- The piece leaves the value that the computation gives, and it suits the type. -/
structure Operand (σ : Track η) (p : Piece) (ty : Ty) (X : Eval Value) : Prop where
  runs : σ.Runs p [] X fun v => [v]
  keeps : p.Keeps
  suits : ∀ m v m', X m = .ok v m' → v.Suits ty

/-! ## Objects -/

theorem runs_load (ty : Ty) (span : Span) (p : Value) :
    σ.Runs (load T ty span) [p] (Eval.content ty p) fun v => [v] := by
  unfold load Eval.content
  by_cases aggregate : ty.isAggregate
  · rw [if_pos aggregate, if_pos aggregate]
    exact Turns.nil.last
  · rw [if_neg aggregate, if_neg aggregate]
    refine .needs fun kind found => ?_
    rw [show ty.decay.scalar? = some kind from found]
    exact .single (acts_load kind p) rfl

theorem runs_variableAddress (binding : Typed.Binding) (problem : LoweringProblem) (span : Span) :
    σ.Runs (variableAddress binding problem span) [] (Eval.variableAddress (σ.scene T) binding) fun v => [v] := by
  cases binding with
  | «local» slot => exact Turns.result (.single (acts_localAddr slot) rfl)
  | global name =>
    show σ.Runs (.code [.globalAddr name]) [] (Eval.objectAddress (σ.scene T) name) _
    cases known : σ.linked.objectAddress? name with
    | some p =>
      rw [Eval.objectAddress_linked (s := σ.scene T) known]
      have patched : σ.linked.patch σ.strings (.globalAddr name) = .ok (.pushPtr p) := by
        simp only [Machine.patch, known]
      exact Turns.result (.single (acts_pushPtr p) patched)
    | none =>
      rw [Eval.objectAddress_later (s := σ.scene T) known]
      have patched : σ.linked.patch σ.strings (.globalAddr name) = .ok (.globalAddr name) := by
        simp only [Machine.patch, known]
      exact .single (acts_globalAddr name) patched
  | _ => exact .fail problem span

theorem runs_stringAddress (text : String) :
    σ.Runs (stringAddress text) [] (pure (Eval.literal (σ.scene T) text)) fun v => [v] := by
  refine .gen fun g is g' run knows => ?_
  cases run
  obtain ⟨p, numbered, found⟩ := knows _ text (g.intern_keeps text).2
  have literal : Eval.literal (σ.scene T) text = .ptr p := by
    show Value.ptr ((σ.linked.strings.get? text).getD 0) = _
    rw [found]
    rfl
  have address : Machine.stringAddress σ.strings (g.intern text).2 = .ok p := by
    unfold Machine.stringAddress
    rw [numbered]
  have patched : σ.Patched (.pushStr (g.intern text).2) (.pushPtr p) := by
    show (do return .pushPtr (← Machine.stringAddress σ.strings (g.intern text).2) : Except Fault Instr) = _
    rw [address]
    rfl
  rw [literal]
  exact Turns.result (.single (acts_pushPtr p) patched)

theorem turns_pushInt (v : Int64) (xs : List Value) : σ.Turns [.pushInt v] xs (.int v :: xs) := by
  have pushed : σ.Turns [.pushInt v] [] [.int v] := .single (acts_pushInt v) rfl
  exact pushed.frame xs

theorem runs_fieldOffset (record : Option Ty) (field : String) (span : Span) (p : Value) :
    σ.Runs (fieldOffset T record field span) [p] (Eval.member (σ.scene T) record field p) fun v => [v] := by
  cases record with
  | none => exact .fail _ span
  | some ty =>
    cases ty with
    | record id =>
      refine .needs fun f found => ?_
      have place : Eval.member (σ.scene T) (some (.record id)) field p =
          pure (if 0 < f.slot then Eval.moved p (Int64.ofNat f.slot) else p) :=
        Eval.member_known (s := σ.scene T) found p
      rw [place]
      by_cases moves : 0 < f.slot
      · rw [if_pos moves, if_pos moves]
        have moved : σ.Turns [.ptrAdd 1] [.int (Int64.ofNat f.slot), p]
            [Eval.moved p (Int64.ofNat f.slot * 1)] := .single (acts_ptrAdd 1 _ p) rfl
        rw [Int64.mul_one] at moved
        exact ((turns_pushInt _ [p]).append moved).last
      · rw [if_neg moves, if_neg moves]
        exact Turns.nil.last
    | _ => exact .fail _ span

/-! ## Pointers and integers -/

/-- A pointer, an integer, and the move of the pointer. -/
theorem runs_moved (hx : σ.Operand x s X) (hy : σ.Operand y t Y) (negate : Bool) (stride : Int64) :
    σ.Runs (x ++ y ++ movePointer t negate stride) [] (do
      let p ← X
      let n ← Y
      return Eval.moved p ((if negate then -Eval.steps t n else Eval.steps t n) * stride)) fun v => [v] := by
  rw [Piece.append_assoc]
  refine hx.runs.append (hy.keeps.append (.code _)) fun p _ _ _ => ?_
  refine (hy.runs.frame [p]).append (.code _) fun n _ _ given => ?_
  exact (turns_movePointer (hy.suits _ _ _ given) negate stride).result

theorem runs_element (elem : Ty) (hx : σ.Operand x s X) (hy : σ.Operand y t Y) :
    σ.Runs (elementAddress T elem s t x y) [] (Eval.element (σ.scene T) elem s t X Y) fun v => [v] := by
  unfold elementAddress Eval.element
  by_cases pointer : s.isPointerLike
  · rw [if_pos pointer, if_pos pointer]
    exact runs_moved hx hy false _
  · rw [if_neg pointer, if_neg pointer]
    exact runs_moved hy hx false _

/-! ## Arithmetic -/

theorem apply_eq {op : BinaryOp} {ty : Ty} {code : Code.BinaryOp} {kind : Scalar} (found : machineOp? op = some code)
    (known : ty.decay.scalar? = some kind) (u v : Value) : Eval.apply op ty s t u v =
      Eval.ofExcept (Operation.binary code kind (Eval.converted s ty u) (Eval.converted t ty v)) := by
  unfold Eval.apply
  rw [found, known]

theorem runs_apply {op : BinaryOp} {ty : Ty} {u v : Value} (problem problem' : LoweringProblem) (span : Span) :
    σ.Runs (.gen do
      let kind ← need (kindOf? ty) problem span
      return [.binary (← need (machineOp? op) problem' span) kind])
      [Eval.converted t ty v, Eval.converted s ty u] (Eval.apply op ty s t u v) fun v => [v] := by
  refine .needs fun kind known => .needs fun code found => ?_
  rw [apply_eq found known]
  exact .single (acts_binary code kind _ _) rfl

theorem runs_arithmetic {op : BinaryOp} {ty : Ty} (hx : σ.Operand x s X) (hy : σ.Operand y t Y)
    (problem problem' : LoweringProblem) (span : Span) :
    σ.Runs (x ++ .code (convert s ty) ++ y ++ .code (convert t ty) ++ .gen do
        let kind ← need (kindOf? ty) problem span
        return [.binary (← need (machineOp? op) problem' span) kind]) []
      (do let u ← X
          let v ← Y
          Eval.apply op ty s t u v) fun v => [v] := by
  simp only [Piece.append_assoc]
  have applied : (Piece.gen do
      let kind ← need (kindOf? ty) problem span
      return [.binary (← need (machineOp? op) problem' span) kind]).Keeps :=
    .gen (.bind (.need _ _ _) fun _ => .bind (.need _ _ _) fun _ => .pure _)
  have second := hy.keeps.append ((Piece.Keeps.code (convert t ty)).append applied)
  refine hx.runs.append ((Piece.Keeps.code _).append second) fun u _ _ first => ?_
  refine .turned (turns_convert (hx.suits _ _ _ first)) ?_ second
  refine (hy.runs.frame _).append ((Piece.Keeps.code _).append applied) fun v _ _ next => ?_
  exact .turned ((turns_convert (hy.suits _ _ _ next)).frame _) (runs_apply problem problem' span) applied

/-- The operator moves no pointer and subtracts none. -/
structure ActsOnNumbers (op : BinaryOp) (a b : Ty) : Prop where
  add : op = .add → (a.isPointer && b.isInteger) = false ∧ (a.isInteger && b.isPointer) = false
  sub : op = .sub → (a.isPointer && b.isInteger) = false ∧ (a.isPointer && b.isPointer) = false

namespace ActsOnNumbers

variable {op : BinaryOp} {a b : Ty}

theorem of_notPointer (left : a.isPointer = false) (right : b.isPointer = false) : ActsOnNumbers op a b := by
  constructor <;> intro _ <;> simp [left, right]

theorem of_other (add : op ≠ .add) (sub : op ≠ .sub) : ActsOnNumbers op a b :=
  ⟨fun h => absurd h add, fun h => absurd h sub⟩

theorem operation_eq (h : ActsOnNumbers op a b) (result : Ty) : operation T op a b result =
    .arithmetic (if !op.isComparison then result else if a.isPointer || b.isPointer then .voidPtr
      else Ty.common a b) := by
  unfold operation
  dsimp only
  split
  · rfl
  · cases op with
    | add => simp [h.add rfl]
    | sub => simp [h.sub rfl]
    | _ => rfl

theorem eval_eq (h : ActsOnNumbers op a b) (scene : Scene) : Eval.binary scene op a b X Y = (do
    let u ← X
    let v ← Y
    Eval.apply op (Eval.commonType op a b) a b u v) := by
  unfold Eval.binary
  cases op with
  | add => simp [h.add rfl]
  | sub => simp [h.sub rfl]
  | _ => rfl

end ActsOnNumbers

theorem runs_numbers {op : BinaryOp} {i : Typed.Info} (hx : σ.Operand x s.decay X) (hy : σ.Operand y t.decay Y)
    (notLogical : op.isLogical = false) (numbers : ActsOnNumbers op s.decay t.decay)
    (same : op.isComparison = false → i.ty = Eval.commonType op s.decay t.decay) :
    σ.Runs (Lowering.binary T op s t i x y) []
      (Eval.binary (σ.scene T) op s.decay t.decay X Y) fun v => [v] := by
  have ty : (if !op.isComparison then i.ty else if s.decay.isPointer || t.decay.isPointer then .voidPtr
      else Ty.common s.decay t.decay) = Eval.commonType op s.decay t.decay := by
    cases comparison : op.isComparison with
    | false => exact same comparison
    | true =>
      have shift : Typed.operationType op s.decay t.decay = Ty.common s.decay t.decay := by
        cases op <;> first | rfl | cases comparison
      unfold Eval.commonType
      rw [comparison, shift]
      by_cases pointers : s.decay.isPointer || t.decay.isPointer
      · simp [pointers]
      · by_cases dynamic : s.decay.isDynamic || t.decay.isDynamic
        · simp [pointers, dynamic, Ty.common]
        · simp [pointers, dynamic]
  unfold Lowering.binary
  rw [notLogical, if_neg nofun]
  dsimp only
  rw [numbers.operation_eq, numbers.eval_eq, ty]
  exact runs_arithmetic hx hy _ _ _

theorem not_isPointer_of_number {ty : Ty} (h : ty.isArithmetic ∨ ty.isDynamic) : ty.isPointer = false := by
  cases ty with
  | pointer ty => rcases h with h | h <;> cases h
  | _ => rfl

theorem not_isDynamic_of_isPointer {ty : Ty} (h : ty.isPointer) : ty.isDynamic = false := by
  cases ty with
  | dynamic => cases h
  | _ => rfl

theorem not_isDynamic_of_isArithmetic {ty : Ty} (h : ty.isArithmetic) : ty.isDynamic = false := by
  cases ty with
  | dynamic => cases h
  | _ => rfl

theorem stride_positive {slots : Nat} (small : slots < UInt32.size) :
    ¬Int64.ofNat (max slots 1) < 1 := by
  have limit : UInt32.size = 2 ^ 32 := rfl
  have value : (Int64.ofNat (max slots 1)).toInt = max slots 1 := Int64.toInt_ofNat_of_lt (by omega)
  rw [Int64.lt_iff_toInt_lt, value]
  show ¬((max slots 1 : Nat) : Int) < 1
  omega

theorem runs_difference {a : Ty} (hx : σ.Operand x s X) (hy : σ.Operand y t Y)
    (small : (a.pointee?.map T.slots).getD 0 < UInt32.size) :
    σ.Runs (x ++ y ++ .code [.ptrDiff (pointeeStride T a)]) [] (do
      let p ← X
      let q ← Y
      let between := (Address.decode p.bits).index.toInt64 - (Address.decode q.bits).index.toInt64
      return .int (between / Eval.pointeeDistance T a)) fun v => [v] := by
  have unit : ¬pointeeStride T a < 1 := by
    unfold pointeeStride
    cases pointee : a.pointee? with
    | none => exact (by decide : ¬(1 : Int64) < 1)
    | some inner =>
      rw [pointee] at small
      exact stride_positive small
  rw [Piece.append_assoc]
  refine hx.runs.append (hy.keeps.append (.code _)) fun p _ _ _ => ?_
  refine (hy.runs.frame [p]).append (.code _) fun q _ _ _ => ?_
  have acts := acts_ptrDiff (σ := σ) (pointeeStride T a) q p
  rw [if_neg unit, pointeeStride_eq] at acts
  rw [pointeeStride_eq]
  exact Turns.result (.single acts rfl)

/-- A binary operator acts on numbers or on pointers. -/
inductive Acting (op : BinaryOp) (a b : Ty) : Ty → Prop where
  | numbers (h : ActsOnNumbers op a b) : Acting op a b (if op.isComparison then .bool else Eval.commonType op a b)
  | offset (moves : op = .add ∨ op = .sub) (left : a.isPointer) (right : b.isInteger) : Acting op a b a
  | offsetLeft (adds : op = .add) (left : a.isInteger) (right : b.isPointer) : Acting op a b b
  | difference (subtracts : op = .sub) (left : a.isPointer) (right : b.isPointer) : Acting op a b .long

theorem acting_of_rule {op : BinaryOp} {a b ty : Ty} (notLogical : op.isLogical = false)
    (rule : BinaryRule op a b ty) : Acting op a b ty := by
  have numbers (left : a.isArithmetic ∨ a.isDynamic) (right : b.isArithmetic ∨ b.isDynamic)
      (type : ty = if op.isComparison then .bool else Eval.commonType op a b) : Acting op a b ty :=
    type ▸ .numbers (.of_notPointer (not_isPointer_of_number left) (not_isPointer_of_number right))
  cases rule with
  | logical isLogical => rw [isLogical] at notLogical; cases notLogical
  | dynamic _ dynamic left right =>
    refine numbers left right ?_
    have either : (a.isDynamic || b.isDynamic) = true := Bool.or_eq_true_iff.mpr dynamic
    cases comparison : op.isComparison with
    | true => rfl
    | false =>
      rw [Eval.commonType, comparison, either]
      rfl
  | compared comparison _ =>
    have acts : Acting op a b (if op.isComparison then .bool else Eval.commonType op a b) :=
      .numbers (.of_other (by rintro rfl; cases comparison) (by rintro rfl; cases comparison))
    rwa [comparison] at acts
  | common notComparison _ notShift left right =>
    refine numbers (.inl left) (.inl right) ?_
    have type : Typed.operationType op a b = Ty.common a b := by
      cases op with
      | shl => exact absurd rfl notShift.1
      | shr => exact absurd rfl notShift.2
      | _ => rfl
    rw [Eval.commonType, notComparison, type]
    by_cases dynamic : a.isDynamic || b.isDynamic
    · simp [dynamic, Ty.common]
    · simp [dynamic]
  | shifted isShift left right =>
    refine numbers (.inl left) (.inl right) ?_
    have type : Typed.operationType op a b = a.promote := by
      obtain rfl | rfl := isShift <;> rfl
    have notComparison : op.isComparison = false := by
      obtain rfl | rfl := isShift <;> rfl
    have notDynamic : (a.isDynamic || b.isDynamic) = false := by
      rw [not_isDynamic_of_isArithmetic left, not_isDynamic_of_isArithmetic right]
      rfl
    rw [Eval.commonType, notComparison, notDynamic, type]
    rfl
  | offset moves left right => exact .offset moves left right
  | offsetLeft adds left right => exact .offsetLeft adds left right
  | difference subtracts left right => exact .difference subtracts left right

theorem not_isInteger_of_isPointer {ty : Ty} (h : ty.isPointer) : ty.isInteger = false := by
  cases ty with
  | pointer inner => rfl
  | _ => cases h

theorem runs_binary {op : BinaryOp} {i : Typed.Info} (hx : σ.Operand x s.decay X) (hy : σ.Operand y t.decay Y)
    (notLogical : op.isLogical = false) (rule : BinaryRule op s.decay t.decay i.ty) :
    σ.Runs (Lowering.binary T op s t i x y) []
      (Eval.binary (σ.scene T) op s.decay t.decay X Y) fun v => [v] := by
  have moved {p q : Piece} {a b : Ty} {P Q : Eval Value} (hp : σ.Operand p a P) (hq : σ.Operand q b Q)
      (negate : Bool) : σ.Runs (p ++ q ++ movePointer b negate (pointeeStride T a)) [] (do
        let p ← P
        let n ← Q
        return Eval.moved p ((if negate then -Eval.steps b n else Eval.steps b n) *
          Eval.pointeeDistance T a)) fun v => [v] := by
    rw [pointeeStride_eq]
    exact runs_moved hp hq negate _
  have acting := acting_of_rule notLogical rule
  generalize given : i.ty = ty at acting
  cases acting with
  | numbers h =>
    refine runs_numbers hx hy notLogical h fun comparison => ?_
    rw [given, comparison]
    rfl
  | offset moves left right =>
    have notDynamic : (s.decay.isDynamic || t.decay.isDynamic) = false := by
      rw [not_isDynamic_of_isPointer left, not_isDynamic_of_isArithmetic (isArithmetic_of_isInteger right)]
      rfl
    unfold Lowering.binary
    rw [notLogical, if_neg nofun]
    obtain rfl | rfl := moves
    · simp only [operation, notDynamic, left, right, Eval.binary]
      exact moved hx hy false
    · simp only [operation, notDynamic, left, right, Eval.binary]
      exact moved hx hy true
  | offsetLeft adds left right =>
    subst adds
    have number := isArithmetic_of_isInteger left
    have notDynamic : (s.decay.isDynamic || t.decay.isDynamic) = false := by
      rw [not_isDynamic_of_isArithmetic number, not_isDynamic_of_isPointer right]
      rfl
    unfold Lowering.binary
    rw [notLogical, if_neg nofun]
    simp only [operation, notDynamic, left, right, not_isPointer_of_number (.inl number), Eval.binary]
    exact moved hy hx false
  | difference subtracts left right =>
    subst subtracts
    have notDynamic : (s.decay.isDynamic || t.decay.isDynamic) = false := by
      rw [not_isDynamic_of_isPointer left, not_isDynamic_of_isPointer right]
      rfl
    unfold Lowering.binary
    rw [notLogical, if_neg nofun]
    simp only [operation, notDynamic, left, right, not_isInteger_of_isPointer right, Eval.binary]
    refine .counted fun small => ?_
    exact runs_difference hx hy small

/-! ## Branches -/

/-- The jump of a logical operator is taken if the first operand decides. -/
theorem act_logicalJump {op : BinaryOp} (isLogical : op.isLogical) (short : Nat) (v : Value) (m : Machine)
    (os : List Value) (n ip : Nat) :
    Exec.act σ.evaluate σ.frame.function.ret σ.frame.base
      (if op = .and then .jumpIfFalse short else .jumpIfTrue short) (σ.at_ m (v :: os) n ip) =
      .ok () (σ.at_ m os n (if v.isTruthy = decide (op = .or) then short else ip)) := by
  cases op with
  | and =>
    rw [if_pos rfl, act_jumpIfFalse]
    cases v.isTruthy <;> rfl
  | or =>
    rw [if_neg nofun, act_jumpIfTrue]
    cases v.isTruthy <;> rfl
  | _ => cases isLogical

theorem undecided {op : BinaryOp} (isLogical : op.isLogical) {truth : Bool} (h : ¬truth = decide (op = .or)) :
    truth = decide (op = .and) := by
  cases op with
  | and => simpa using h
  | or => simpa using h
  | _ => cases isLogical

/-- A constant is pushed, and nothing else is left to do. -/
theorem ends_push {v : Int64} {ip k n : Nat} {m : Machine} {os : List Value}
    (found : σ.frame.function.code[ip]? = some (.pushInt v))
    (inside : σ.stretch.first ≤ ip ∧ ip < σ.stretch.last) (room : k + 1 ≤ n) :
    σ.Ends (σ.at_ m os k ip) m os (ip + 1) n (fun v => [v]) (.ok (Value.int v) m) := by
  have pushed : σ.Ends (σ.at_ m (.int v :: os) (k + 1) (ip + 1)) m os (ip + 1) n (fun v => [v])
      (.ok (Value.int v) m) := .finish rfl room
  exact Ends.step found inside rfl rfl room pushed

theorem runs_logical {op : BinaryOp} (isLogical : op.isLogical) (hx : σ.Operand x s X) (hy : σ.Operand y t Y) :
    σ.Runs (logical op x y) [] (Eval.logical op X Y) fun v => [v] := by
  intro start g is g' run knows shows_ first last m os n
  obtain ⟨c, g₁, runX, run⟩ := bind_eq_ok run
  obtain ⟨d, g', runY, run⟩ := bind_eq_ok run
  cases run
  generalize hshort : start + c.length + 1 + d.length + 3 = short at shows_ last ⊢
  have plain : σ.Patched (if op = .and then Instr.jumpIfFalse short else .jumpIfTrue short)
      (if op = .and then Instr.jumpIfFalse short else .jumpIfTrue short) := by
    split <;> rfl
  simp only [List.length_append, List.length_cons, List.length_nil] at last ⊢
  have second := shows_.left.right
  have behind : Shows σ.Patched σ.frame.function.code (start + c.length + 1 + d.length) _ := shows_.right.at_ (by
    rw [List.length_append, List.length_cons]
    omega)
  have jump := found_of_stood second.head plain
  have again := found_of_stood behind.head plain
  have other := found_of_stood behind.tail.head rfl
  have past := found_of_stood behind.tail.tail.head rfl
  have decided := found_of_stood (behind.tail.tail.tail.head.at_ (k := short) (by omega)) rfl
  have stop : start + (c.length + (d.length + 1) + (0 + 1 + 1 + 1 + 1)) = short + 1 := by omega
  rw [stop] at last ⊢
  have short_ {v : Value} {m : Machine} {k : Nat} (truth : v.isTruthy = decide (op = .or))
      (room : k + 1 ≤ n + (c.length + (d.length + 1) + (0 + 1 + 1 + 1 + 1))) :
      σ.Ends (σ.at_ m os k short) m os (short + 1) (n + (c.length + (d.length + 1) + (0 + 1 + 1 + 1 + 1)))
        (fun v => [v]) (.ok (Value.ofBool v.isTruthy) m) := by
    have value : boolWord (op != .and) = boolWord v.isTruthy := by
      rw [truth]
      cases op with
      | and | or => rfl
      | _ => cases isLogical
    rw [value] at decided
    exact ends_push decided ⟨by omega, by omega⟩ room
  have begun := hx.runs start g c g₁ runX (knows.of_keeps (hy.keeps _ _ _ _ runY)) shows_.left.left first
    (by omega) m os n
  refine begun.bind (by omega) fun u m' k _ le => ?_
  have jumped := act_logicalJump (σ := σ) isLogical short u m' os (k + 1) (start + c.length + 1)
  by_cases truth : u.isTruthy = decide (op = .or)
  · rw [if_pos truth] at jumped ⊢
    exact Ends.step jump ⟨by omega, by omega⟩ jumped rfl (by omega) (short_ truth (by omega))
  · rw [if_neg truth] at jumped ⊢
    refine Ends.step jump ⟨by omega, by omega⟩ jumped rfl (by omega) ?_
    have next := hy.runs _ g₁ d g' runY knows second.tail (by omega) (by omega) m' os (k + 1)
    refine next.bind (by omega) fun v m'' k' _ le' => ?_
    have jumped := act_logicalJump (σ := σ) isLogical short v m'' os (k' + 1) (start + c.length + 1 + d.length + 1)
    by_cases truth : v.isTruthy = decide (op = .or)
    · rw [if_pos truth] at jumped
      exact Ends.step again ⟨by omega, by omega⟩ jumped rfl (by omega) (short_ truth (by omega))
    · rw [if_neg truth] at jumped
      have value : boolWord (op = .and) = boolWord v.isTruthy := by
        rw [undecided isLogical truth]
      rw [value] at other
      refine Ends.step again ⟨by omega, by omega⟩ jumped rfl (by omega) ?_
      have jumpsOver : σ.Ends (σ.at_ m'' (.ofBool v.isTruthy :: os) (k' + 1 + 1) (start + c.length + 1 + d.length + 1 + 1))
          m'' os (short + 1) (n + (c.length + (d.length + 1) + (0 + 1 + 1 + 1 + 1))) (fun v => [v])
          (.ok (Value.ofBool v.isTruthy) m'') :=
        Ends.step past ⟨by omega, by omega⟩ (act_jump _) rfl (by omega) (.finish rfl (by omega))
      exact Ends.step other ⟨by omega, by omega⟩ rfl rfl (by omega) jumpsOver

theorem runs_conditional {α : Type} {c : Piece} {C : Eval Value} {M N : Eval α} {out : α → List Value}
    (hc : σ.Runs c [] C fun v => [v]) (hx : σ.Runs x [] M out) (hy : σ.Runs y [] N out) (kx : x.Keeps)
    (ky : y.Keeps) : σ.Runs (conditional c x y) [] (do if (← C).isTruthy then M else N) out := by
  intro start g is g' run knows shows_ first last m os n
  obtain ⟨cs, g₁, runC, run⟩ := bind_eq_ok run
  obtain ⟨yes, g₂, runX, run⟩ := bind_eq_ok run
  obtain ⟨no, g', runY, run⟩ := bind_eq_ok run
  cases run
  generalize hother : start + cs.length + 1 + yes.length + 1 = other at shows_ last runY ⊢
  simp only [List.length_append, List.length_cons] at last ⊢
  have stop : start + (cs.length + (yes.length + 1) + (no.length + 1)) = other + no.length := by omega
  rw [stop] at last ⊢
  have known := knows.of_keeps (ky _ _ _ _ runY)
  have second := shows_.left.right
  have behind : Shows σ.Patched σ.frame.function.code (start + cs.length + 1 + yes.length) _ := shows_.right.at_ (by
    rw [List.length_append, List.length_cons]
    omega)
  have test := found_of_stood second.head rfl
  have past := found_of_stood behind.head rfl
  have begun := hc start g cs g₁ runC (known.of_keeps (kx _ _ _ _ runX)) shows_.left.left first (by omega) m os n
  refine begun.bind (by omega) fun u m' k _ le => ?_
  have jumped : Exec.act σ.evaluate σ.frame.function.ret σ.frame.base (.jumpIfFalse other)
      (σ.at_ m' (u :: os) (k + 1) (start + cs.length + 1)) =
      .ok () (σ.at_ m' os (k + 1) (if u.isTruthy then start + cs.length + 1 else other)) := act_jumpIfFalse other u
  by_cases truth : u.isTruthy
  · rw [if_pos truth] at jumped ⊢
    refine Ends.step test ⟨by omega, by omega⟩ jumped rfl (by omega) ?_
    have taken := hx _ g₁ yes g₂ runX known second.tail (by omega) (by omega) m' os (k + 1)
    have whole : σ.Ends (σ.at_ m' ([] ++ os) (k + 1) (start + cs.length + 1)) m' os (other + no.length)
        (n + (cs.length + (yes.length + 1) + (no.length + 1))) out ((M >>= pure) m') :=
      taken.bind (by omega) fun r m'' k' _ le' =>
        Ends.step past ⟨by omega, by omega⟩ (act_jump _) rfl (by omega) (.finish rfl (by omega))
    rwa [bind_pure] at whole
  · rw [if_neg truth] at jumped ⊢
    refine Ends.step test ⟨by omega, by omega⟩ jumped rfl (by omega) ?_
    have taken := hy other g₂ no g' runY knows (behind.tail.at_ (by omega)) (by omega) (by omega) m' os (k + 1)
    exact taken.mono (by omega)

/-! ## Values and effects -/

theorem runs_discard {p : Piece} {ty : Ty} {M : Eval (Option Value)} (hp : σ.Runs p [] M Option.toList)
    (valued : ∀ m r m', M m = .ok r m' → r.isSome = !ty.isVoid) : σ.Runs (Lowering.discard ty p) [] M fun _ => [] := by
  unfold Lowering.discard
  by_cases void : ty.isVoid
  · rw [if_pos void]
    refine hp.congr fun m r m' ran => ?_
    have none := valued m r m' ran
    rw [void] at none
    cases r with
    | none => rfl
    | some v => cases none
  · rw [if_neg void]
    refine hp.turning fun r m m' ran => ?_
    have some := valued m r m' ran
    rw [Bool.eq_false_iff.mpr void] at some
    cases r with
    | none => cases some
    | some v => exact .single (acts_pop v) rfl

theorem Eval.of_ofExcept {x : Except Fault Value} {m m' : Machine} {v : Value} (ran : Eval.ofExcept x m = .ok v m') :
    x = .ok v := by
  cases x with
  | error f => cases ran
  | ok w =>
    cases ran
    rfl

theorem Eval.suits_of_load {kind : Scalar} {p v : Value} {m m' : Machine} (known : s.decay.scalar? = some kind)
    (notFloat : kind.isFloat = false) (read : Eval.load kind p m = .ok v m') : v.Suits s := by
  have read : EStateM.bind (Eval.ofExcept (m.read p.bits)) (fun w => pure (w.coerce kind)) m = .ok v m' := read
  unfold EStateM.bind at read
  cases found : m.read p.bits with
  | error f =>
    rw [found] at read
    cases read
  | ok w =>
    rw [found] at read
    cases read
    intro k h
    cases known.symm.trans h
    exact ⟨notFloat, Value.isOf_coerce notFloat w⟩

theorem Eval.of_value {M : Eval (Option Value)} {m m' : Machine} {v : Value} (ran : Eval.value M m = .ok v m') :
    M m = .ok (some v) m' := by
  have ran : EStateM.bind M _ m = .ok v m' := ran
  unfold EStateM.bind at ran
  cases result : M m with
  | error e m'' =>
    rw [result] at ran
    cases ran
  | ok r m'' =>
    rw [result] at ran
    cases r with
    | none => cases ran
    | some w =>
      cases ran
      rfl

theorem runs_branch {p : Piece} {target ty : Ty} {M : Eval (Option Value)} (hp : σ.Runs p [] M Option.toList)
    (valued : ∀ m r m', M m = .ok r m' → r.isSome = !ty.isVoid) (suits : ∀ m v m', M m = .ok (some v) m' → v.Suits ty) :
    σ.Runs (if target.isVoid then Lowering.discard ty p else p ++ .code (convert ty target)) []
      (Eval.branch target ty M) Option.toList := by
  unfold Eval.branch
  by_cases void : target.isVoid
  · simp only [if_pos void]
    exact Runs.map (runs_discard hp valued)
  · simp only [if_neg void]
    refine hp.value.append (.code _) fun v m m' ran => Turns.result ?_
    exact turns_convert (suits m v m' (Eval.of_value ran))

theorem decay_promote (ty : Ty) : ty.decay.promote.decay = ty.decay.promote := by
  cases ty with
  | int k =>
    show (if k.rank.order < IntRank.int.order then Ty.signedInt else .int k).decay = if _ then _ else _
    by_cases low : k.rank.order < IntRank.int.order
    · rw [if_pos low]
      rfl
    · rw [if_neg low]
      rfl
  | _ => rfl

theorem runs_promoted {i : Typed.Info} {op : UnaryOp} {code : Code.UnaryOp} (hx : σ.Operand x s X)
    (ty : i.ty = s.decay.promote) (isCode : op = .neg ∧ code = .neg ∨ op = .bitNot ∧ code = .bitNot) :
    σ.Runs (Lowering.unary T op s i x) [] (X >>= Eval.unary code s) fun v => [v] := by
  have piece : Lowering.unary T op s i x = x ++ Piece.code (convert s i.ty) ++ .gen do
      return [.unary code (← need (kindOf? i.ty) .unaryOperand i.span)] := by
    obtain ⟨rfl, rfl⟩ | ⟨rfl, rfl⟩ := isCode <;> rfl
  have keeps : (Piece.gen do
      return [.unary code (← need (kindOf? i.ty) .unaryOperand i.span)]).Keeps := .needs _ _ _ _
  rw [piece, Piece.append_assoc]
  refine hx.runs.append ((Piece.Keeps.code _).append keeps) fun v _ _ given => ?_
  refine .turned (turns_convert (hx.suits _ _ _ given)) ?_ keeps
  refine .needs fun kind known => ?_
  have known : s.decay.promote.scalar? = some kind := by
    rw [← decay_promote, ← ty]
    exact known
  unfold Eval.unary
  rw [ty]
  dsimp only
  rw [known]
  exact .single (acts_unary code kind _) rfl

theorem runs_not {i : Typed.Info} (hx : σ.Operand x s X) : σ.Runs (Lowering.unary T .not s i x) []
    (do return .ofBool !(← X).isTruthy) fun v => [v] := by
  refine hx.runs.append (.needs _ _ _ _) fun _ _ _ _ => .needs fun kind _ => ?_
  exact .single (acts_unary .not kind _) rfl

theorem runs_plus {i : Typed.Info} (hx : σ.Operand x s X) : σ.Runs (Lowering.unary T .plus s i x) []
    (do return Eval.converted s i.ty (← X)) fun v => [v] :=
  hx.runs.append (.code _) fun _ _ _ given => (turns_convert (hx.suits _ _ _ given)).result

theorem runs_increment {ty : Ty} {P : Eval Value} (hx : σ.Runs x [] P fun v => [v]) (up post : Bool) (span : Span) :
    σ.Runs (increment T ty up post span x) [] (Eval.increment (σ.scene T) ty up post P) fun v => [v] := by
  unfold Eval.increment
  cases known : ty.decay.scalar? with
  | none =>
    exact .meaningless
  | some kind =>
    refine hx.append (.needs _ _ _ _) fun p _ _ _ => .needs fun kind' known' => ?_
    cases known.symm.trans known'
    rw [pointeeStride_eq]
    exact .single (acts_incDec kind _ post p) rfl

/-! ## Assignments -/

variable {P : Eval Value}

theorem runs_assign (hx : σ.Runs x [] P fun v => [v]) (hy : σ.Operand y t Y) (span : Span) :
    σ.Runs (assign T none s t span x y) [] (Eval.assign (σ.scene T) s t P Y) fun v => [v] := by
  unfold assign Eval.assign
  by_cases record : s.isRecord
  · rw [if_pos record, if_pos record]
    refine .counted fun small => ?_
    rw [Piece.append_assoc]
    refine hx.append (hy.keeps.append (.code _)) fun p _ _ _ => ?_
    refine (hy.runs.frame [p]).append (.code _) fun q _ _ _ => ?_
    rw [show slotWord (T.slots s) = T.slots s from Nat.mod_eq_of_lt small]
    exact Runs.map (.single (acts_copySlots _ q p) rfl)
  · rw [if_neg record, if_neg record]
    cases known : s.decay.scalar? with
    | none => exact .meaningless
    | some kind =>
      rw [show kindOf? s = some kind from known]
      dsimp only
      rw [Piece.append_assoc]
      refine hx.append (hy.keeps.append (.code _)) fun p _ _ _ => ?_
      refine (hy.runs.frame [p]).append (.code _) fun v _ _ given => ?_
      rw [Piece.code_append]
      have stored : σ.Runs (.code [.store kind]) [Eval.converted t s v, p]
          (Eval.store p ((Eval.converted t s v).coerce kind)) fun _ => [(Eval.converted t s v).coerce kind] :=
        .single (acts_store kind _ p) rfl
      exact .turned ((turns_convert (hy.suits _ _ _ given)).frame [p]) (.map stored) (.code _)

theorem runs_stored (kind : Scalar) (p v : Value) : σ.Runs (.code [.store kind]) [v, p]
    (do let new := v.coerce kind
        Eval.store p new
        return new) fun v => [v] := by
  have stored : σ.Runs (.code [.store kind]) [v, p] (Eval.store p (v.coerce kind)) fun _ => [v.coerce kind] :=
    .single (acts_store kind v p) rfl
  exact .map stored

theorem notComparison {op : BinaryOp} {code : Code.BinaryOp} (arithmetic : op.isArithmetic)
    (found : machineOp? op = some code) : code.isComparison = false := by
  cases op with
  | and | or => cases found
  | lt | le | gt | ge | eq | ne => cases arithmetic
  | _ =>
    cases found
    rfl

/-- The new value is converted back and stored. -/
theorem runs_updated {op : BinaryOp} {ty : Ty} {kind : Scalar} {p u v : Value} (arithmetic : op.isArithmetic)
    (integral : ∀ k, ty.decay.scalar? = some k → k.isFloat = false) (span : Span) :
    σ.Runs (.gen do
      let code ← need (machineOp? op) .logicalCompound span
      let commonKind ← need (kindOf? ty) .compoundOperand span
      return .binary code commonKind :: convert ty s ++ [.store kind])
      [Eval.converted t ty v, Eval.converted s ty u, p]
      (do let new ← (do return Eval.converted ty s (← Eval.apply op ty s t u v))
          let new := new.coerce kind
          Eval.store p new
          return new) fun v => [v] := by
  refine .needs fun code found => .needs fun commonKind known => ?_
  simp only [apply_eq found known, bind_assoc, pure_bind]
  show σ.Runs (.code ([.binary code commonKind] ++ (convert ty s ++ [.store kind]))) _ _ _
  rw [Piece.code_append, Piece.code_append]
  have computes : σ.Runs (.code [.binary code commonKind]) [Eval.converted t ty v, Eval.converted s ty u]
      (Eval.ofExcept (Operation.binary code commonKind (Eval.converted s ty u) (Eval.converted t ty v)))
      fun v => [v] := .single (acts_binary code commonKind _ _) rfl
  refine (computes.frame [p]).append ((Piece.Keeps.code _).append (.code _)) fun r _ _ ran => ?_
  have suits : r.Suits ty := fun k h => ⟨integral k h, by
    cases known.symm.trans h
    exact Operation.isOf_binary (notComparison arithmetic found) (integral _ h) (Eval.of_ofExcept ran)⟩
  exact .turned ((turns_convert suits).frame [p]) (runs_stored kind p _) (.code _)

theorem keeps_updating (hy : y.Keeps) (op : BinaryOp) (kind : Scalar) (a b : Ty) (span : Span) :
    (updating T op kind a b span y).Keeps := by
  refine .ite ((Piece.Keeps.code _).append (hy.append ((Piece.Keeps.code _).append (.code _)))) ?_
  refine (Piece.Keeps.code _).append ((Piece.Keeps.code _).append (hy.append ((Piece.Keeps.code _).append (.gen ?_))))
  exact .bind (.need _ _ _) fun _ => .bind (.need _ _ _) fun _ => .pure _

/-- The old value is read, the right side is evaluated, and what the operator makes of both is stored. -/
theorem runs_updating {op : BinaryOp} {kind : Scalar} (known : s.decay.scalar? = some kind) (hy : σ.Operand y t Y)
    (arithmetic : op.isArithmetic) (integral : ∀ k, s.decay.scalar? = some k → k.isFloat = false)
    (common : ∀ k, (Typed.operationType op s t).decay.scalar? = some k → k.isFloat = false) (span : Span) (p : Value) :
    σ.Runs (updating T op kind s t span y) [p, p] (do
      let old ← Eval.load kind p
      let v ← Y
      let new := (← Eval.update (σ.scene T) op s t old v).coerce kind
      Eval.store p new
      return new) fun v => [v] := by
  have loaded : σ.Runs (.code [.load kind]) [p, p] (Eval.load kind p) fun v => [v, p] :=
    (Runs.single (acts_load kind p) rfl : σ.Runs (.code [.load kind]) [p] (Eval.load kind p) fun v => [v]).frame [p]
  unfold updating Eval.update
  by_cases pointer : s.isPointer
  · simp only [if_pos pointer]
    have move : (movePointer t (op = .sub) (pointeeStride T s)).Keeps := .code _
    refine loaded.append (hy.keeps.append (move.append (.code [.store kind]))) fun old _ _ _ => ?_
    refine (hy.runs.frame [old, p]).append (move.append (.code _)) fun n _ _ given => ?_
    have moved := turns_movePointer (σ := σ) (p := old) (hy.suits _ _ _ given) (op = .sub) (Eval.pointeeDistance T s)
    rw [pointeeStride_eq, pure_bind]
    exact .turned (moved.frame [p]) (runs_stored kind p _) (.code _)
  · simp only [if_neg pointer]
    generalize Typed.operationType op s t = ty at common ⊢
    have keeps : (Piece.gen do
        let code ← need (machineOp? op) .logicalCompound span
        let commonKind ← need (kindOf? ty) .compoundOperand span
        return .binary code commonKind :: convert ty s ++ [.store kind]).Keeps :=
      .gen (.bind (.need _ _ _) fun _ => .bind (.need _ _ _) fun _ => .pure _)
    have right := hy.keeps.append ((Piece.Keeps.code (convert t ty)).append keeps)
    refine loaded.append ((Piece.Keeps.code (convert s ty)).append right) fun old _ _ read => ?_
    refine .turned ((turns_convert (Eval.suits_of_load known (integral kind known) read)).frame [p]) ?_ right
    refine (hy.runs.frame _).append ((Piece.Keeps.code _).append keeps) fun v _ _ given => ?_
    refine .turned ((turns_convert (hy.suits _ _ _ given)).frame _) ?_ keeps
    exact runs_updated arithmetic common span

theorem runs_compound {op : BinaryOp} (hx : σ.Runs x [] P fun v => [v]) (hy : σ.Operand y t.decay Y)
    (arithmetic : op.isArithmetic) (integral : ∀ k, s.decay.scalar? = some k → k.isFloat = false)
    (common : ∀ k, (Typed.operationType op s t.decay).decay.scalar? = some k → k.isFloat = false) (span : Span) :
    σ.Runs (assign T (some op) s t span x y) [] (Eval.compound (σ.scene T) op s t.decay P Y)
      fun v => [v] := by
  unfold assign Eval.compound
  by_cases record : s.isRecord
  · rw [if_pos record]
    exact .fail _ _
  · rw [if_neg record]
    cases known : s.decay.scalar? with
    | none => exact .meaningless
    | some kind =>
      rw [show kindOf? s = some kind from known]
      dsimp only
      rw [compound_eq]
      have updates := keeps_updating (T := T) hy.keeps op kind s t.decay span
      refine hx.append ((Piece.Keeps.code [.dup]).append updates) fun p _ _ _ => ?_
      have copied : σ.Turns [.dup] [p] [p, p] := .single (acts_dup p) rfl
      exact .turned copied (runs_updating known hy arithmetic integral common span p) updates

end IncrementalC.Track
