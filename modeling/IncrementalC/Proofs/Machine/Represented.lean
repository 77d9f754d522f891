import IncrementalC.Machine.Operation
import IncrementalC.Proofs.Machine.Frames
import IncrementalC.Types.Basic
import Mathlib.Algebra.Group.Int.Defs
import Mathlib.Algebra.Group.Nat.Defs

/-!
# Values in the representation of a kind

`Value.IsOf v k`: the value `v` is what a conversion to the kind `k` gives. The operators of the machine
leave such values, so a conversion between types of one kind changes nothing.

`Pushes P x`: if the step `x` succeeds, the value on top of the operand stack satisfies `P`. Loads, stores, conversions
and operators push values in the representation of their kind, whatever they find on the stack and in memory.
-/
namespace IncrementalC
set_option autoImplicit false

namespace Scalar

theorem wrap_wrap (k : Scalar) (v : Int64) : k.wrap (k.wrap v) = k.wrap v := by
  cases k with
  | bool =>
    by_cases h : v = 0
    · simp [wrap, h]
    · simp [wrap, h]
  | u8 => exact congrArg (fun w : UInt8 => w.toUInt64.toInt64) (UInt8.toUInt8_toUInt64 _)
  | u16 => exact congrArg (fun w : UInt16 => w.toUInt64.toInt64) (UInt16.toUInt16_toUInt64 _)
  | u32 => exact congrArg (fun w : UInt32 => w.toUInt64.toInt64) (UInt32.toUInt32_toUInt64 _)
  | _ => simp [wrap]

/-- A word in the range of the kind `int` stays as it is. -/
theorem wrap_i32 {v : Int64} (low : -2 ^ 31 ≤ v.toInt) (high : v.toInt < 2 ^ 31) : wrap .i32 v = v := by
  have stays : v.toInt32.toInt64.toInt = v.toInt := by
    rw [Int32.toInt_toInt64, Int64.toInt_toInt32]
    exact Int.bmod_eq_of_le (by omega) (by omega)
  exact Int64.toInt_inj.mp stays

theorem wrap_i8_ofNat {n : Nat} (small : n ≤ 127) : wrap .i8 (Int64.ofNat n) = Int64.ofNat n := by
  have value : (Int64.ofNat n).toInt = n := Int64.toInt_ofNat_of_lt (by omega)
  have stays : (Int64.ofNat n).toInt8.toInt64.toInt = (Int64.ofNat n).toInt := by
    rw [Int8.toInt_toInt64, Int64.toInt_toInt8, value]
    exact Int.bmod_eq_of_le (by omega) (by omega)
  exact Int64.toInt_inj.mp stays

theorem wrap_i32_ofNat {n : Nat} (small : n < 2 ^ 31) : wrap .i32 (Int64.ofNat n) = Int64.ofNat n := by
  have value : (Int64.ofNat n).toInt = n := Int64.toInt_ofNat_of_lt (by omega)
  exact wrap_i32 (by omega) (by omega)

theorem wrap_u32_ofNat {n : Nat} (small : n < 2 ^ 32) : wrap .u32 (Int64.ofNat n) = Int64.ofNat n := by
  have same : (UInt64.ofNat n).toUInt32.toUInt64 = UInt64.ofNat n := by
    refine UInt64.toNat_inj.mp ?_
    rw [UInt32.toNat_toUInt64, UInt64.toNat_toUInt32, UInt64.toNat_ofNat']
    omega
  show (Int64.ofNat n).toUInt64.toUInt32.toUInt64.toInt64 = Int64.ofNat n
  rw [Int64.toUInt64_ofNat', same]
  rfl

theorem toInt_toInt64 {v : UInt64} (small : v.toNat < 2 ^ 63) : v.toInt64.toInt = v.toNat := by
  rw [← v.ofNat_toNat, UInt64.toInt64_ofNat', Int64.toInt_ofNat_of_lt (by omega), UInt64.ofNat_toNat]

theorem isFloat_of_isInteger {k : Scalar} (integer : k.isInteger) : k.isFloat = false := by
  cases k <;> first | rfl | cases integer

end Scalar

namespace Value

def IsOf (v : Value) (k : Scalar) : Prop := v.coerce k = v

variable {v : Value} {k : Scalar}

theorem isOf_ptr (p : UInt64) : IsOf (.ptr p) .ptr := by
  simp [IsOf, coerce, word]

theorem isOf_dyn (v : Value) : IsOf v .dyn := rfl

theorem isOf_ofBool (b : Bool) : IsOf (ofBool b) .bool := by
  cases b <;> rfl

/-- An integer is brought into the range of a kind. -/
theorem coerce_int (integer : k.isInteger) (n : Int64) : (Value.int n).coerce k = .int (k.wrap n) := by
  cases k with
  | bool =>
    by_cases h : n = 0
    · simp [coerce, Scalar.wrap, isTruthy, ofBool, h]
    · simp [coerce, Scalar.wrap, isTruthy, ofBool, h]
  | f32 | f64 | ptr | dyn => cases integer
  | _ => rfl

theorem isOf_int {n : Int64} (integer : k.isInteger) (fits : k.wrap n = n) : IsOf (.int n) k := by
  rw [IsOf, coerce_int integer, fits]

theorem isOf_wrap (integer : k.isInteger) (n : Int64) : IsOf (.int (k.wrap n)) k :=
  isOf_int integer (k.wrap_wrap n)

theorem isOf_coerce (notFloat : k.isFloat = false) (v : Value) : IsOf (v.coerce k) k := by
  cases k with
  | f32 | f64 => cases notFloat
  | dyn => exact isOf_dyn _
  | bool => exact isOf_ofBool _
  | ptr => cases v <;> exact isOf_ptr _
  | _ => cases v <;> exact isOf_wrap rfl _

theorem convert_eq (notFloat : k.isFloat = false) (v : Value) (source : Scalar) :
    v.convert source k = v.coerce k := by
  cases v with
  | int n => exact if_neg fun h => by simp [notFloat] at h
  | _ => rfl

theorem IsOf.convert (h : IsOf v k) (notFloat : k.isFloat = false) : v.convert k k = v :=
  (convert_eq notFloat v k).trans h

theorem IsOf.int (h : IsOf v k) (integer : k.isInteger) : ∃ n, v = .int n ∧ k.wrap n = n := by
  cases k with
  | f32 | f64 | ptr | dyn => cases integer
  | bool =>
    have truth : ofBool v.isTruthy = v := h
    rw [← truth]
    cases v.isTruthy
    · exact ⟨0, rfl, rfl⟩
    · exact ⟨1, rfl, rfl⟩
  | _ =>
    cases v with
    | int n => exact ⟨n, rfl, (Value.int.inj h)⟩
    | void | float _ | ptr _ => cases h

end Value

/-! ## Types -/

/-- What an expression of the type may be worth, if the type is not floating. -/
def Value.Suits (v : Value) (ty : Ty) : Prop :=
  ∀ k, ty.decay.scalar? = some k → k.isFloat = false ∧ v.IsOf k

theorem Ty.decay_decay (t : Ty) : t.decay.decay = t.decay := by
  cases t <;> rfl

/-! ## Operators -/

namespace Operation

variable {op : Code.BinaryOp} {k : Scalar} {a b v : Value}

theorem compare_int (integer : k.isInteger) (op : Code.BinaryOp) (x y : Int64) : compare op k (.int x) (.int y) =
    if k.isUnsigned then compareWords op x.toUInt64 y.toUInt64 else compareSigned op x y := by
  cases k <;> first | rfl | cases integer

theorem binary_int (integer : k.isInteger) (op : Code.BinaryOp) (x y : Int64) : binary op k (.int x) (.int y) =
    if op.isComparison then .ok (.ofBool (compare op k (.int x) (.int y))) else (integers op k x y).map .int := by
  cases k <;> first | rfl | cases integer

theorem integers_wrapped {x y n : Int64} (h : integers op k x y = .ok n) : ∃ r, n = k.wrap r := by
  cases op with
  | add | sub | mul | shl | shr | bitAnd | bitOr | bitXor =>
    cases h
    exact ⟨_, rfl⟩
  | div | rem =>
    by_cases zero : y = 0
    · simp only [integers, zero, if_true] at h
      cases h
    · simp only [integers, zero, if_false] at h
      cases h
      exact ⟨_, rfl⟩
  | lt | le | gt | ge | eq | ne => cases h

/-- A comparison gives a truth value. -/
theorem isOf_comparison (comparison : op.isComparison) (h : binary op k a b = .ok v) : v.IsOf .bool := by
  unfold binary at h
  simp only [comparison, if_true] at h
  cases h
  exact Value.isOf_ofBool _

theorem isOf_binary (arithmetic : op.isComparison = false) (notFloat : k.isFloat = false)
    (h : binary op k a b = .ok v) : v.IsOf k := by
  by_cases dynamic : k = .dyn
  · subst dynamic
    exact Value.isOf_dyn v
  have effective : effectiveKind k a b = k := if_neg dynamic
  unfold binary at h
  simp only [effective, arithmetic, notFloat, Bool.false_eq_true, if_false] at h
  by_cases pointer : k = .ptr
  · subst pointer
    rw [if_pos rfl] at h
    unfold pointers at h
    split at h
    · cases h
      exact Value.isOf_ptr _
    · cases h
      exact Value.isOf_ptr _
    · cases h
  · rw [if_neg pointer] at h
    have integer : k.isInteger := by
      cases k <;> first | rfl | exact absurd rfl pointer | exact absurd rfl dynamic | cases notFloat
    cases words : integers op k a.word b.word with
    | error f =>
      rw [words] at h
      cases h
    | ok n =>
      rw [words] at h
      cases h
      obtain ⟨r, rfl⟩ := integers_wrapped words
      exact Value.isOf_wrap integer r

theorem isOf_unary {op : Code.UnaryOp} (notFloat : k.isFloat = false) (notLogical : op ≠ .not)
    (h : unary op k a = .ok v) : v.IsOf k := by
  by_cases dynamic : k = .dyn
  · subst dynamic
    exact Value.isOf_dyn v
  have effective : effectiveKind k a (.int 0) = k := if_neg dynamic
  unfold unary at h
  simp only [effective] at h
  cases op with
  | not => exact absurd rfl notLogical
  | neg =>
    simp only [notFloat, Bool.false_eq_true, if_false] at h
    by_cases pointer : k = .ptr
    · rw [if_pos pointer] at h
      cases h
    · rw [if_neg pointer] at h
      cases h
      refine Value.isOf_wrap ?_ _
      cases k <;> first | rfl | exact absurd rfl pointer | exact absurd rfl dynamic | cases notFloat
  | bitNot =>
    simp only at h
    split at h
    · cases h
      exact Value.isOf_wrap ‹_› _
    · cases h

theorem isOf_increment (notFloat : k.isFloat = false) (old : Value) (amount : Int64) :
    (increment k old amount).IsOf k := by
  cases k with
  | f32 | f64 => cases notFloat
  | dyn => exact Value.isOf_dyn _
  | ptr => exact Value.isOf_ptr _
  | _ => exact Value.isOf_wrap rfl _

end Operation

end IncrementalC

namespace IncrementalC.Exec
set_option autoImplicit false

variable {η α : Type} {P : Value → Prop} {k : Scalar}

/-- The topmost value satisfies `P`. -/
def OnTop (P : Value → Prop) (os : List Value) : Prop := ∃ v rest, os = v :: rest ∧ P v

def Pushes (P : Value → Prop) (x : Exec η Unit) : Prop :=
  ∀ w u w', x w = .ok u w' → OnTop P w'.machine.operands

namespace Pushes

theorem push {v : Value} (h : P v) : Pushes P (Exec.push v : Exec η Unit) := by
  intro w u w' run
  cases run
  exact ⟨v, w.machine.operands, rfl, h⟩

theorem bind {x : Exec η α} {g : α → Exec η Unit} (h : ∀ a, Pushes P (g a)) : Pushes P (x >>= g) := by
  intro w u w' run
  obtain ⟨a, w₁, -, rest⟩ := bind_eq_ok run
  exact h a w₁ u w' rest

/-- What follows a computation may depend on its result. -/
theorem ofExcept {x : Except Fault α} {g : α → Exec η Unit} (h : ∀ a, x = .ok a → Pushes P (g a)) :
    Pushes P (Exec.ofExcept x >>= g) := by
  cases x with
  | ok a => exact h a rfl
  | error e => exact nofun

end Pushes

section Instructions

variable {evaluate : List Value → Exec η Value} {ret : Option Scalar} {base : Nat}

theorem pushes_pushInt {n : Int64} (h : P (.int n)) : Pushes P (act evaluate ret base (.pushInt n)) := .push h

theorem pushes_load (notFloat : k.isFloat = false) : Pushes (·.IsOf k) (act evaluate ret base (.load k)) := by
  have pushed : Pushes (·.IsOf k) (pop >>= fun p => load p.bits >>= fun v => push (v.coerce k) : Exec η Unit) :=
    .bind fun _ => .bind fun v => .push (Value.isOf_coerce notFloat v)
  exact pushed

theorem pushes_store (notFloat : k.isFloat = false) : Pushes (·.IsOf k) (act evaluate ret base (.store k)) := by
  have pushed : Pushes (·.IsOf k) (do
      let v := (← pop).coerce k
      store (← pop).bits v
      push v : Exec η Unit) := .bind fun v => .bind fun _ => .bind fun _ => .push (Value.isOf_coerce notFloat v)
  exact pushed

theorem pushes_convert {source : Scalar} (notFloat : k.isFloat = false) :
    Pushes (·.IsOf k) (act evaluate ret base (.convert source k)) := by
  have pushed : Pushes (·.IsOf k) (pop >>= fun v => push (v.convert source k) : Exec η Unit) := by
    refine .bind fun v => .push ?_
    rw [Value.convert_eq notFloat]
    exact Value.isOf_coerce notFloat v
  exact pushed

theorem pushes_binary {op : Code.BinaryOp} (h : ∀ a b v, Operation.binary op k a b = .ok v → P v) :
    Pushes P (act evaluate ret base (.binary op k)) := by
  have pushed : Pushes P (do
      let b ← pop
      let a ← pop
      push (← Exec.ofExcept (Operation.binary op k a b)) : Exec η Unit) :=
    .bind fun b => .bind fun a => .ofExcept fun v computed => .push (h a b v computed)
  exact pushed

theorem pushes_unary {op : Code.UnaryOp} (h : ∀ a v, Operation.unary op k a = .ok v → P v) :
    Pushes P (act evaluate ret base (.unary op k)) := by
  have pushed : Pushes P (do push (← Exec.ofExcept (Operation.unary op k (← pop))) : Exec η Unit) :=
    .bind fun a => .ofExcept fun v computed => .push (h a v computed)
  exact pushed

theorem pushes_incDec {amount : Int64} {post : Bool} (notFloat : k.isFloat = false) :
    Pushes (·.IsOf k) (act evaluate ret base (.incDec k amount post)) := by
  have pushed : Pushes (·.IsOf k) (do
      let p := (← pop).bits
      let old := (← load p).coerce k
      let new := Operation.increment k old amount
      store p new
      push (if post then old else new) : Exec η Unit) := by
    refine .bind fun _ => .bind fun v => .bind fun _ => .push ?_
    cases post with
    | true => exact Value.isOf_coerce notFloat v
    | false => exact Operation.isOf_increment notFloat _ amount
  exact pushed

theorem pushes_ptrDiff {stride : Int64} (h : ∀ n, P (.int n)) : Pushes P (act evaluate ret base (.ptrDiff stride)) := by
  have pushed : Pushes P (do
      let b := Address.decode (← pop).bits
      let a := Address.decode (← pop).bits
      push (.int ((a.index.toInt64 - b.index.toInt64) / (if stride < 1 then 1 else stride))) : Exec η Unit) :=
    .bind fun _ => .bind fun _ => .push (h _)
  exact pushed

end Instructions

end IncrementalC.Exec
