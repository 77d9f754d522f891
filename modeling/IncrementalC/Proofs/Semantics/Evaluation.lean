import IncrementalC.Lowering.Basic
import IncrementalC.Machine.Basic
import IncrementalC.Machine.Operation

/-!
# Evaluating expressions

`Eval.run s e` evaluates an analysed expression on the memory of a machine, along the tree and without
code; `Eval.place s e` is the address of the object that `e` denotes. Operands are evaluated from left to
right, a pointer before the integer that it is moved by, and the target of an assignment before its
value.

A void expression has no value. Where one is taken all the same, and for calls, unknown names, parts of
dependent type and objects with more slots than code can count, the tree has no meaning.
-/
namespace IncrementalC
set_option autoImplicit false
open Typed (Expr Binding)

inductive Abort where
  | fault (f : Fault)
  | meaningless
deriving DecidableEq

abbrev Eval := EStateM Abort Machine

/-- What the names and the literals of an expression refer to. -/
structure Scene where
  types : TypeTable
  /-- The first slot of the frame. -/
  base : Nat
  /-- The machine at the time when the code was linked. -/
  linked : Machine

namespace Eval

variable {α : Type}

def meaningless : Eval α := throw .meaningless

def ofExcept (x : Except Fault α) : Eval α :=
  match x with
  | .ok a => return a
  | .error f => throw (.fault f)

theorem run_get {β : Type} (f : Machine → Eval β) (m : Machine) : (get >>= f) m = f m m := rfl

/-- The value of an expression that has one. -/
def value (x : Eval (Option Value)) : Eval Value := do
  match ← x with
  | some v => return v
  | none => meaningless

/-- Nothing is known of a dependent type. -/
def known (ty : Ty) (x : Eval α) : Eval α := if ty.isDependent then meaningless else x

/-- Code counts the slots of an object with 32 bits. -/
def counted (slots : Nat) (x : Eval α) : Eval α := if slots < UInt32.size then x else meaningless

/-! ## Memory -/

def load (kind : Scalar) (p : Value) : Eval Value := do
  return (← ofExcept ((← get).read p.bits)).coerce kind

def store (p v : Value) : Eval Unit := do set (← ofExcept ((← get).write p.bits v))

def storeAll : Address → List Value → Eval Unit
  | _, [] => return
  | a, v :: vs => do
    store (.ptr a.encode) v
    storeAll (a.offset 1) vs

/-- All slots are read before the first one is written. -/
def copy (count : Nat) (target source : Value) : Eval Unit := do
  let values ← ofExcept ((← get).slotsFrom count (Address.decode source.bits) [])
  storeAll (Address.decode target.bits) values

/-- What an object of the type is worth: a scalar what it holds, an aggregate its address. -/
def content (ty : Ty) (p : Value) : Eval Value :=
  if ty.isAggregate then return p else
  match ty.decay.scalar? with
  | some kind => load kind p
  | none => meaningless

/-! ## Values -/

/-- A value of type `source` as one of type `target`. Records are not converted. -/
def converted (source target : Ty) (v : Value) : Value :=
  match source.decay.scalar?, target.decay.scalar? with
  | some s, some t => v.convert s t
  | _, _ => v

/-- A pointer that is moved by a number of slots. -/
def moved (p : Value) (n : Int64) : Value := .ptr ((Address.decode p.bits).offset n).encode

/-- The value as a number of elements. -/
def steps (ty : Ty) (n : Value) : Int64 := (converted ty .long n).word

def distance (types : TypeTable) (elem : Ty) : Int64 := Int64.ofNat (types.stride elem)

/-- The distance of what a pointer of the type runs over. -/
def pointeeDistance (types : TypeTable) (ty : Ty) : Int64 := (ty.pointee?.map (distance types)).getD 1

/-- The type in which `op` acts on operands of types `a` and `b`. -/
def commonType (op : BinaryOp) (a b : Ty) : Ty :=
  if op.isComparison && (a.isPointer || b.isPointer) then .voidPtr
  else if a.isDynamic || b.isDynamic then .dynamic
  else Typed.operationType op a b

/-- An operator on values of types `a` and `b`, which are converted to the type `ty`. -/
def apply (op : BinaryOp) (ty a b : Ty) (u v : Value) : Eval Value :=
  match Lowering.machineOp? op, ty.decay.scalar? with
  | some op, some kind => ofExcept (Operation.binary op kind (converted a ty u) (converted b ty v))
  | _, _ => meaningless

/-! ## Operators -/

variable (s : Scene)

def logical (op : BinaryOp) (x y : Eval Value) : Eval Value := do
  let u ← x
  if u.isTruthy = decide (op = .or) then return .ofBool u.isTruthy
  else return .ofBool (← y).isTruthy

/-- A binary operator on operands of decayed types `a` and `b`. -/
def binary (op : BinaryOp) (a b : Ty) (x y : Eval Value) : Eval Value :=
  let arithmetic : Eval Value := do
    let u ← x
    let v ← y
    apply op (commonType op a b) a b u v
  match op with
  | .add =>
    if a.isPointer && b.isInteger then do
      let p ← x
      let n ← y
      return moved p (steps b n * pointeeDistance s.types a)
    else if a.isInteger && b.isPointer then do
      let p ← y
      let n ← x
      return moved p (steps a n * pointeeDistance s.types b)
    else arithmetic
  | .sub =>
    if a.isPointer && b.isInteger then do
      let p ← x
      let n ← y
      return moved p (-steps b n * pointeeDistance s.types a)
    else if a.isPointer && b.isPointer then
      counted ((a.pointee?.map s.types.slots).getD 0) do
        let p ← x
        let q ← y
        let between := (Address.decode p.bits).index.toInt64 - (Address.decode q.bits).index.toInt64
        return .int (between / pointeeDistance s.types a)
    else arithmetic
  | _ => arithmetic

/-- The place of an array element; one operand is a pointer. -/
def element (elem a b : Ty) (x y : Eval Value) : Eval Value :=
  if a.isPointerLike then do
    let p ← x
    let n ← y
    return moved p (steps b n * distance s.types elem)
  else do
    let p ← y
    let n ← x
    return moved p (steps a n * distance s.types elem)

/-- The place of a field. The first one lies where its record lies. -/
def member (record : Option Ty) (field : String) (p : Value) : Eval Value :=
  match record with
  | some (.record id) =>
    match (s.types.record? id).bind (·.field? field) with
    | some f => return if 0 < f.slot then moved p (Int64.ofNat f.slot) else p
    | none => meaningless
  | _ => meaningless

variable {s} in
theorem member_known {id : RecordId} {field : String} {f : Field}
    (found : (s.types.record? id).bind (·.field? field) = some f) (p : Value) :
    member s (some (.record id)) field p = pure (if 0 < f.slot then moved p (Int64.ofNat f.slot) else p) := by
  unfold member
  dsimp only
  rw [found]

/-- Assigns to an object of type `a`. -/
def assign (a b : Ty) (target x : Eval Value) : Eval Value :=
  if a.isRecord then
    counted (s.types.slots a) do
      let p ← target
      let q ← x
      copy (s.types.slots a) p q
      return p
  else match a.decay.scalar? with
    | some kind => do
      let p ← target
      let v ← x
      let v := (converted b a v).coerce kind
      store p v
      return v
    | none => meaningless

/-- What `op` makes of the old value of an object of type `a`. -/
def update (op : BinaryOp) (a b : Ty) (old v : Value) : Eval Value :=
  if a.isPointer then
    let back : Bool := op = .sub
    return moved old ((if back then -steps b v else steps b v) * pointeeDistance s.types a)
  else do
    let ty := Typed.operationType op a b
    return converted ty a (← apply op ty a b old v)

def compound (op : BinaryOp) (a b : Ty) (target x : Eval Value) : Eval Value :=
  match a.decay.scalar? with
  | some kind => do
    let p ← target
    let old ← load kind p
    let v ← x
    let new := (← update s op a b old v).coerce kind
    store p new
    return new
  | none => meaningless

def increment (ty : Ty) (up post : Bool) (target : Eval Value) : Eval Value :=
  match ty.decay.scalar? with
  | some kind => do
    let p ← target
    let old ← load kind p
    let unit := if ty.isPointer then pointeeDistance s.types ty else 1
    let new := Operation.increment kind old (if up then unit else -unit)
    store p new
    return if post then old else new
  | none => meaningless

/-- A unary operator on a value of the type. -/
def unary (op : Code.UnaryOp) (ty : Ty) (v : Value) : Eval Value :=
  let promoted := ty.decay.promote
  match promoted.scalar? with
  | some kind => ofExcept (Operation.unary op kind (converted ty promoted v))
  | none => meaningless

/-- A branch of a conditional expression. -/
def branch (target ty : Ty) (x : Eval (Option Value)) : Eval (Option Value) := do
  if target.isVoid then
    let _ ← x
    return none
  else return converted ty target (← value x)

def currentAddress (name : String) : Eval Value := do
  match (← get).objectAddress? name with
  | some p => return .ptr p
  | none => throw (.fault (.undefinedSymbol name))

theorem currentAddress_known {name : String} {m : Machine} {p : UInt64} (found : m.objectAddress? name = some p) :
    currentAddress name m = .ok (.ptr p) m := by
  unfold currentAddress
  rw [run_get, found]
  rfl

theorem currentAddress_unknown {name : String} {m : Machine} (missing : m.objectAddress? name = none) :
    currentAddress name m = .error (.fault (.undefinedSymbol name)) m := by
  unfold currentAddress
  rw [run_get, missing]
  rfl

/-- Code refers to an object where it lay when the code was linked, if it was known then. -/
def objectAddress (name : String) : Eval Value :=
  match s.linked.objectAddress? name with
  | some p => return .ptr p
  | none => currentAddress name

variable {s} in
theorem objectAddress_linked {name : String} {p : UInt64} (found : s.linked.objectAddress? name = some p) :
    objectAddress s name = pure (.ptr p) := by
  unfold objectAddress
  rw [found]

variable {s} in
theorem objectAddress_later {name : String} (missing : s.linked.objectAddress? name = none) :
    objectAddress s name = currentAddress name := by
  unfold objectAddress
  rw [missing]

def variableAddress : Binding → Eval Value
  | .local slot => return .ptr (Address.stack (s.base + slot)).encode
  | .global name => objectAddress s name
  | _ => meaningless

/-- The address of a string literal, which linking has given a place. -/
def literal (text : String) : Value := .ptr ((s.linked.strings.get? text).getD 0)

/-! ## Expressions -/

mutual

def place : Expr → Eval Value
  | .ident _ _ binding => variableAddress s binding
  | .unary _ .deref e => value (run e)
  | .index i base index => element s i.ty base.ty index.ty (value (run base)) (value (run index))
  | .member _ base field true => do member s base.ty.decay.pointee? field (← value (run base))
  | .member _ base field false => do member s base.ty field (← place base)
  | .str _ text => return literal s text
  | _ => meaningless

/-- The value of the expression, if it has one. -/
def run : Expr → Eval (Option Value)
  | .int i v _ => known i.ty do return some (.int (Int64.ofNat v))
  | .float i x single => known i.ty do return some (.float (if single then x.roundSingle else x))
  | .char i c => known i.ty do return some (.int (Int64.ofNat c))
  | .bool i b => known i.ty do return some (.ofBool b)
  | .null i => known i.ty do return some (.ptr 0)
  | .str i text => known i.ty do return some (literal s text)
  | .ident i _ (.enumConst v) => known i.ty do return some (.int v)
  | .ident i _ binding => known i.ty do return some (← content i.ty (← variableAddress s binding))
  | .unary i op e => known i.ty do
    match op with
    | .plus => return some (converted e.ty e.ty.decay.promote (← value (run e)))
    | .neg => return some (← unary .neg e.ty (← value (run e)))
    | .bitNot => return some (← unary .bitNot e.ty (← value (run e)))
    | .not => return some (.ofBool !(← value (run e)).isTruthy)
    | .deref => return some (← content i.ty (← value (run e)))
    | .addrOf => return some (← place e)
    | .preInc => return some (← increment s e.ty true false (place e))
    | .preDec => return some (← increment s e.ty false false (place e))
    | .postInc => return some (← increment s e.ty true true (place e))
    | .postDec => return some (← increment s e.ty false true (place e))
  | .binary i op x y => known i.ty do
    if op.isLogical then return some (← logical op (value (run x)) (value (run y)))
    else return some (← binary s op x.ty.decay y.ty.decay (value (run x)) (value (run y)))
  | .assign i op x y => known i.ty do
    match op with
    | none => return some (← assign s x.ty y.ty (place x) (value (run y)))
    | some op => return some (← compound s op x.ty y.ty.decay (place x) (value (run y)))
  | .conditional i c x y => known i.ty do
    if (← value (run c)).isTruthy then branch i.ty x.ty (run x) else branch i.ty y.ty (run y)
  | .index i base index => known i.ty do
    let p ← element s i.ty base.ty index.ty (value (run base)) (value (run index))
    return some (← content i.ty p)
  | .member i base field true => known i.ty do
    let p ← member s base.ty.decay.pointee? field (← value (run base))
    return some (← content i.ty p)
  | .member i base field false => known i.ty do
    let p ← member s base.ty field (← place base)
    return some (← content i.ty p)
  | .cast i target e => known i.ty (branch target e.ty (run e))
  | .sizeofType i target => known i.ty do return some (.int (Int64.ofNat ((s.types.size? target).getD 0)))
  | .sizeofExpr i e => known i.ty do return some (.int (Int64.ofNat ((s.types.size? e.ty).getD 0)))
  | .comma i x y => known i.ty do
    let _ ← run x
    run y
  | .call .. | .invalid _ => meaningless

end

end Eval

end IncrementalC
