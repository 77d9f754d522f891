import IncrementalC.Machine.Run
import IncrementalC.Proofs.Machine.Linked

/-!
# Instructions and the operand stack

First what the parts of a step come to in a world that is known: what they find, take or refuse.

`Moves S n k m`: on an operand stack of height `n` the step `m` leaves one of height `k`, or fails for
want of something else than operands. The active functions stay as they are, and all functions fit.
Each instruction without jumps moves as `takes` and `gives` say (`moves_instr`).
-/
namespace IncrementalC.Exec
set_option autoImplicit false

variable {η α β : Type} {S : Signatures} {n k l : Nat}

/-! ## What the parts of a step come to -/

theorem run_get (f : World η → Exec η β) (w : World η) : (MonadState.get >>= f) w = f w w := rfl

theorem run_machine (f : Machine → Exec η β) (w : World η) : (machine >>= f) w = f w.machine w := rfl

theorem run_ok {m : Exec η α} {w w' : World η} {x : α} (run : m w = .ok x w') (f : α → Exec η β) :
    (m >>= f) w = f x w' := by
  show EStateM.bind m f w = _
  unfold EStateM.bind
  rw [run]

theorem run_error {m : Exec η α} {w w' : World η} {e : MachineError} (run : m w = .error e w') (f : α → Exec η β) :
    (m >>= f) w = .error e w' := by
  show EStateM.bind m f w = _
  unfold EStateM.bind
  rw [run]

section

variable {w : World η} {v : Value} {rest : List Value} {f : CodeFunction}

theorem pop_cons (h : w.machine.operands = v :: rest) :
    pop w = .ok v { w with machine := { w.machine with operands := rest } } := by
  unfold pop
  rw [run_get, h]
  rfl

theorem pop_nil (h : w.machine.operands = []) : pop w = .error { fault := .operandUnderflow } w := by
  unfold pop
  rw [run_get, h]
  rfl

theorem findFunction_known {name : String} (found : w.machine.functions.get? name = some f) :
    findFunction name w = .ok f w := by
  unfold findFunction
  rw [run_machine, found]
  rfl

theorem findFunction_unknown {name : String} (missing : w.machine.functions.get? name = none) :
    findFunction name w = .error { fault := .undefinedFunction name } w := by
  unfold findFunction
  rw [run_machine, missing]
  rfl

theorem enter_accepted {args : List Value} (accepted : w.machine.refusal? f args.length = none) :
    enter f args w = .ok () { w with machine := w.machine.enter f args } := by
  unfold enter
  rw [run_machine, accepted]
  rfl

theorem enter_refused {args : List Value} {fault : Fault} (refused : w.machine.refusal? f args.length = some fault) :
    enter f args w = .error { fault } w := by
  unfold enter
  rw [run_machine, refused]
  rfl

/-- A function without a result leaves the stack alone. -/
theorem takeResult_void (void : f.ret = none) (w : World η) : takeResult f w = .ok none w := by
  unfold takeResult
  rw [void]
  rfl

theorem takeResult_cons (given : f.ret.isNone = false) (h : w.machine.operands = v :: rest) :
    takeResult f w = .ok (some v) { w with machine := { w.machine with operands := rest } } := by
  unfold takeResult
  rw [if_neg (Bool.not_eq_true _ ▸ given), run_get, h]
  rfl

theorem takeResult_nil (h : w.machine.operands = []) : takeResult f w = .ok none w := by
  unfold takeResult
  split
  · rfl
  · rw [run_get, h]
    rfl

theorem globalAddr_known {ret : Option Scalar} {base : Nat} {name : String} {p : UInt64}
    (found : w.machine.objectAddress? name = some p) : instr ret base (.globalAddr name) w = push (.ptr p) w := by
  unfold instr
  dsimp only
  rw [run_machine, found]

theorem globalAddr_unknown {ret : Option Scalar} {base : Nat} {name : String}
    (missing : w.machine.objectAddress? name = none) :
    instr ret base (.globalAddr name) w = .error { fault := .undefinedSymbol name } w := by
  unfold instr
  dsimp only
  rw [run_machine, missing]
  rfl

end

theorem builtin_library {b : Builtin} (other : b ≠ .setResult) (args : List Value) :
    (builtin b args : Exec η Unit) = (do
      let r ← ofExcept ((← machine).library b args)
      modifyMachine (·.emit r.2)
      push r.1) := by
  unfold builtin
  split
  · exact absurd rfl other
  · rfl

/-! ## Heights -/

/-- What a step in `w` may come to. -/
def MovedTo (S : Signatures) (w : World η) (k : Nat) : EStateM.Result MachineError (World η) α → Prop
  | .ok _ w' => TableFits S w'.machine.functions ∧ w'.machine.frames = w.machine.frames
      ∧ w'.machine.operands.length = k
  | .error e w' => TableFits S w'.machine.functions ∧ e.fault ≠ .operandUnderflow

def Moves (S : Signatures) (n k : Nat) (m : Exec η α) : Prop :=
  ∀ w : World η, TableFits S w.machine.functions → w.machine.operands.length = n →
    MovedTo S w k (m w)

theorem MovedTo.bind {m : Exec η α} {f : α → Exec η β} {w : World η} (first : MovedTo S w k (m w))
    (hf : ∀ x, Moves S k l (f x)) : MovedTo S w l ((m >>= f) w) := by
  show MovedTo S w l (EStateM.bind m f w)
  unfold EStateM.bind
  cases run : m w with
  | error e w' =>
    rw [run] at first
    exact first
  | ok x w' =>
    rw [run] at first
    have second : MovedTo S w' l (f x w') := hf x w' first.1 first.2.2
    dsimp only
    cases run' : f x w' with
    | error e w'' =>
      rw [run'] at second
      exact second
    | ok y w'' =>
      rw [run'] at second
      exact ⟨second.1, second.2.1.trans first.2.1, second.2.2⟩

namespace Moves

theorem pure (x : α) : Moves S n n (Pure.pure x : Exec η α) := fun _ table height => ⟨table, rfl, height⟩

theorem bind {m : Exec η α} {f : α → Exec η β} (hm : Moves S n k m) (hf : ∀ x, Moves S k l (f x)) :
    Moves S n l (m >>= f) :=
  fun w table height => (hm w table height).bind hf

theorem fail {f : Fault} (h : f ≠ .operandUnderflow) : Moves S n k (fail f : Exec η α) :=
  fun _ table _ => ⟨table, h⟩

theorem ofExcept {x : Except Fault α} (hx : Provided x) : Moves S n n (ofExcept x : Exec η α) := by
  cases x with
  | ok a => exact pure a
  | error f => exact fail (hx f rfl)

theorem ite {c : Prop} [Decidable c] {m m' : Exec η α} (h : Moves S n k m) (h' : Moves S n k m') :
    Moves S n k (if c then m else m') := by
  split
  · exact h
  · exact h'

/-- A step that changes nothing but memory and output. -/
theorem modifyMachine {f : Machine → Machine} (functions : ∀ m, (f m).functions = m.functions)
    (frames : ∀ m, (f m).frames = m.frames) (operands : ∀ m, (f m).operands = m.operands) :
    Moves S n n (modifyMachine f : Exec η Unit) := by
  intro w table height
  refine ⟨?_, frames _, ?_⟩
  · show TableFits S (f w.machine).functions
    rw [functions]
    exact table
  · show (f w.machine).operands.length = n
    rw [operands]
    exact height

/-- A step that looks at the machine. -/
theorem machine {f : Machine → Exec η β} (hf : ∀ m, Moves S n k (f m)) :
    Moves S n k (Exec.machine >>= f) :=
  fun w => hf w.machine w

/-! ## The operand stack -/

theorem push (v : Value) : Moves S n (n + 1) (push v : Exec η Unit) := by
  intro w table height
  refine ⟨table, rfl, ?_⟩
  show (v :: w.machine.operands).length = n + 1
  rw [List.length_cons, height]

theorem pop : Moves S (n + 1) n (pop : Exec η Value) := by
  intro w table height
  cases operands : w.machine.operands with
  | nil =>
    rw [operands] at height
    cases height
  | cons v rest =>
    rw [operands, List.length_cons] at height
    rw [pop_cons operands]
    exact ⟨table, rfl, Nat.succ.inj height⟩

theorem dup : Moves S (n + 1) (n + 2) (do
    match (← Exec.machine).operands with
    | v :: _ => Exec.push v
    | [] => Exec.fail .operandUnderflow : Exec η Unit) := by
  intro w table height
  rw [run_machine]
  cases operands : w.machine.operands with
  | nil =>
    rw [operands] at height
    cases height
  | cons v rest => exact push v w table height

theorem popList (c : Nat) : Moves S (n + c) n (popList c : Exec η (List Value)) := by
  intro w table height
  show MovedTo S w n ((if w.machine.operands.length < c then Exec.fail .operandUnderflow
    else do
      set { w with machine := { w.machine with operands := w.machine.operands.drop c } }
      return (w.machine.operands.take c).reverse : Exec η (List Value)) w)
  rw [if_neg (by omega)]
  refine ⟨table, rfl, ?_⟩
  show (w.machine.operands.drop c).length = n
  rw [List.length_drop]
  omega

/-! ## Memory -/

theorem put_functions (m : Machine) (p : UInt64) (v : Value) : (m.put p v).functions = m.functions := by
  unfold Machine.put
  dsimp only
  split <;> rfl

theorem put_frames (m : Machine) (p : UInt64) (v : Value) : (m.put p v).frames = m.frames := by
  unfold Machine.put
  dsimp only
  split <;> rfl

theorem put_operands (m : Machine) (p : UInt64) (v : Value) : (m.put p v).operands = m.operands := by
  unfold Machine.put
  dsimp only
  split <;> rfl

theorem load (p : UInt64) : Moves S n n (load p : Exec η Value) :=
  machine fun m => ofExcept (m.mild_read p).ordinary.provided

theorem store (p : UInt64) (v : Value) : Moves S n n (store p v : Exec η Unit) := by
  refine machine fun m => ite ?_ (fail (Fault.ne_operandUnderflow (Fault.isMild_iff.mp (Machine.isMild_badAddress p)).1))
  exact modifyMachine (fun m => put_functions m p v) (fun m => put_frames m p v)
    fun m => put_operands m p v

theorem storeAll (a : Address) (vs : List Value) : Moves S n n (storeAll a vs : Exec η Unit) := by
  induction vs generalizing a with
  | nil => exact pure _
  | cons v vs ih => exact bind (store _ _) fun _ => ih _

theorem copySlots (count : Nat) : Moves S (n + 2) (n + 1) (copySlots count : Exec η Unit) := by
  refine bind (k := n + 1) pop fun source => bind pop fun target => machine fun m => ?_
  refine bind (ofExcept (m.mild_slotsFrom _ _ _).ordinary.provided) fun values => ?_
  exact bind (storeAll _ _) fun _ => push _

/-! ## Builtins -/

theorem builtin (b : Builtin) (args : List Value) :
    Moves S n (n + if b = .setResult then 0 else 1) (builtin b args : Exec η Unit) := by
  by_cases result : b = .setResult
  · subst result
    exact modifyMachine (f := fun m => { m with results := m.results.push (args.headD .void) })
      (fun _ => rfl) (fun _ => rfl) fun _ => rfl
  · rw [if_neg result, builtin_library result]
    refine machine fun m => bind (ofExcept (m.ordinary_library b args).provided) fun r => ?_
    exact bind (modifyMachine (fun _ => rfl) (fun _ => rfl) fun _ => rfl) fun _ => push _

end Moves

/-- The instruction takes and gives what its tables say. Templates are not evaluated here. -/
theorem moves_instr {i : Instr} (straight : i.isStraight) (ret : Option Scalar) (base : Nat) :
    Moves S (n + i.takes) (n + i.gives) (instr ret base i : Exec η Unit) := by
  cases i with
  | pushInt _ | pushFloat _ | pushPtr _ | localAddr _ => exact .push _
  | pushStr _ => exact .fail nofun
  | globalAddr name =>
    refine .machine fun m => ?_
    split
    · exact .push _
    · exact .fail nofun
  | load kind => exact .bind .pop fun p => .bind (.load _) fun v => .push _
  | store kind =>
    exact .bind (k := n + 1) .pop fun v => .bind .pop fun p => .bind (.store _ _) fun _ => .push _
  | copySlots count => exact .copySlots count
  | dup => exact .dup
  | pop => exact .bind .pop fun _ => .pure _
  | convert _ _ => exact .bind .pop fun v => .push _
  | binary op kind =>
    exact .bind (k := n + 1) .pop fun b => .bind .pop fun a =>
      .bind (.ofExcept (Operation.mild_binary _ _ _ _).ordinary.provided) fun v => .push _
  | unary op kind =>
    exact .bind .pop fun a => .bind (.ofExcept (Operation.mild_unary _ _ _).ordinary.provided) fun v => .push _
  | ptrAdd stride => exact .bind (k := n + 1) .pop fun i => .bind .pop fun p => .push _
  | ptrDiff stride => exact .bind (k := n + 1) .pop fun b => .bind .pop fun a => .push _
  | incDec kind amount post =>
    exact .bind .pop fun p => .bind (.load _) fun old => .bind (.store _ _) fun _ => .push _
  | builtin b argc => exact .bind (.popList argc) fun args => .builtin b args
  | printValue shape =>
    refine .bind .pop fun v => .machine fun m => .bind (.ofExcept (m.ordinary_render shape v).provided) fun t => ?_
    exact .modifyMachine (fun _ => rfl) (fun _ => rfl) fun _ => rfl
  | jump _ | jumpIfFalse _ | jumpIfTrue _ | call _ _ | «return» | returnVoid => cases straight

end IncrementalC.Exec
