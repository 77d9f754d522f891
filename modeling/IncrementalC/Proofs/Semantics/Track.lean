import IncrementalC.Proofs.Machine.Fuel
import IncrementalC.Proofs.Semantics.Evaluation

/-!
# Runs inside a stretch of code

A `Track` is a stretch of the code of a function that is active, and what surrounds it. `Track.at_`
is the world in which the function stands at an instruction of it. `Leads` and `Fails` say where the
machine comes to from there, and `Ends` compares that with a computation on memory alone: the same
values on the operand stack and the same memory, or the same fault, unless the instructions run out.
-/
namespace IncrementalC
set_option autoImplicit false

/-- A stretch of linked code, and the world around it. -/
structure Track (η : Type) where
  evaluate : List Value → Exec η Value
  /-- The active functions below. -/
  below : List Frame
  frame : Frame
  stretch : Segment
  host : η
  /-- The machine at the time when the code was linked, with the addresses of the string literals. -/
  linked : Machine
  strings : Array UInt64

namespace Track

variable {η α β : Type} (σ : Track η)

/-- The function stands at `ip` above some operands, and `n` instructions were counted. -/
def at_ (m : Machine) (os : List Value) (n ip : Nat) : World η :=
  ⟨{ m with
    frames := (σ.below ++ [{ σ.frame with ip }]).toArray
    operands := os
    instructionCount := n }, σ.host⟩

/-- The machine gets from one world to another without leaving the stretch. -/
inductive Leads : World η → World η → Prop
  | refl (w : World η) : Leads w w
  | step {w w' w'' : World η} (inside : σ.stretch.holds σ.below.length w.machine)
      (run : Exec.next σ.evaluate w = .ok () w') (rest : Leads w' w'') : Leads w w''

/-- The machine gets to an instruction of the stretch that fails. -/
inductive Fails : World η → MachineError → World η → Prop
  | here {w w' : World η} {e : MachineError} (inside : σ.stretch.holds σ.below.length w.machine)
      (run : Exec.next σ.evaluate w = .error e w') : Fails w e w'
  | step {w w' w'' : World η} {e : MachineError} (inside : σ.stretch.holds σ.below.length w.machine)
      (run : Exec.next σ.evaluate w = .ok () w') (rest : Fails w' e w'') : Fails w e w''

variable {σ}

theorem Leads.trans {w w' w'' : World η} (h : σ.Leads w w') (h' : σ.Leads w' w'') : σ.Leads w w'' := by
  induction h with
  | refl w => exact h'
  | step inside run _ ih => exact .step inside run (ih h')

theorem Leads.fails {w w' w'' : World η} {e : MachineError} (h : σ.Leads w w') (h' : σ.Fails w' e w'') :
    σ.Fails w e w'' := by
  induction h with
  | refl w => exact h'
  | step inside run _ ih => exact .step inside run (ih h')

section Loop

variable (steady : ∀ args, Exec.Steady (σ.evaluate args))
include steady

theorem Leads.runWhile_eq {w w' : World η} (h : σ.Leads w w') :
    Exec.runWhile σ.evaluate (σ.stretch.holds σ.below.length) w =
      Exec.runWhile σ.evaluate (σ.stretch.holds σ.below.length) w' := by
  induction h with
  | refl w => rfl
  | step inside run _ ih => rw [Exec.runWhile_step steady Exec.holds_active inside run, ih]

theorem Leads.runWhile {w w' : World η} (h : σ.Leads w w')
    (out : σ.stretch.holds σ.below.length w'.machine = false) :
    Exec.runWhile σ.evaluate (σ.stretch.holds σ.below.length) w = .ok () w' := by
  rw [h.runWhile_eq steady, Exec.runWhile_stop steady Exec.holds_active out]

theorem Fails.runWhile {w w' : World η} {e : MachineError} (h : σ.Fails w e w') :
    Exec.runWhile σ.evaluate (σ.stretch.holds σ.below.length) w = .error e w' := by
  induction h with
  | here inside run => exact Exec.runWhile_error steady Exec.holds_active inside run
  | step inside run _ ih => rw [Exec.runWhile_step steady Exec.holds_active inside run, ih]

end Loop

/-! ## Single instructions -/

theorem frames_at (m : Machine) (os : List Value) (n ip : Nat) :
    (σ.at_ m os n ip).machine.frames.toList = σ.below ++ [{ σ.frame with ip }] := rfl

theorem holds_at (m : Machine) (os : List Value) (n ip : Nat) :
    σ.stretch.holds σ.below.length (σ.at_ m os n ip).machine ↔ σ.stretch.first ≤ ip ∧ ip < σ.stretch.last := by
  rw [Exec.holds_iff (frames_at m os n ip)]
  exact or_iff_right fun h => h rfl

theorem goto_at (m : Machine) (os : List Value) (n ip ip' : Nat) :
    (σ.at_ m os n ip).goto ip' = σ.at_ m os n ip' := by
  have frames : ((σ.at_ m os n ip).machine.goto ip').frames = (σ.at_ m os n ip').machine.frames :=
    Array.toList_inj.mp (Machine.goto_frames (f := { σ.frame with ip }) (frames_at m os n ip) ip')
  show (⟨{ (σ.at_ m os n ip).machine with frames := ((σ.at_ m os n ip).machine.goto ip').frames },
    σ.host⟩ : World η) = _
  rw [frames]
  rfl

theorem next_at (m : Machine) (os : List Value) (n : Nat) {ip : Nat} {i : Instr}
    (found : σ.frame.function.code[ip]? = some i) :
    Exec.next σ.evaluate (σ.at_ m os n ip) =
      if m.maxInstructions < n + 1 then
        .error { fault := .instructionLimit m.maxInstructions } (σ.at_ m os (n + 1) (ip + 1))
      else Exec.act σ.evaluate σ.frame.function.ret σ.frame.base i (σ.at_ m os (n + 1) (ip + 1)) := by
  have moved : Exec.advanced (σ.at_ m os n ip) (ip + 1) = σ.at_ m os (n + 1) (ip + 1) := by
    rw [← goto_at m os (n + 1) ip (ip + 1)]
    rfl
  rw [Exec.next_eq (frames_at m os n ip), Exec.step_eq (f := { σ.frame with ip }) found, moved]
  rfl

/-! ## Runs and computations -/

variable (σ)

/-- The memory is that of `m`. -/
def Holds (w : World η) (m : Machine) : Prop :=
  w.machine.globals = m.globals ∧ w.machine.stack = m.stack

/-- The limit is below `n`, and it is reached. -/
def Exhausted (w : World η) (limit n : Nat) : Prop :=
  limit < n ∧ ∃ w', σ.Fails w { fault := .instructionLimit limit } w'

/-- What a computation on the memory of `m` comes to, compared with what the machine does in `w`: it is to
stand at `ip` with the results above `os`, after at most `n` instructions. -/
def Ends (w : World η) (m : Machine) (os : List Value) (ip n : Nat) (out : α → List Value) :
    EStateM.Result Abort Machine α → Prop
  | .ok x m' => m'.maxInstructions = m.maxInstructions ∧
    ((∃ k, k ≤ n ∧ σ.Leads w (σ.at_ m' (out x ++ os) k ip)) ∨ σ.Exhausted w m.maxInstructions n)
  | .error (.fault e) m' =>
    (∃ w', σ.Fails w { fault := e } w' ∧ Holds w' m') ∨ σ.Exhausted w m.maxInstructions n
  | .error .meaningless _ => True

variable {σ} {w w' : World η} {m m' : Machine} {os xs : List Value} {ip n k : Nat} {out : α → List Value}

theorem Leads.exhausted {limit : Nat} (h : σ.Leads w w') (h' : σ.Exhausted w' limit n) :
    σ.Exhausted w limit n := by
  obtain ⟨less, w'', fails⟩ := h'
  exact ⟨less, w'', h.fails fails⟩

theorem Exhausted.mono {limit n' : Nat} (h : σ.Exhausted w limit n) (le : n ≤ n') : σ.Exhausted w limit n' :=
  ⟨Nat.lt_of_lt_of_le h.1 le, h.2⟩

namespace Ends

/-- Something happens before. -/
theorem after {r : EStateM.Result Abort Machine α} (leads : σ.Leads w w')
    (limit : m'.maxInstructions = m.maxInstructions) (h : σ.Ends w' m' os ip n out r) :
    σ.Ends w m os ip n out r := by
  cases r with
  | ok x m'' =>
    obtain ⟨same, ⟨k, le, rest⟩ | exhausted⟩ := h
    · exact ⟨same.trans limit, .inl ⟨k, le, leads.trans rest⟩⟩
    · rw [limit] at exhausted
      exact ⟨same.trans limit, .inr (leads.exhausted exhausted)⟩
  | error e m'' =>
    cases e with
    | meaningless => trivial
    | fault e =>
      obtain ⟨w'', fails, memory⟩ | exhausted := h
      · exact .inl ⟨w'', leads.fails fails, memory⟩
      · rw [limit] at exhausted
        exact .inr (leads.exhausted exhausted)

/-- The instructions run out before anything else can happen. -/
theorem exhausted {w' : World η} {r : EStateM.Result Abort Machine α} (h : σ.Ends w' m' os ip n out r)
    (limit : m'.maxInstructions = m.maxInstructions) (exhausted : σ.Exhausted w m.maxInstructions n) :
    σ.Ends w m os ip n out r := by
  cases r with
  | ok x m'' => exact ⟨h.1.trans limit, .inr exhausted⟩
  | error e m'' =>
    cases e with
    | meaningless => trivial
    | fault e => exact .inr exhausted

theorem mono {r : EStateM.Result Abort Machine α} {n' : Nat} (h : σ.Ends w m os ip n out r) (le : n ≤ n') :
    σ.Ends w m os ip n' out r := by
  cases r with
  | ok x m'' =>
    obtain ⟨same, ⟨k, le', rest⟩ | exhausted⟩ := h
    · exact ⟨same, .inl ⟨k, Nat.le_trans le' le, rest⟩⟩
    · exact ⟨same, .inr (exhausted.mono le)⟩
  | error e m'' =>
    cases e with
    | meaningless => trivial
    | fault e => exact h.imp_right (·.mono le)

theorem bind {M : Eval α} {N : α → Eval β} {out' : β → List Value} {os' : List Value} {ip' n' : Nat}
    (first : σ.Ends w m os ip n out (M m)) (le : n ≤ n')
    (next : ∀ x m' k, M m = .ok x m' → k ≤ n →
      σ.Ends (σ.at_ m' (out x ++ os) k ip) m' os' ip' n' out' (N x m')) :
    σ.Ends w m os' ip' n' out' ((M >>= N) m) := by
  show σ.Ends w m os' ip' n' out' (EStateM.bind M N m)
  unfold EStateM.bind
  cases run : M m with
  | ok x m' =>
    rw [run] at first
    obtain ⟨limit, ⟨k, le', leads⟩ | exhausted⟩ := first
    · exact (next x m' k run le').after leads limit
    · exact (next x m' n run (Nat.le_refl n)).exhausted limit (exhausted.mono le)
  | error e m' =>
    rw [run] at first
    cases e with
    | meaningless => trivial
    | fault e => exact first.imp_right (·.mono le)

end Ends

/-! ## Single instructions of a computation -/

variable (σ)

/-- A computation on memory and a step of the machine come to the same. -/
def Matches (os : List Value) (n ip limit : Nat) (out : α → List Value) :
    EStateM.Result Abort Machine α → EStateM.Result MachineError (World η) Unit → Prop
  | .ok x m', r => m'.maxInstructions = limit ∧ r = .ok () (σ.at_ m' (out x ++ os) n ip)
  | .error (.fault e) m', r => ∃ w', r = .error { fault := e } w' ∧ Holds w' m'
  | .error .meaningless _, _ => True

/-- Wherever it stands, the instruction does with the values `xs` on the operand stack what the computation
says. -/
def Acts (i : Instr) (xs : List Value) (M : Eval α) (out : α → List Value) : Prop :=
  ∀ m os n ip, σ.Matches os n ip m.maxInstructions out (M m)
    (Exec.act σ.evaluate σ.frame.function.ret σ.frame.base i (σ.at_ m (xs ++ os) n ip))

variable {σ} {i : Instr}

section

variable (found : σ.frame.function.code[ip]? = some i) (inside : σ.stretch.first ≤ ip ∧ ip < σ.stretch.last)
include found inside

/-- An instruction that cannot fail, and what follows. -/
theorem Ends.step {r : EStateM.Result Abort Machine α} {os' : List Value} {ip' stop : Nat}
    (act : Exec.act σ.evaluate σ.frame.function.ret σ.frame.base i (σ.at_ m xs (k + 1) (ip + 1)) =
      .ok () (σ.at_ m' os' (k + 1) ip')) (limit : m'.maxInstructions = m.maxInstructions) (room : k + 1 ≤ n)
    (rest : σ.Ends (σ.at_ m' os' (k + 1) ip') m' os stop n out r) :
    σ.Ends (σ.at_ m xs k ip) m os stop n out r := by
  have next := next_at m xs k found
  have goes := (holds_at m xs k ip).mpr inside
  by_cases exceeded : m.maxInstructions < k + 1
  · rw [if_pos exceeded] at next
    exact rest.exhausted limit ⟨Nat.lt_of_lt_of_le exceeded room, _, .here goes next⟩
  · rw [if_neg exceeded, act] at next
    exact rest.after (.step goes next (.refl _)) limit

theorem Ends.act {M : Eval α} (acts : σ.Acts i xs M out) (room : k + 1 ≤ n) :
    σ.Ends (σ.at_ m (xs ++ os) k ip) m os (ip + 1) n out (M m) := by
  have act := acts m os (k + 1) (ip + 1)
  have next := next_at m (xs ++ os) k found
  have goes := (holds_at m (xs ++ os) k ip).mpr inside
  have exhausted (exceeded : m.maxInstructions < k + 1) :
      σ.Exhausted (σ.at_ m (xs ++ os) k ip) m.maxInstructions n := by
    rw [if_pos exceeded] at next
    exact ⟨Nat.lt_of_lt_of_le exceeded room, _, .here goes next⟩
  cases run : M m with
  | ok x m' =>
    rw [run] at act
    refine ⟨act.1, ?_⟩
    by_cases exceeded : m.maxInstructions < k + 1
    · exact .inr (exhausted exceeded)
    · rw [if_neg exceeded, act.2] at next
      exact .inl ⟨k + 1, room, .step goes next (.refl _)⟩
  | error e m' =>
    rw [run] at act
    cases e with
    | meaningless => trivial
    | fault e =>
      obtain ⟨w', act, memory⟩ := act
      by_cases exceeded : m.maxInstructions < k + 1
      · exact .inr (exhausted exceeded)
      · rw [if_neg exceeded, act] at next
        exact .inl ⟨w', .here goes next, memory⟩

end

/-- The result is there already. -/
theorem Ends.finish {x : α} {os' : List Value} (same : os' = out x ++ os) (le : k ≤ n) :
    σ.Ends (σ.at_ m os' k ip) m os ip n out (.ok x m) := by
  subst same
  exact ⟨rfl, .inl ⟨k, le, .refl _⟩⟩

/-! ## Jumps -/

theorem act_jump (target : Nat) : Exec.act σ.evaluate σ.frame.function.ret σ.frame.base (.jump target)
    (σ.at_ m os n ip) = .ok () (σ.at_ m os n target) :=
  congrArg (EStateM.Result.ok ()) (goto_at m os n ip target)

theorem act_jumpIfFalse (target : Nat) (v : Value) :
    Exec.act σ.evaluate σ.frame.function.ret σ.frame.base (.jumpIfFalse target) (σ.at_ m (v :: os) n ip) =
      .ok () (σ.at_ m os n (if v.isTruthy then ip else target)) := by
  show (if !v.isTruthy then Exec.modifyMachine (·.goto target) else pure ()) (σ.at_ m os n ip) = _
  cases v.isTruthy with
  | true => rfl
  | false => exact act_jump target

theorem act_jumpIfTrue (target : Nat) (v : Value) :
    Exec.act σ.evaluate σ.frame.function.ret σ.frame.base (.jumpIfTrue target) (σ.at_ m (v :: os) n ip) =
      .ok () (σ.at_ m os n (if v.isTruthy then target else ip)) := by
  show (if v.isTruthy then Exec.modifyMachine (·.goto target) else pure ()) (σ.at_ m os n ip) = _
  cases v.isTruthy with
  | true => exact act_jump target
  | false => rfl

/-! ## Instructions -/

/-- A value that needs no memory. -/
theorem Acts.pure {v : List Value} (act : ∀ m os n ip, Exec.act σ.evaluate σ.frame.function.ret σ.frame.base i
    (σ.at_ m (xs ++ os) n ip) = .ok () (σ.at_ m (v ++ os) n ip)) : σ.Acts i xs (Pure.pure ()) fun _ => v :=
  fun m os n ip => ⟨rfl, act m os n ip⟩

section Matches

variable {limit : Nat}

theorem Matches.bind {M : Eval α} {N : α → Eval β} {out' : β → List Value} {A B : Exec η Unit}
    (first : σ.Matches os n ip limit out (M m) (A w))
    (next : ∀ x m', m'.maxInstructions = limit →
      σ.Matches os n ip limit out' (N x m') (B (σ.at_ m' (out x ++ os) n ip))) :
    σ.Matches os n ip limit out' ((M >>= N) m) ((A >>= fun _ => B) w) := by
  show σ.Matches os n ip limit out' (EStateM.bind M N m) (EStateM.bind A (fun _ => B) w)
  unfold EStateM.bind
  cases run : M m with
  | ok x m' =>
    rw [run] at first
    rw [first.2]
    exact next x m' first.1
  | error e m' =>
    rw [run] at first
    cases e with
    | meaningless => trivial
    | fault e =>
      obtain ⟨w', same, memory⟩ := first
      rw [same]
      exact ⟨w', rfl, memory⟩

/-- Both go on with the same value, or fail. -/
theorem Matches.ofExcept {x : Except Fault β} {N : β → Eval α} {B : β → Exec η Unit} (memory : Holds w m)
    (next : ∀ v, σ.Matches os n ip limit out (N v m) (B v w)) :
    σ.Matches os n ip limit out ((Eval.ofExcept x >>= N) m) ((Exec.ofExcept x >>= B) w) := by
  cases x with
  | ok v => exact next v
  | error f => exact ⟨w, rfl, memory⟩

end Matches

theorem put_at (bits : UInt64) (v : Value) :
    (⟨(σ.at_ m os n ip).machine.put bits v, σ.host⟩ : World η) = σ.at_ (m.put bits v) os n ip := by
  unfold Machine.put
  dsimp only
  cases (Address.decode bits).region <;> rfl

theorem maxInstructions_put (bits : UInt64) (v : Value) :
    (m.put bits v).maxInstructions = m.maxInstructions := by
  unfold Machine.put
  dsimp only
  cases (Address.decode bits).region <;> rfl

theorem matches_store (m : Machine) (os : List Value) (n ip : Nat) (p v : Value) :
    σ.Matches os n ip m.maxInstructions (fun _ => []) (Eval.store p v m)
    (Exec.store p.bits v (σ.at_ m os n ip)) := by
  have act : Exec.store p.bits v (σ.at_ m os n ip) = (if m.isMapped p.bits then
      Exec.modifyMachine (·.put p.bits v) else Exec.fail (Machine.badAddress p.bits)) (σ.at_ m os n ip) := rfl
  have store : Eval.store p v m = (do set (← Eval.ofExcept (m.write p.bits v)) : Eval Unit) m := rfl
  rw [act, store]
  unfold Machine.write
  cases m.isMapped p.bits with
  | true => exact ⟨maxInstructions_put _ _, congrArg (EStateM.Result.ok ()) (put_at _ _)⟩
  | false => exact ⟨_, rfl, rfl, rfl⟩

theorem slotsFrom_at (count : Nat) (a : Address) (found : List Value) :
    (σ.at_ m os n ip).machine.slotsFrom count a found = m.slotsFrom count a found := by
  induction count generalizing a found with
  | zero => rfl
  | succ count ih =>
    have read : (σ.at_ m os n ip).machine.read a.encode = m.read a.encode := rfl
    unfold Machine.slotsFrom
    rw [read]
    cases m.read a.encode with
    | error f => rfl
    | ok v => exact ih _ _

theorem matches_storeAll (m : Machine) (os : List Value) (n ip : Nat) (a : Address) (vs : List Value) :
    σ.Matches os n ip m.maxInstructions (fun _ => []) (Eval.storeAll a vs m)
      (Exec.storeAll a vs (σ.at_ m os n ip)) := by
  induction vs generalizing a m with
  | nil => exact ⟨rfl, rfl⟩
  | cons v vs ih =>
    refine Matches.bind (matches_store m os n ip (.ptr a.encode) v) fun u m' limit => ?_
    rw [← limit]
    exact ih m' _

theorem acts_pushInt (v : Int64) : σ.Acts (.pushInt v) [] (pure ()) fun _ => [.int v] :=
  .pure fun _ _ _ _ => rfl

theorem acts_pushPtr (p : UInt64) : σ.Acts (.pushPtr p) [] (pure ()) fun _ => [.ptr p] :=
  .pure fun _ _ _ _ => rfl

theorem acts_localAddr (slot : Nat) : σ.Acts (.localAddr slot) [] (pure ())
    fun _ => [.ptr (Address.stack (σ.frame.base + slot)).encode] :=
  .pure fun _ _ _ _ => rfl

theorem acts_dup (v : Value) : σ.Acts .dup [v] (pure ()) fun _ => [v, v] := .pure fun _ _ _ _ => rfl

theorem acts_pop (v : Value) : σ.Acts .pop [v] (pure ()) fun _ => [] := .pure fun _ _ _ _ => rfl

theorem acts_convert (s t : Scalar) (v : Value) : σ.Acts (.convert s t) [v] (pure ()) fun _ => [v.convert s t] :=
  .pure fun _ _ _ _ => rfl

theorem acts_ptrAdd (stride : Int64) (v p : Value) :
    σ.Acts (.ptrAdd stride) [v, p] (pure ()) fun _ => [Eval.moved p (v.word * stride)] :=
  .pure fun _ _ _ _ => rfl

theorem acts_ptrDiff (stride : Int64) (q p : Value) :
    σ.Acts (.ptrDiff stride) [q, p] (pure ()) fun _ =>
      [.int (((Address.decode p.bits).index.toInt64 - (Address.decode q.bits).index.toInt64) /
        (if stride < 1 then 1 else stride))] :=
  .pure fun _ _ _ _ => rfl

theorem acts_globalAddr (name : String) :
    σ.Acts (.globalAddr name) [] (Eval.currentAddress name) fun v => [v] := by
  intro m os n ip
  show σ.Matches os n ip m.maxInstructions _ (Eval.currentAddress name m)
    (Exec.instr σ.frame.function.ret σ.frame.base (.globalAddr name) (σ.at_ m os n ip))
  cases found : m.objectAddress? name with
  | some p =>
    rw [Eval.currentAddress_known found, Exec.globalAddr_known (w := σ.at_ m os n ip) found]
    exact ⟨rfl, rfl⟩
  | none =>
    rw [Eval.currentAddress_unknown found, Exec.globalAddr_unknown (w := σ.at_ m os n ip) found]
    exact ⟨_, rfl, rfl, rfl⟩

/-- What is computed without memory. -/
theorem acts_ofExcept {x : Except Fault Value}
    (act : ∀ m os n ip, Exec.act σ.evaluate σ.frame.function.ret σ.frame.base i (σ.at_ m (xs ++ os) n ip) =
      (do Exec.push (← Exec.ofExcept x)) (σ.at_ m os n ip)) : σ.Acts i xs (Eval.ofExcept x) fun v => [v] := by
  intro m os n ip
  rw [act m os n ip]
  cases x with
  | ok v => exact ⟨rfl, rfl⟩
  | error f => exact ⟨_, rfl, rfl, rfl⟩

theorem acts_binary (op : Code.BinaryOp) (k : Scalar) (a b : Value) :
    σ.Acts (.binary op k) [b, a] (Eval.ofExcept (Operation.binary op k a b)) fun v => [v] :=
  acts_ofExcept fun _ _ _ _ => rfl

theorem acts_unary (op : Code.UnaryOp) (k : Scalar) (a : Value) :
    σ.Acts (.unary op k) [a] (Eval.ofExcept (Operation.unary op k a)) fun v => [v] :=
  acts_ofExcept fun _ _ _ _ => rfl

theorem acts_load (k : Scalar) (p : Value) : σ.Acts (.load k) [p] (Eval.load k p) fun v => [v] :=
  fun m os n ip => Matches.ofExcept (x := m.read p.bits) (w := σ.at_ m os n ip) ⟨rfl, rfl⟩ fun _ => ⟨rfl, rfl⟩

theorem acts_store (k : Scalar) (v p : Value) :
    σ.Acts (.store k) [v, p] (Eval.store p (v.coerce k)) fun _ => [v.coerce k] := by
  intro m os n ip
  have stored : σ.Matches os n ip m.maxInstructions (fun _ => [v.coerce k])
      ((Eval.store p (v.coerce k) >>= pure) m)
      ((Exec.store p.bits (v.coerce k) >>= fun _ => Exec.push (v.coerce k)) (σ.at_ m os n ip)) :=
    .bind (matches_store m os n ip p (v.coerce k)) fun _ _ limit => ⟨limit, rfl⟩
  rwa [bind_pure] at stored

theorem acts_copySlots (count : Nat) (q p : Value) :
    σ.Acts (.copySlots count) [q, p] (Eval.copy count p q) fun _ => [p] := by
  intro m os n ip
  have act : Exec.act σ.evaluate σ.frame.function.ret σ.frame.base (.copySlots count)
      (σ.at_ m ([q, p] ++ os) n ip) = (do
        let values ← Exec.ofExcept ((σ.at_ m os n ip).machine.slotsFrom count (Address.decode q.bits) [])
        Exec.storeAll (Address.decode p.bits) values
        Exec.push p) (σ.at_ m os n ip) := rfl
  rw [act, slotsFrom_at]
  refine Matches.ofExcept (x := m.slotsFrom count (Address.decode q.bits) []) ⟨rfl, rfl⟩ fun values => ?_
  have stored : σ.Matches os n ip m.maxInstructions (fun _ => [p])
      ((Eval.storeAll (Address.decode p.bits) values >>= pure) m)
      ((Exec.storeAll (Address.decode p.bits) values >>= fun _ => Exec.push p) (σ.at_ m os n ip)) :=
    .bind (matches_storeAll m os n ip _ values) fun _ _ limit => ⟨limit, rfl⟩
  rwa [bind_pure] at stored

theorem load_bind (k : Scalar) (p : Value) (N : Value → Eval α) :
    (Eval.load k p >>= N) m = (Eval.ofExcept (m.read p.bits) >>= fun v => N (v.coerce k)) m := by
  have load : Eval.load k p m = (Eval.ofExcept (m.read p.bits) >>= fun v => pure (v.coerce k)) m := rfl
  show EStateM.bind (Eval.load k p) N m = EStateM.bind _ _ m
  unfold EStateM.bind
  rw [load]
  cases m.read p.bits <;> rfl

theorem acts_incDec (k : Scalar) (amount : Int64) (post : Bool) (p : Value) :
    σ.Acts (.incDec k amount post) [p]
      (do let old ← Eval.load k p
          let new := Operation.increment k old amount
          Eval.store p new
          return if post then old else new) fun v => [v] := by
  intro m os n ip
  rw [load_bind]
  show σ.Matches os n ip m.maxInstructions _ _ ((Exec.ofExcept (m.read p.bits) >>= fun v => do
      let new := Operation.increment k (v.coerce k) amount
      Exec.store p.bits new
      Exec.push (if post then v.coerce k else new)) (σ.at_ m os n ip))
  refine Matches.ofExcept ⟨rfl, rfl⟩ fun v => ?_
  exact .bind (matches_store m os n ip p _) fun _ _ limit => ⟨limit, rfl⟩

end Track
end IncrementalC
