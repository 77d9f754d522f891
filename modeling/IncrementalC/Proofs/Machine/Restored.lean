import IncrementalC.Proofs.Machine.Present

/-!
# Calls restore the active functions and the stack

The frames of the functions that a call makes active lie one behind the other on the stack, from its old height up to the
present one (`Machine.Above`). Every instruction keeps this, whether or not it fails (`step_above`), and so does the loop
(`run_above`). Hence a call comes back to the functions that were active before it and to a stack of the same height; after
an error the operand stack is not higher either (`call_restores`).

The evaluation of templates is a parameter here, an `Evaluator`, which may link modules, call functions and remove functions
(`Evaluator.Confined`). That of a host is of this kind (`confined_hosted`).
-/
namespace IncrementalC
set_option autoImplicit false

variable {η α β : Type}

namespace Machine

/-! ## Frames on the stack -/

/-- The frames, the outermost first, fill the stack between two slots. -/
def Levels (low : Nat) : List Frame → Nat → Prop
  | [], high => high = low
  | f :: fs, high => f.base = low ∧ Levels (low + frameSize f.function) fs high

theorem levels_append {low high : Nat} {fs gs : List Frame} :
    Levels low (fs ++ gs) high ↔ ∃ mid, Levels low fs mid ∧ Levels mid gs high := by
  induction fs generalizing low with
  | nil =>
    constructor
    · exact fun h => ⟨low, rfl, h⟩
    · rintro ⟨mid, rfl, h⟩
      exact h
  | cons f fs ih =>
    constructor
    · rintro ⟨base, h⟩
      obtain ⟨mid, first, last⟩ := ih.mp h
      exact ⟨mid, ⟨base, first⟩, last⟩
    · rintro ⟨mid, ⟨base, first⟩, last⟩
      exact ⟨base, ih.mpr ⟨mid, first, last⟩⟩

theorem Levels.le {low high : Nat} {fs : List Frame} (h : Levels low fs high) : low ≤ high := by
  induction fs generalizing low with
  | nil => exact Nat.le_of_eq h.symm
  | cons f fs ih => exact Nat.le_trans (Nat.le_add_right _ _) (ih h.2)

/-- A frame takes as many slots as it needs, whatever arguments it gets. -/
theorem size_frameValues (f : CodeFunction) (args : List Value) : (frameValues f args).size = frameSize f := by
  have given : min args.length f.params.length ≤ frameSize f :=
    Nat.le_trans (Nat.min_le_right _ _) (Nat.le_max_right _ _)
  unfold frameValues
  dsimp only
  rw [Array.size_append, Array.size_replicate, List.size_toArray, List.length_map, List.length_zip]
  omega

variable {pre fs : List Frame} {f : Frame} {low : Nat} {m m' : Machine}

/-- The frames in `fs` are the active ones above those in `pre`, and take the slots of the stack from `low` on. -/
structure Holds (pre : List Frame) (low : Nat) (fs : List Frame) (m : Machine) : Prop where
  frames : m.frames.toList = pre ++ fs
  levels : Levels low fs m.stack.size

def Above (pre : List Frame) (low : Nat) (m : Machine) : Prop := ∃ fs, Holds pre low fs m

/-- The same functions are active, on a stack of the same height. -/
structure SameControl (m m' : Machine) : Prop where
  frames : m'.frames = m.frames
  stack : m'.stack.size = m.stack.size

theorem SameControl.trans {m'' : Machine} (h : SameControl m m') (h' : SameControl m' m'') : SameControl m m'' :=
  ⟨h'.frames.trans h.frames, h'.stack.trans h.stack⟩

theorem Holds.same (h : Holds pre low fs m) (same : SameControl m m') : Holds pre low fs m' where
  frames := same.frames ▸ h.frames
  levels := same.stack ▸ h.levels

theorem Holds.goto (h : Holds pre low (fs ++ [f]) m) (ip : Nat) : Holds pre low (fs ++ [{ f with ip }]) (m.goto ip) where
  frames := by
    rw [← List.append_assoc]
    exact goto_frames (by rw [h.frames, List.append_assoc]) ip
  levels := by
    obtain ⟨mid, below, level⟩ := levels_append.mp h.levels
    exact levels_append.mpr ⟨mid, below, level⟩

theorem Holds.enter (h : Holds pre low fs m) (g : CodeFunction) (args : List Value) : Above pre low (m.enter g args) := by
  refine ⟨fs ++ [_], Array.toList_push.trans (by rw [h.frames, List.append_assoc]), ?_⟩
  refine levels_append.mpr ⟨m.stack.size, h.levels, rfl, ?_⟩
  show (m.stack ++ frameValues g args).size = _
  rw [Array.size_append, size_frameValues]

theorem Holds.leave (h : Holds pre low (fs ++ [f]) m) : Holds pre low fs m.leave := by
  have back : m.frames.back? = some f := by
    rw [← Array.getLast?_toList, h.frames, ← List.append_assoc, List.getLast?_concat]
  obtain ⟨mid, below, base, top⟩ := levels_append.mp h.levels
  unfold Machine.leave
  rw [back]
  refine ⟨?_, ?_⟩
  · show m.frames.pop.toList = _
    rw [Array.toList_pop, h.frames, ← List.append_assoc, List.dropLast_concat]
  · show Levels low fs (m.stack.shrink f.base).size
    have size : (m.stack.shrink f.base).size = mid := by
      rw [Array.size_shrink, base, top]
      exact Nat.min_eq_left (Nat.le_add_right _ _)
    rw [size]
    exact below

/-- Nothing more is active: the stack is as high as it was. -/
theorem Above.ended (h : Above pre low m) (few : m.frames.size ≤ pre.length) :
    m.frames.toList = pre ∧ m.stack.size = low := by
  obtain ⟨fs, frames, levels⟩ := h
  have none : fs = [] := by
    rw [← Array.length_toList, frames, List.length_append] at few
    exact List.eq_nil_of_length_eq_zero (by omega)
  rw [none] at frames levels
  exact ⟨frames.trans (List.append_nil pre), levels⟩

theorem SameControl.of_toList {l : List Frame} (frames : m.frames.toList = l) (frames' : m'.frames.toList = l)
    (stack : m'.stack.size = m.stack.size) : SameControl m m' :=
  ⟨Array.toList_inj.mp (frames'.trans frames.symm), stack⟩

end Machine

namespace Exec

open Machine (SameControl Above Holds)

/-! ## Neutral computations -/

/-- Whatever comes of it, the computation ends with the same active functions and a stack of the same height. -/
def Neutral (x : Exec η α) : Prop := ∀ m : Machine, Preserves (fun w => SameControl m w.machine) x

theorem indifferent_sameControl (m : Machine) : Indifferent fun w : World η => SameControl m w.machine :=
  fun _ _ quiet same => same.trans ⟨quiet.frames, quiet.stack⟩

theorem Neutral.same {x : Exec η α} (h : Neutral x) (w : World η) : SameControl w.machine (finalState (x w)).machine :=
  h w.machine w ⟨rfl, rfl⟩

theorem Neutral.bind {x : Exec η α} {f : α → Exec η β} (hx : Neutral x) (hf : ∀ a, Neutral (f a)) : Neutral (x >>= f) :=
  fun m => .bind (hx m) fun a => hf a m

theorem neutral_link (c : CodeModule) : Neutral (link c : Exec η (List String)) := by
  intro m w same
  have linked : Machine.LinkedTo (fun _ => True) (fun f => f.missing? = none) w.machine (Machine.link c w.machine) :=
    Machine.keeps_added (fun _ _ _ => id) c w.machine trivial
  unfold link
  cases run : Machine.link c w.machine with
  | ok names m' =>
    rw [run] at linked
    exact same.trans ⟨linked.frames, congrArg Array.size linked.stack⟩
  | error f m' =>
    rw [run] at linked
    exact same.trans ⟨linked.1.frames, congrArg Array.size linked.1.stack⟩

/-! ## Steps -/

section Step

variable {evaluate : List Value → Exec η Value} {pre fs : List Frame} {f : Frame} {low : Nat} {w : World η}

/-- A step that goes on with the value on top. -/
theorem above_pop {g : Value → Exec η Unit} (h : Holds pre low fs w.machine)
    (rest : ∀ v w', Holds pre low fs w'.machine → Above pre low (finalState (g v w')).machine) :
    Above pre low (finalState ((pop >>= g) w)).machine := by
  show Above pre low (finalState (EStateM.bind pop g w)).machine
  unfold EStateM.bind
  cases operands : w.machine.operands with
  | nil =>
    rw [pop_nil operands]
    exact ⟨fs, h⟩
  | cons v values =>
    rw [pop_cons operands]
    exact rest v _ (h.same ⟨rfl, rfl⟩)

theorem preserves_enter_above (g : CodeFunction) (args : List Value) :
    Preserves (fun w : World η => Above pre low w.machine) (enter g args) := by
  refine preserves_machine fun m => ?_
  split
  · exact .throw _
  · exact fun w ⟨fs, h⟩ => h.enter g args

/-- What an instruction does once the frame points behind it. -/
theorem act_above (neutral : ∀ args, Neutral (evaluate args)) (h : Holds pre low (fs ++ [f]) w.machine)
    (ret : Option Scalar) (base : Nat) (i : Instr) : Above pre low (finalState (act evaluate ret base i w)).machine := by
  by_cases straight : i.isStraight
  · have acts : Neutral (act evaluate ret base i) := fun m =>
      preserves_act (indifferent_sameControl m) (fun args => neutral args m) straight ret base
    exact ⟨_, h.same (acts.same w)⟩
  cases i with
  | jump target => exact ⟨_, h.goto target⟩
  | jumpIfFalse target =>
    refine above_pop h fun v w' h' => ?_
    show Above pre low (finalState ((if !v.isTruthy then modifyMachine (·.goto target) else pure () : Exec η Unit) w')).machine
    split
    · exact ⟨_, h'.goto target⟩
    · exact ⟨_, h'⟩
  | jumpIfTrue target =>
    refine above_pop h fun v w' h' => ?_
    show Above pre low (finalState ((if v.isTruthy then modifyMachine (·.goto target) else pure () : Exec η Unit) w')).machine
    split
    · exact ⟨_, h'.goto target⟩
    · exact ⟨_, h'⟩
  | call name argc =>
    have indifferent : Indifferent fun w : World η => Above pre low w.machine :=
      fun w m quiet ⟨gs, h⟩ => ⟨gs, h.same ⟨quiet.frames, quiet.stack⟩⟩
    have calls : Preserves (fun w : World η => Above pre low w.machine)
        (findFunction name >>= fun g => popList argc >>= fun args => enter g args) :=
      .bind (preserves_findFunction name) fun g => .bind (preserves_popList indifferent argc) fun args =>
        preserves_enter_above g args
    exact calls w ⟨_, h⟩
  | «return» => exact above_pop h fun v w' h' => ⟨fs, h'.leave.same ⟨rfl, rfl⟩⟩
  | returnVoid => exact ⟨fs, h.leave⟩
  | _ => exact absurd rfl straight

theorem step_above (neutral : ∀ args, Neutral (evaluate args)) (h : Holds pre low (fs ++ [f]) w.machine) :
    Above pre low (finalState (step evaluate f w)).machine := by
  cases found : f.function.code[f.ip]? with
  | none =>
    rw [step_none found]
    exact ⟨_, h⟩
  | some i =>
    have counted : Holds pre low (fs ++ [{ f with ip := f.ip + 1 }]) (advanced w (f.ip + 1)).machine :=
      (h.goto (f.ip + 1)).same ⟨rfl, rfl⟩
    rw [step_eq found]
    split
    · exact ⟨_, counted⟩
    · exact act_above neutral counted _ _ i

end Step

/-! ## Evaluators -/

/-- Evaluates templates, given a way to call functions. -/
abbrev Evaluator (η : Type) := (String → List Value → Exec η (Option Value)) → List Value → Exec η Value

/-- The outcome of a computation, which does not fail any more. -/
def outcome (x : Exec η α) : Exec η (Except MachineError α) := fun w =>
  match x w with
  | .ok a w' => .ok (.ok a) w'
  | .error e w' => .ok (.error e) w'

/-- Computations that look at the world, keep a state of their own, and do nothing to the machine but link modules, call
functions, remove functions and change the results that were handed over. -/
inductive Confined (call : String → List Value → Exec η (Option Value)) : {α : Type} → Exec η α → Prop where
  | own {α : Type} (f : World η → α × η) : Confined call (fun w => .ok (f w).1 { w with host := (f w).2 })
  | error {α : Type} (e : MachineError) : Confined call (throw e : Exec η α)
  | bind {α β : Type} {x : Exec η α} {f : α → Exec η β} (first : Confined call x) (rest : ∀ a, Confined call (f a)) :
    Confined call (x >>= f)
  | attempt {α : Type} {x : Exec η α} (inside : Confined call x) : Confined call (outcome x)
  | link (c : CodeModule) : Confined call (link c)
  | call (name : String) (args : List Value) : Confined call (call name args)
  | remove (name : String) : Confined call (modifyMachine (·.removeFunction name))
  | results (f : Array Value → Array Value) : Confined call (modifyMachine fun m => { m with results := f m.results })

def Evaluator.Confined (E : Evaluator η) : Prop := ∀ call args, Exec.Confined call (E call args)

section Confined

variable {call : String → List Value → Exec η (Option Value)}

theorem Confined.neutral (calls : ∀ name args, Neutral (call name args)) {x : Exec η α} (h : Confined call x) :
    Neutral x := by
  induction h with
  | own f => exact fun m w same => same
  | error e => exact fun m => .throw e
  | bind _ _ first rest => exact first.bind rest
  | attempt _ ih =>
    rename_i x _
    intro m w same
    have after := ih m w same
    unfold outcome
    cases run : x w with
    | ok a w' =>
      rw [run] at after
      exact after
    | error e w' =>
      rw [run] at after
      exact after
  | link c => exact neutral_link c
  | call name args => exact calls name args
  | remove name => exact fun m w same => same.trans ⟨rfl, rfl⟩
  | results f => exact fun m w same => same.trans ⟨rfl, rfl⟩

theorem confined_pure (a : α) : Confined call (pure a : Exec η α) := .own fun w => (a, w.host)

theorem confined_machine {f : Machine → Exec η β} (hf : ∀ m, Confined call (f m)) : Confined call (machine >>= f) :=
  .bind (.own fun w => (w.machine, w.host)) hf

theorem confined_ofExcept (x : Except Fault α) : Confined call (ofExcept x : Exec η α) := by
  cases x with
  | ok a => exact confined_pure a
  | error f => exact .error _

theorem confined_callAll (names : List String) : Confined call (callAll (fun name => call name []) names) := by
  induction names with
  | nil => exact confined_pure _
  | cons name names ih => exact .bind (.call name []) fun _ => ih

theorem confined_removeAll (names : List String) :
    Confined call (modifyMachine fun m => names.foldl Machine.removeFunction m) := by
  induction names with
  | nil => exact confined_pure ()
  | cons name names ih => exact .bind (.remove name) fun _ => ih

theorem confined_always {x : Exec η Unit} (h : Confined call x) (names : List String) :
    Confined call (always x fun m => names.foldl Machine.removeFunction m) := by
  have same : always x (fun m => names.foldl Machine.removeFunction m) = (do
      let r ← outcome x
      modifyMachine fun m => names.foldl Machine.removeFunction m
      match r with
      | .ok _ => pure ()
      | .error e => throw e) := by
    funext w
    show _ = EStateM.bind _ _ w
    unfold always EStateM.bind outcome
    cases x w <;> rfl
  rw [same]
  refine .bind (.attempt h) fun r => .bind (confined_removeAll names) fun _ => ?_
  cases r with
  | ok _ => exact confined_pure ()
  | error e => exact .error e

theorem confined_runTemplate (c : TemplateCode) : Confined call (runTemplate (fun name => call name []) c) := by
  unfold runTemplate
  refine confined_machine fun m => .bind (.link _) fun names => .bind (confined_always (confined_callAll _) _) fun _ => ?_
  refine confined_machine fun m' => ?_
  split
  · exact .bind (.results Array.pop) fun _ => confined_pure _
  · exact confined_pure _

theorem confined_evaluateText (host : Host η) (handle : UInt64) (template : String) (addresses : List UInt64) :
    Confined call (evaluateText host (fun name => call name []) handle template addresses) := by
  let compiled (w : World η) : Except Fault TemplateCode × η := host.compile w.host handle template addresses
  show Confined call ((fun w => .ok (compiled w).1 { w with host := (compiled w).2 })
    >>= fun result => ofExcept result >>= runTemplate fun name => call name [])
  exact .bind (.own compiled) fun result => .bind (confined_ofExcept result) fun c => confined_runTemplate c

end Confined

/-- How the machine evaluates templates with a host. -/
def hosted (host : Option (Host η)) : Evaluator η := fun call args => evaluate host (fun name => call name []) args

theorem confined_hosted (host : Option (Host η)) : (hosted host).Confined := by
  intro call args
  cases host with
  | none => exact .error _
  | some host => exact confined_machine fun m => .bind (confined_ofExcept _) fun template => confined_evaluateText host _ _ _

/-! ## The loop -/

/-- The loop of the machine, with any evaluator. -/
def runWith (E : Evaluator η) : Nat → Nat → Exec η Unit
  | 0, _ => do fail (.instructionLimit (← machine).maxInstructions)
  | fuel + 1, depth => do
    let m ← machine
    if active : depth < m.depth then
      step (E (callWith (runWith E fuel))) (m.innermost (Nat.zero_lt_of_lt active))
      runWith E fuel depth

def callBy (E : Evaluator η) (name : String) (args : List Value) : Exec η (Option Value) := do
  let m ← machine
  callWith (runWith E (m.maxInstructions + 2)) name args

/-- What the control state is after a call from `w`. -/
def Restored (w : World η) : EStateM.Result MachineError (World η) α → Prop
  | .ok _ w' => SameControl w.machine w'.machine
  | .error _ w' => SameControl w.machine w'.machine ∧ w'.machine.operands.length ≤ w.machine.operands.length

theorem Restored.of_same {w w₀ : World η} {r : EStateM.Result MachineError (World η) α} (h : Restored w₀ r)
    (same : SameControl w.machine w₀.machine) (operands : w₀.machine.operands = w.machine.operands) : Restored w r := by
  cases r with
  | ok a w' => exact same.trans h
  | error e w' => exact ⟨same.trans h.1, operands ▸ h.2⟩

theorem Restored.final {w : World η} {r : EStateM.Result MachineError (World η) α} (h : Restored w r) :
    SameControl w.machine (finalState r).machine := by
  cases r with
  | ok a w' => exact h
  | error e w' => exact h.1

section Loop

variable {E : Evaluator η} {w : World η}

theorem runWith_succ {fuel depth : Nat} : runWith E (fuel + 1) depth w =
    if depth < w.machine.depth then
      (next (E (callWith (runWith E fuel))) >>= fun _ => runWith E fuel depth) w
    else .ok () w :=
  turn_eq (E (callWith (runWith E fuel))) (runWith E fuel depth) depth

theorem run_hosted (host : Option (Host η)) (fuel depth : Nat) : run host fuel depth = runWith (hosted host) fuel depth := by
  induction fuel generalizing depth with
  | zero => rfl
  | succ fuel ih =>
    have same : run host fuel = runWith (hosted host) fuel := funext ih
    funext w
    rw [run_succ, runWith_succ, same]
    rfl

theorem call_hosted (host : Option (Host η)) : call host = callBy (hosted host) := by
  funext name args
  unfold call callBy
  rw [funext fun fuel => funext (run_hosted host fuel)]

/-- The loop comes to an end at the depth that it was given. -/
theorem runWith_ok {fuel depth : Nat} {u : Unit} {w' : World η} (h : runWith E fuel depth w = .ok u w') :
    w'.machine.frames.size ≤ depth := by
  induction fuel generalizing w with
  | zero => cases h
  | succ fuel ih =>
    rw [runWith_succ] at h
    split at h
    · obtain ⟨_, w₁, -, rest⟩ := bind_eq_ok h
      exact ih rest
    · cases h
      exact Nat.le_of_not_lt ‹_›

/-- The body of a call ends with the functions that were active before it, or above them. -/
theorem restored_guarded {x : Exec η Unit} (above : Above w.machine.frames.toList w.machine.stack.size (finalState (x w)).machine)
    (ended : ∀ u w', x w = .ok u w' → w'.machine.frames.size ≤ w.machine.frames.size) : Restored w (guarded x w) := by
  unfold guarded
  dsimp only
  cases run : x w with
  | ok u w' =>
    rw [run] at above
    obtain ⟨frames, stack⟩ := above.ended (by rw [Array.length_toList]; exact ended u w' run)
    exact .of_toList rfl frames stack
  | error e w' =>
    rw [run] at above
    obtain ⟨fs, frames, levels⟩ := above
    have frames : w'.machine.frames.toList = w.machine.frames.toList ++ fs := frames
    refine ⟨.of_toList rfl ?_ ?_, ?_⟩
    · show (w'.machine.frames.shrink w.machine.frames.size).toList = _
      rw [Array.toList_shrink, frames, ← Array.length_toList, List.take_left]
    · show (w'.machine.stack.shrink w.machine.stack.size).size = _
      rw [Array.size_shrink]
      exact Nat.min_eq_left levels.le
    · show (Machine.lowest w'.machine.operands w.machine.operands.length).length ≤ _
      unfold Machine.lowest
      rw [List.length_drop]
      omega

theorem takeResult_ok (f : CodeFunction) (w : World η) : ∃ v w', takeResult f w = .ok v w' := by
  cases ret : f.ret with
  | none => exact ⟨_, _, takeResult_void ret w⟩
  | some kind =>
    cases operands : w.machine.operands with
    | nil => exact ⟨_, _, takeResult_nil operands⟩
    | cons v rest => exact ⟨_, _, takeResult_cons (by rw [ret]; rfl) operands⟩

theorem callWith_idle {run : Nat → Exec η Unit} {name : String} (idle : w.machine.frames.size = 0) {f : CodeFunction}
    (found : w.machine.functions.get? name = some f) (args : List Value) :
    callWith run name args w = (guarded (enter f args >>= fun _ => run w.machine.frames.size) >>= fun _ => takeResult f)
      { w with machine := { w.machine with instructionCount := 0 } } := by
  unfold callWith
  rw [run_ok (findFunction_known found)]
  exact congrFun (if_pos idle) w

theorem restored_callWith {run : Nat → Exec η Unit}
    (above : ∀ pre low, Preserves (fun w : World η => Above pre low w.machine) (run pre.length))
    (ended : ∀ depth w u w', run depth w = .ok u w' → w'.machine.frames.size ≤ depth) (name : String) (args : List Value)
    (w : World η) : Restored w (callWith run name args w) := by
  cases found : w.machine.functions.get? name with
  | none =>
    rw [callWith_none found]
    exact ⟨⟨rfl, rfl⟩, Nat.le_refl _⟩
  | some f =>
    have body (w' : World η) :
        Restored w' ((guarded (enter f args >>= fun _ => run w'.machine.frames.size) >>= fun _ => takeResult f) w') := by
      have runs : Preserves (fun w : World η => Above w'.machine.frames.toList w'.machine.stack.size w.machine)
          (enter f args >>= fun _ => run w'.machine.frames.toList.length) :=
        .bind (preserves_enter_above f args) fun _ => above _ _
      have start : Above w'.machine.frames.toList w'.machine.stack.size w'.machine := ⟨[], (List.append_nil _).symm, rfl⟩
      have called := restored_guarded (runs w' start) fun u w'' h => by
        obtain ⟨_, w₁, -, ran⟩ := bind_eq_ok h
        exact ended _ w₁ u w'' ran
      rw [Array.length_toList] at called
      show Restored w' (EStateM.bind _ _ w')
      unfold EStateM.bind
      generalize guarded (enter f args >>= fun _ => run w'.machine.frames.size) w' = outcome at called
      cases outcome with
      | error e w'' => exact called
      | ok u w'' =>
        have taken := preserves_takeResult (indifferent_sameControl w'.machine) f w'' called
        obtain ⟨v, w₃, ok⟩ := takeResult_ok f w''
        rw [ok] at taken
        dsimp only
        rw [ok]
        exact taken
    by_cases idle : w.machine.frames.size = 0
    · rw [callWith_idle idle found]
      exact (body { w with machine := { w.machine with instructionCount := 0 } }).of_same ⟨rfl, rfl⟩ rfl
    · rw [callWith_eq (Nat.pos_of_ne_zero idle) found]
      exact body w

/-- The loop keeps what lies below the functions that it runs, if the evaluator does nothing else than it may. -/
theorem preserves_runWith (confined : E.Confined) (fuel : Nat) (pre : List Frame) (low : Nat) :
    Preserves (fun w : World η => Above pre low w.machine) (runWith E fuel pre.length) := by
  induction fuel generalizing pre low with
  | zero => exact preserves_machine fun m => .throw _
  | succ fuel ih =>
    have calls (name : String) (args : List Value) : Neutral (callWith (runWith E fuel) name args) := fun m w same =>
      same.trans (restored_callWith ih (fun _ _ _ _ => runWith_ok) name args w).final
    have neutral (args : List Value) : Neutral (E (callWith (runWith E fuel)) args) := (confined _ args).neutral calls
    intro w above
    rw [runWith_succ]
    split
    · rename_i active
      obtain ⟨fs, holds⟩ := above
      rcases List.eq_nil_or_concat fs with rfl | ⟨l, f, rfl⟩
      · -- there are more functions than those in `pre`
        have size : w.machine.frames.toList.length = pre.length := by rw [holds.frames, List.append_nil]
        rw [Array.length_toList] at size
        exact absurd (size ▸ active : pre.length > pre.length) (Nat.lt_irrefl _)
      · rw [List.concat_eq_append] at holds
        have stepped : Above pre low (finalState (next (E (callWith (runWith E fuel))) w)).machine := by
          rw [next_eq (l := pre ++ l) (by rw [holds.frames, List.append_assoc])]
          exact step_above neutral holds
        show Above pre low (finalState (EStateM.bind _ _ w)).machine
        unfold EStateM.bind
        generalize next (E (callWith (runWith E fuel))) w = outcome at stepped
        cases outcome with
        | error e w' => exact stepped
        | ok u w' => exact ih pre low w' stepped
    · exact above

theorem restored_callBy (confined : E.Confined) (name : String) (args : List Value) (w : World η) :
    Restored w (callBy E name args w) :=
  restored_callWith (preserves_runWith confined (w.machine.maxInstructions + 2)) (fun _ _ _ _ => runWith_ok) name args w

end Loop

/-- A call in the middle of a run ends with the same active functions and a stack of the same height. -/
theorem neutral_callWith (host : Option (Host η)) (fuel : Nat) (name : String) (args : List Value) :
    Neutral (callWith (run host fuel) name args) := by
  intro m w same
  rw [funext (run_hosted host fuel)]
  have runs := preserves_runWith (confined_hosted host) fuel
  exact same.trans (restored_callWith runs (fun _ _ _ _ => runWith_ok) name args w).final

/-- A call restores the control state of the machine, whatever is active, whatever is linked, and whether or not it fails, if
the evaluation of templates does nothing to the machine but link modules, call functions and remove functions; with a host it
is of this kind. On a machine that is idle a call that fails leaves nothing behind. -/
theorem call_restores :
    (∀ host : Option (Host η), call host = callBy (hosted host) ∧ (hosted host).Confined) ∧
    ∀ (E : Evaluator η), E.Confined → ∀ (name : String) (args : List Value) (w : World η),
      Restored w (callBy E name args w) ∧
      ∀ e w', callBy E name args w = .error e w' →
        w.machine.frames = #[] → w.machine.stack = #[] → w.machine.operands = [] →
        w'.machine.frames = #[] ∧ w'.machine.stack = #[] ∧ w'.machine.operands = [] := by
  refine ⟨fun host => ⟨call_hosted host, confined_hosted host⟩, fun E confined name args w => ?_⟩
  have restored := restored_callBy confined name args w
  refine ⟨restored, fun e w' failed frames stack operands => ?_⟩
  rw [failed] at restored
  obtain ⟨same, low⟩ := restored
  rw [operands] at low
  refine ⟨same.frames.trans frames, Array.eq_empty_of_size_eq_zero (same.stack.trans ?_), List.eq_nil_of_length_eq_zero ?_⟩
  · rw [stack]
    rfl
  · exact Nat.le_zero.mp low

/-- Every template is read from the null pointer. -/
def readsNull : Host Unit where
  compile _ _ _ _ :=
    let read : CodeFunction :=
      { name := "read", params := [], ret := some .i32, frameSlots := 1, code := #[.pushPtr 0, .load .i32, .return] }
    (.ok { module := { functions := #[read] }, entry := "read" }, ())

/-- A machine with a function that evaluates a template inside of another function. -/
def nestedWorld : World Unit :=
  let inner : CodeFunction :=
    { name := "inner", params := [.i32], ret := some .i32, frameSlots := 2,
      code := #[.pushInt 0, .pushStr 0, .builtin .eval 2, .return] }
  let outer : CodeFunction :=
    { name := "outer", params := [], ret := some .i32, frameSlots := 1, code := #[.pushInt 7, .pushInt 1, .call "inner" 1, .return] }
  ⟨finalState (Machine.link { functions := #[inner, outer], strings := #["@"] } { maxInstructions := 30 }), ()⟩

/-- A null pointer that a template reads, three functions deep, leaves an idle machine behind. -/
theorem nested_fault_restores : ∃ e w', call (some readsNull) "outer" [] nestedWorld = .error e w' ∧
    e.fault = .nullDereference ∧
    w'.machine.frames = #[] ∧ w'.machine.stack = #[] ∧ w'.machine.operands = [] := by
  have fails : (match call (some readsNull) "outer" [] nestedWorld with
    | .ok _ _ => none
    | .error e _ => some e.fault) = some .nullDereference := by decide +kernel
  have frames : nestedWorld.machine.frames.size = 0 := by decide +kernel
  have stack : nestedWorld.machine.stack.size = 0 := by decide +kernel
  have operands : nestedWorld.machine.operands.length = 0 := by decide +kernel
  obtain ⟨same, confined⟩ := call_restores.1 (some readsNull)
  cases run : call (some readsNull) "outer" [] nestedWorld with
  | ok v w' =>
    rw [run] at fails
    cases fails
  | error e w' =>
    rw [run] at fails
    rw [same] at run
    have idle := (call_restores.2 _ confined "outer" [] nestedWorld).2 e w' run (Array.eq_empty_of_size_eq_zero frames)
      (Array.eq_empty_of_size_eq_zero stack) (List.eq_nil_of_length_eq_zero operands)
    exact ⟨e, w', rfl, Option.some.inj fails, idle⟩

end Exec

end IncrementalC
