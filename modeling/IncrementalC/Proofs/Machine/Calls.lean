import IncrementalC.Proofs.Machine.Steps

/-!
# Calls leave the operand stack in order

`Machine.Running S pre out m`: the frames of `m` above those in `pre` run code that fits, each on the operands
that the one below it left, and the operand stack is `out` high when all of them have returned. Every
instruction keeps this (`step_running`), and so does the loop (`run_running`); hence a call that
returns gives back the stack as high as it found it, with the result on top (`callWith_moves`).
-/
namespace IncrementalC
set_option autoImplicit false

variable {η α : Type} {S : Signatures}

/-! ## Frames -/

/-- The frames, the outermost first, run on an operand stack of the given height and leave one of
height `out`. -/
def Stacked (S : Signatures) (out : Nat) : List Frame → Nat → Prop
  | [], height => height = out
  | f :: fs, height =>
    f.operandBase + f.function.results = out ∧ ∃ h : Nat → Nat,
      InOrder S f.function.results h 0 f.function.code.toList
        ∧ Stacked S (f.operandBase + h f.ip) fs height

theorem stacked_append {out height : Nat} {fs gs : List Frame} :
    Stacked S out (fs ++ gs) height ↔ ∃ mid, Stacked S out fs mid ∧ Stacked S mid gs height := by
  induction fs generalizing out with
  | nil =>
    constructor
    · exact fun h => ⟨out, rfl, h⟩
    · rintro ⟨mid, rfl, h⟩
      exact h
  | cons f fs ih =>
    constructor
    · rintro ⟨leaves, h, inOrder, rest⟩
      obtain ⟨mid, first, last⟩ := ih.mp rest
      exact ⟨mid, ⟨leaves, h, inOrder, first⟩, last⟩
    · rintro ⟨mid, ⟨leaves, h, inOrder, first⟩, last⟩
      exact ⟨leaves, h, inOrder, ih.mpr ⟨mid, first, last⟩⟩

structure Machine.Running (S : Signatures) (pre : List Frame) (out : Nat) (m : Machine) : Prop where
  table : TableFits S m.functions
  frames : ∃ fs, m.frames.toList = pre ++ fs ∧ Stacked S out fs m.operands.length

/-- The frame `f` is the innermost one, above those in `pre` and `fs`. -/
structure RunningIn (S : Signatures) (pre : List Frame) (out : Nat) (fs : List Frame) (f : Frame)
    (m : Machine) : Prop where
  table : TableFits S m.functions
  frames : m.frames.toList = pre ++ (fs ++ [f])
  below : Stacked S out fs (f.operandBase + f.function.results)

namespace Machine

theorem modify_concat (l : List α) (x : α) (g : α → α) :
    (l ++ [x]).modify l.length g = l ++ [g x] := by
  induction l with
  | nil => rfl
  | cons y l ih =>
    rw [List.cons_append, List.length_cons, List.modify_succ_cons, ih, List.cons_append]

theorem goto_frames {m : Machine} {l : List Frame} {f : Frame} (h : m.frames.toList = l ++ [f])
    (ip : Nat) : (m.goto ip).frames.toList = l ++ [{ f with ip }] := by
  have last : m.frames.size - 1 = l.length := by
    rw [← Array.length_toList, h, List.length_append, List.length_singleton, Nat.add_sub_cancel]
  unfold goto
  rw [Array.toList_modify, last, h, modify_concat]

theorem lowest_length (operands : List Value) (height : Nat) (h : height ≤ operands.length) :
    (lowest operands height).length = height := by
  rw [lowest, List.length_drop]
  omega

theorem leave_running {m : Machine} {pre fs : List Frame} {out : Nat} {f : Frame}
    (h : RunningIn S pre out fs f m) (high : f.operandBase ≤ m.operands.length) :
    m.leave.functions = m.functions ∧ m.leave.frames.toList = pre ++ fs
      ∧ m.leave.operands.length = f.operandBase := by
  have back : m.frames.back? = some f := by
    rw [← Array.getLast?_toList, h.frames, ← List.append_assoc, List.getLast?_concat]
  unfold leave
  rw [back]
  refine ⟨rfl, ?_, lowest_length _ _ high⟩
  show m.frames.pop.toList = _
  rw [Array.toList_pop, h.frames, ← List.append_assoc, List.dropLast_concat]

theorem innermost_eq {m : Machine} {l : List Frame} {f : Frame} (h : m.frames.toList = l ++ [f])
    (active : 0 < m.depth) : m.innermost active = f := by
  have found : m.frames[m.frames.size - 1]? = some f := by
    rw [← Array.getElem?_toList, h, ← Array.length_toList, h, List.length_append, List.length_singleton,
      Nat.add_sub_cancel, List.getElem?_concat_length]
  have inside : m.frames.size - 1 < m.frames.size := Nat.sub_one_lt (Nat.ne_of_gt active)
  rw [Array.getElem?_eq_getElem inside] at found
  exact Option.some.inj found

end Machine

/-- The stack is as high as the next instruction of the innermost frame asks for. -/
theorem RunningIn.running {m : Machine} {pre fs : List Frame} {out : Nat} {f : Frame}
    (h : RunningIn S pre out fs f m) {height : Nat → Nat}
    (inOrder : InOrder S f.function.results height 0 f.function.code.toList)
    (high : m.operands.length = f.operandBase + height f.ip) : Machine.Running S pre out m :=
  ⟨h.table, fs ++ [f], h.frames, stacked_append.mpr ⟨_, h.below, rfl, height, inOrder, high⟩⟩

/-- What a host compiles fits, and it finds fault with other things than operands. -/
structure Host.Fits (S : Signatures) (host : Host η) : Prop where
  provided : ∀ x handle template addresses, Provided (host.compile x handle template addresses).1
  code : ∀ x handle template addresses c,
    (host.compile x handle template addresses).1 = .ok c → c.module.Fits S

namespace Exec

/-! ## Single instructions -/

/-- Where a step may end. -/
def Ends (S : Signatures) (P : Machine → Prop) : EStateM.Result MachineError (World η) α → Prop
  | .ok _ w' => TableFits S w'.machine.functions ∧ P w'.machine
  | .error e w' => TableFits S w'.machine.functions ∧ e.fault ≠ .operandUnderflow

theorem Ends.mono {P Q : Machine → Prop} {r : EStateM.Result MachineError (World η) α} (h : Ends S P r)
    (hPQ : ∀ m, TableFits S m.functions → P m → Q m) : Ends S Q r := by
  cases r with
  | ok x w => exact ⟨h.1, hPQ _ h.1 h.2⟩
  | error e w => exact h

theorem Ends.bind {β : Type} {P Q : Machine → Prop} {m : Exec η α} {f : α → Exec η β} {w : World η}
    (hm : Ends S P (m w)) (hf : ∀ x w', TableFits S w'.machine.functions → P w'.machine → Ends S Q (f x w')) :
    Ends S Q ((m >>= f) w) := by
  show Ends S Q (EStateM.bind m f w)
  unfold EStateM.bind
  cases run : m w with
  | error e w' =>
    rw [run] at hm
    exact hm
  | ok x w' =>
    rw [run] at hm
    exact hf x w' hm.1 hm.2

theorem Ends.machine {P : Machine → Prop} {f : Machine → Exec η α} {w : World η}
    (h : Ends S P (f w.machine w)) : Ends S P ((Exec.machine >>= f) w) := h

theorem Moves.ends {n k : Nat} {m : Exec η α} (hm : Moves S n k m) {w : World η}
    (table : TableFits S w.machine.functions) (height : w.machine.operands.length = n) :
    Ends S (fun m' => m'.frames = w.machine.frames ∧ m'.operands.length = k) (m w) := by
  have moved := hm w table height
  cases run : m w with
  | error e w' =>
    rw [run] at moved
    exact moved
  | ok x w' =>
    rw [run] at moved
    exact moved

/-- A function that fits begins with an empty stack of its own. -/
theorem enter_ends {f : CodeFunction} (fits : f.Fits S) (args : List Value) {w : World η}
    (table : TableFits S w.machine.functions) :
    Ends S (Machine.Running S w.machine.frames.toList (w.machine.operands.length + f.results))
      (enter f args w) := by
  cases refusal : w.machine.refusal? f args.length with
  | some fault =>
    rw [enter_refused refusal]
    refine ⟨table, ?_⟩
    unfold Machine.refusal? at refusal
    split at refusal
    · cases refusal
      rintro ⟨⟩
    · split at refusal
      · cases refusal
        rintro ⟨⟩
      · cases refusal
  | none =>
    rw [enter_accepted refusal]
    obtain ⟨h, start, inOrder⟩ := fits.balanced
    refine ⟨table, table, [_], Array.toList_push, rfl, h, inOrder, ?_⟩
    show w.machine.operands.length = w.machine.operands.length + h 0
    rw [start, Nat.add_zero]

section Step

variable {evaluate : List Value → Exec η Value} {pre fs : List Frame} {out : Nat} {f : Frame}
  {height : Nat → Nat}

/-- The instruction behind the one at which the frame stands, and every other one, is reached with
a stack of its own height. -/
theorem goto_running {m : Machine} (h : RunningIn S pre out fs f m)
    (inOrder : InOrder S f.function.results height 0 f.function.code.toList) {ip : Nat}
    (high : m.operands.length = f.operandBase + height ip) : Machine.Running S pre out (m.goto ip) := by
  have frames := Machine.goto_frames (l := pre ++ fs) (by rw [h.frames, List.append_assoc]) ip
  refine RunningIn.running (f := { f with ip }) ⟨h.table, ?_, h.below⟩ inOrder high
  rw [frames, List.append_assoc]

theorem moves_act (heval : ∀ n args, Moves S n n (evaluate args)) {i : Instr}
    (straight : i.isStraight) (ret : Option Scalar) (base n : Nat) :
    Moves S (n + i.takes) (n + i.gives) (act evaluate ret base i) := by
  unfold act
  split
  · exact .bind (.popList _) fun args => .bind (heval _ args) fun v => .push v
  · exact moves_instr straight ret base

/-- What an instruction does once the frame points behind it. -/
theorem act_running (heval : ∀ n args, Moves S n n (evaluate args)) {w : World η} {k : Nat}
    (h : RunningIn S pre out fs { f with ip := k + 1 } w.machine)
    (inOrder : InOrder S f.function.results height 0 f.function.code.toList) {i : Instr}
    (order : i.InOrder S f.function.results height k)
    (high : w.machine.operands.length = f.operandBase + height k) :
    Ends S (Machine.Running S pre out) (act evaluate f.function.ret f.base i w) := by
  have goOn {m : Machine} (table : TableFits S m.functions) (frames : m.frames = w.machine.frames)
      (high : m.operands.length = f.operandBase + height (k + 1)) : Machine.Running S pre out m :=
    RunningIn.running (f := { f with ip := k + 1 })
      ⟨table, by rw [frames]; exact h.frames, h.below⟩ inOrder high
  have goTo {m : Machine} (table : TableFits S m.functions) (frames : m.frames = w.machine.frames)
      {ip : Nat} (high : m.operands.length = f.operandBase + height ip) :
      Machine.Running S pre out (m.goto ip) :=
    goto_running (f := { f with ip := k + 1 })
      ⟨table, by rw [frames]; exact h.frames, h.below⟩ inOrder high
  have popped {P : Machine → Prop} {g : Value → Exec η Unit} {r : Nat}
      (enough : height k = r + 1)
      (rest : ∀ v (w' : World η), TableFits S w'.machine.functions →
        w'.machine.frames = w.machine.frames → w'.machine.operands.length = f.operandBase + r →
        Ends S P (g v w')) : Ends S P ((pop >>= g) w) := by
    refine Ends.bind (Moves.ends (.pop (n := f.operandBase + r)) h.table ?_) fun v w' table after => ?_
    · rw [high, enough, Nat.add_assoc]
    · exact rest v w' table after.1 after.2
  by_cases straight : i.isStraight
  · obtain ⟨rest, before, after⟩ := (Instr.inOrder_of_isStraight straight).mp order
    refine ((moves_act heval straight f.function.ret f.base (f.operandBase + rest)).ends h.table
      ?_).mono fun m table moved => goOn table moved.1 ?_
    · rw [high, before, Nat.add_assoc]
    · rw [moved.2, after, Nat.add_assoc]
  cases i with
  | jump target =>
    have order : height target = height k := order
    exact ⟨h.table, goTo h.table rfl (by rw [high, order])⟩
  | jumpIfFalse target =>
    have order : height k = height target + 1 ∧ height k = height (k + 1) + 1 := order
    refine popped order.1 fun v w' table frames low => ?_
    have low' : w'.machine.operands.length = f.operandBase + height (k + 1) := by
      rw [low]
      omega
    show Ends S _ ((if !v.isTruthy then modifyMachine (·.goto target) else pure () : Exec η Unit) w')
    split
    · exact ⟨table, goTo table frames low⟩
    · exact ⟨table, goOn table frames low'⟩
  | jumpIfTrue target =>
    have order : height k = height target + 1 ∧ height k = height (k + 1) + 1 := order
    refine popped order.1 fun v w' table frames low => ?_
    have low' : w'.machine.operands.length = f.operandBase + height (k + 1) := by
      rw [low]
      omega
    show Ends S _ ((if v.isTruthy then modifyMachine (·.goto target) else pure () : Exec η Unit) w')
    split
    · exact ⟨table, goTo table frames low⟩
    · exact ⟨table, goOn table frames low'⟩
  | call name argc =>
    obtain ⟨sig, rest, declared, before, after⟩ := order
    show Ends S _ ((findFunction name >>= fun g => do enter g (← popList argc)) w)
    cases found : w.machine.functions.get? name with
    | none =>
      rw [run_error (findFunction_unknown found)]
      exact ⟨h.table, by rintro ⟨⟩⟩
    | some g =>
      obtain ⟨named, fits⟩ := h.table name g found
      rw [run_ok (findFunction_known found)]
      refine Ends.bind (Moves.ends (.popList (n := f.operandBase + rest) argc) h.table ?_)
        fun args w' table low => ?_
      · rw [high, before, Nat.add_assoc]
      · refine (enter_ends fits args table).mono fun m table running => ?_
        obtain ⟨_, gs, framed, stacked⟩ := running
        rw [low.1, h.frames, List.append_assoc] at framed
        refine ⟨table, fs ++ [_] ++ gs, framed, ?_⟩
        rw [List.append_assoc]
        refine stacked_append.mpr ⟨_, h.below, rfl, height, inOrder, ?_⟩
        rw [low.2, fits.declared sig (by rw [named]; exact declared)] at stacked
        rw [after, ← Nat.add_assoc]
        exact stacked
  | «return» =>
    obtain ⟨results, positive⟩ := order
    refine popped (r := height k - 1) (by omega) fun v w' table frames low => ?_
    have here : RunningIn S pre out fs { f with ip := k + 1 } w'.machine :=
      ⟨table, by rw [frames]; exact h.frames, h.below⟩
    obtain ⟨functions, left, low⟩ := Machine.leave_running here (by
      rw [low]
      exact Nat.le_add_right _ _)
    refine ⟨?_, ?_⟩
    · show TableFits S w'.machine.leave.functions
      rw [functions]
      exact table
    · refine ⟨?_, fs, left, ?_⟩
      · show TableFits S w'.machine.leave.functions
        rw [functions]
        exact table
      · have below := h.below
        rw [results] at below
        show Stacked S out fs (w'.machine.leave.operands.length + 1)
        rw [low]
        exact below
  | returnVoid =>
    have results : f.function.results = 0 := order
    obtain ⟨functions, left, low⟩ := Machine.leave_running h (by
      rw [high]
      exact Nat.le_add_right _ _)
    have table : TableFits S w.machine.leave.functions := by
      rw [functions]
      exact h.table
    refine ⟨table, table, fs, left, ?_⟩
    have below := h.below
    rw [results] at below
    show Stacked S out fs w.machine.leave.operands.length
    rw [low]
    exact below
  | _ => exact absurd rfl straight

theorem step_running (heval : ∀ n args, Moves S n n (evaluate args)) {w : World η}
    (h : RunningIn S pre out fs f w.machine)
    (inOrder : InOrder S f.function.results height 0 f.function.code.toList)
    (high : w.machine.operands.length = f.operandBase + height f.ip) :
    Ends S (Machine.Running S pre out) (step evaluate f w) := by
  unfold step
  cases found : f.function.code[f.ip]? with
  | none => exact ⟨h.table, nofun⟩
  | some i =>
    have order : i.InOrder S f.function.results height f.ip := by
      have at_ := inOrder f.ip i (by rw [Array.getElem?_toList]; exact found)
      rwa [Nat.zero_add] at at_
    have frames := Machine.goto_frames (l := pre ++ fs) (by rw [h.frames, List.append_assoc]) (f.ip + 1)
    rw [List.append_assoc] at frames
    refine Ends.bind (P := fun m => m = w.machine.advance (f.ip + 1)) ⟨h.table, rfl⟩
      fun _ w' table here => ?_
    have running : RunningIn S pre out fs { f with ip := f.ip + 1 } w'.machine := by
      rw [here]
      exact ⟨h.table, frames, h.below⟩
    have acts := act_running heval running inOrder order (by rw [here]; exact high)
    refine Ends.machine ?_
    dsimp only
    cases exhausted : w'.machine.exhausted? with
    | none => exact acts
    | some fault =>
      refine ⟨table, ?_⟩
      unfold Machine.exhausted? at exhausted
      split at exhausted
      · cases exhausted
        exact nofun
      · cases exhausted

end Step

/-! ## Templates -/

theorem moves_link {c : CodeModule} (fits : c.Fits S) (n : Nat) : Moves S n n (link c : Exec η (List String)) := by
  intro w table height
  have linked : Machine.LinkedTo (TableFits S) (· ≠ .operandUnderflow) w.machine (Machine.link c w.machine) :=
    Machine.link_keeps fits w.machine table
  unfold link
  cases run : Machine.link c w.machine with
  | ok names m =>
    rw [run] at linked
    exact ⟨linked.functions, linked.frames, by
      show m.operands.length = n
      rw [linked.operands, height]⟩
  | error f m =>
    rw [run] at linked
    exact ⟨linked.1.functions, linked.2⟩

theorem moves_callAll {call : String → Exec η (Option Value)} {n : Nat}
    (hcall : ∀ name, Moves S n n (call name)) (names : List String) :
    Moves S n n (callAll call names) := by
  induction names with
  | nil => exact .pure _
  | cons name names ih => exact .bind (hcall name) fun _ => ih

theorem removeFunctions_table (names : List String) {m : Machine} (table : TableFits S m.functions) :
    TableFits S (names.foldl Machine.removeFunction m).functions
      ∧ (names.foldl Machine.removeFunction m).frames = m.frames
      ∧ (names.foldl Machine.removeFunction m).operands = m.operands := by
  induction names generalizing m with
  | nil => exact ⟨table, rfl, rfl⟩
  | cons name names ih => exact ih (m := m.removeFunction name) (table.erase name)

/-- The functions that were called are dropped again. -/
theorem moves_always {step : Exec η Unit} {n : Nat} (hstep : Moves S n n step) (names : List String) :
    Moves S n n (always step fun m => names.foldl Machine.removeFunction m) := by
  intro w table height
  have moved : MovedTo S w n (step w) := hstep w table height
  unfold always
  cases run : step w with
  | ok _ w' =>
    rw [run] at moved
    obtain ⟨kept, frames, operands⟩ := removeFunctions_table names moved.1
    refine ⟨kept, frames.trans moved.2.1, ?_⟩
    show (names.foldl Machine.removeFunction w'.machine).operands.length = n
    rw [operands]
    exact moved.2.2
  | error e w' =>
    rw [run] at moved
    exact ⟨(removeFunctions_table names moved.1).1, moved.2⟩

theorem moves_runTemplate {call : String → Exec η (Option Value)} {n : Nat} {c : TemplateCode}
    (fits : c.module.Fits S) (hcall : ∀ name, Moves S n n (call name)) :
    Moves S n n (runTemplate call c) := by
  unfold runTemplate
  refine .machine fun m => .bind (moves_link fits n) fun names => ?_
  refine .bind (moves_always (moves_callAll hcall _) _) fun _ => .machine fun m' => ?_
  split
  · refine .bind (.modifyMachine (f := fun m => { m with results := m.results.pop }) (fun _ => rfl)
      (fun _ => rfl) fun _ => rfl) fun _ => .pure _
  · exact .pure _

theorem moves_evaluate {host : Option (Host η)} (fits : ∀ x, host = some x → x.Fits S)
    {call : String → Exec η (Option Value)} {n : Nat} (hcall : ∀ name, Moves S n n (call name))
    (args : List Value) : Moves S n n (evaluate host call args) := by
  cases host with
  | none => exact .fail (by rintro ⟨⟩)
  | some host =>
    have fits := fits host rfl
    unfold evaluate
    refine .machine fun m => .bind (.ofExcept (m.mild_text _).ordinary.provided) fun template => ?_
    intro w table height
    have code := fits.code w.host ((args.head?.map Value.bits).getD 0) template
      ((args.drop 2).map Value.bits)
    have provided := fits.provided w.host ((args.head?.map Value.bits).getD 0) template
      ((args.drop 2).map Value.bits)
    rw [run_get]
    generalize host.compile w.host ((args.head?.map Value.bits).getD 0) template
        ((args.drop 2).map Value.bits) = compiled at code provided
    obtain ⟨result, h⟩ := compiled
    have rest : Moves S n n (do runTemplate call (← ofExcept result) : Exec η Value) := by
      cases result with
      | error f => exact fun _ table _ => ⟨table, provided f rfl⟩
      | ok c => exact moves_runTemplate (code c rfl) hcall
    exact rest { w with host := h } table height

/-! ## The loop -/

theorem moved_guarded {step : Exec η Unit} {k : Nat} {w : World η} (moved : MovedTo S w k (step w)) :
    MovedTo S w k (guarded step w) := by
  unfold guarded
  dsimp only
  cases run : step w with
  | ok _ w' =>
    rw [run] at moved
    exact moved
  | error e w' =>
    rw [run] at moved
    refine ⟨moved.1, ?_⟩
    show (e.withTrace _).fault ≠ _
    rw [e.fault_withTrace]
    exact moved.2

theorem moves_takeResult (f : CodeFunction) (n : Nat) :
    Moves S (n + f.results) n (takeResult f : Exec η (Option Value)) := by
  unfold CodeFunction.results
  intro w table height
  cases ret : f.ret with
  | none =>
    rw [ret] at height
    rw [takeResult_void ret]
    exact ⟨table, rfl, height⟩
  | some kind =>
    rw [ret] at height
    cases operands : w.machine.operands with
    | nil =>
      rw [operands] at height
      cases height
    | cons v rest =>
      rw [operands] at height
      rw [takeResult_cons (by rw [ret]; rfl) operands]
      exact ⟨table, rfl, Nat.succ.inj height⟩

/-- What a function does from its first instruction to its end, with `run` for the loop. -/
theorem moved_body {run : Nat → Exec η Unit}
    (hrun : ∀ pre out (w : World η), Machine.Running S pre out w.machine →
      Ends S (fun m => m.frames.toList = pre ∧ m.operands.length = out) (run pre.length w))
    {f : CodeFunction} (fits : f.Fits S) (args : List Value) {w : World η}
    (table : TableFits S w.machine.functions) :
    MovedTo S w (w.machine.operands.length + f.results)
      ((do enter f args; run w.machine.frames.size : Exec η Unit) w) := by
  have ended := Ends.bind (enter_ends fits args table) fun _ w' _ running => hrun _ _ w' running
  rw [Array.length_toList] at ended
  cases run : ((do enter f args; run w.machine.frames.size : Exec η Unit) w) with
  | ok _ w' =>
    rw [run] at ended
    exact ⟨ended.1, Array.toList_inj.mp ended.2.1, ended.2.2⟩
  | error e w' =>
    rw [run] at ended
    exact ended

/-- A call gives the operand stack back as high as it found it. -/
theorem moves_callWith {run : Nat → Exec η Unit}
    (hrun : ∀ pre out (w : World η), Machine.Running S pre out w.machine →
      Ends S (fun m => m.frames.toList = pre ∧ m.operands.length = out) (run pre.length w))
    (name : String) (args : List Value) (n : Nat) : Moves S n n (callWith run name args) := by
  intro w table height
  unfold callWith
  cases found : w.machine.functions.get? name with
  | none =>
    rw [run_error (findFunction_unknown found)]
    exact ⟨table, by rintro ⟨⟩⟩
  | some f =>
    rw [run_ok (findFunction_known found)]
    have fits := (table name f found).2
    let rest : Exec η (Option Value) := do
      guarded do
        enter f args
        run w.machine.frames.size
      takeResult f
    have called (w' : World η) (table : TableFits S w'.machine.functions)
        (frames : w'.machine.frames = w.machine.frames) (height : w'.machine.operands.length = n) :
        MovedTo S w' n (rest w') := by
      have body := moved_guarded (moved_body hrun fits args table)
      rw [frames, height] at body
      exact body.bind fun _ => moves_takeResult f n
    show MovedTo S w n ((if w.machine.frames.size = 0
      then modifyMachine ({ · with instructionCount := 0 }) >>= fun _ => rest else rest) w)
    split
    · exact called { w with machine := { w.machine with instructionCount := 0 } } table rfl height
    · exact called w table rfl height

theorem run_running {host : Option (Host η)} (fits : ∀ x, host = some x → x.Fits S) (fuel : Nat) :
    ∀ pre out (w : World η), Machine.Running S pre out w.machine →
      Ends S (fun m => m.frames.toList = pre ∧ m.operands.length = out)
        (run host fuel pre.length w) := by
  induction fuel with
  | zero => exact fun pre out w h => ⟨h.table, nofun⟩
  | succ fuel ih =>
    intro pre out w h
    obtain ⟨fs, frames, stacked⟩ := h.frames
    have depth : w.machine.depth = pre.length + fs.length := by
      show w.machine.frames.size = _
      rw [← Array.length_toList, frames, List.length_append]
    unfold run
    refine Ends.machine ?_
    rcases List.eq_nil_or_concat fs with rfl | ⟨gs, f, rfl⟩
    · rw [dif_neg (by rw [depth]; exact Nat.lt_irrefl _)]
      rw [List.append_nil] at frames
      exact ⟨h.table, frames, stacked⟩
    · rw [List.concat_eq_append] at frames stacked depth
      have active : pre.length < w.machine.depth := by
        rw [depth, List.length_append, List.length_singleton]
        omega
      obtain ⟨mid, below, leaves, height, inOrder, high⟩ := stacked_append.mp stacked
      rw [dif_pos active, Machine.innermost_eq (l := pre ++ gs) (by rw [frames, List.append_assoc])]
      refine Ends.bind (P := Machine.Running S pre out) (step_running ?_ ⟨h.table, frames, ?_⟩ inOrder high)
        fun _ w' _ running => ?_
      · exact fun n args => moves_evaluate fits (fun name => moves_callWith ih name [] n) args
      · rw [leaves]
        exact below
      · exact ih pre out w' running

/-- A call of any function with any arguments gives the operand stack back as high as it found it, or
fails for want of something else than operands. -/
theorem moves_call {host : Option (Host η)} (fits : ∀ x, host = some x → x.Fits S) (name : String)
    (args : List Value) (n : Nat) : Moves S n n (call host name args) :=
  .machine fun m => moves_callWith (run_running fits (m.maxInstructions + 2)) name args n

end Exec

end IncrementalC
