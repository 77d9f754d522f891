import IncrementalC.Proofs.Machine.Frames

/-!
# The loop without fuel

`runWhile evaluate go` runs instructions as long as `go` holds. It needs no fuel of its own, since
instructions are counted (`runWhile_eq`). The loop of the machine is of this kind, whatever fuel it
is given, if only it is enough for the instructions that may still be run (`run_eq`).

`evaluateCode evaluate depth c` puts the function at depth `depth` at the first instruction of the
stretch `c` of its code and runs until it has left the stretch. Code that jumps nowhere else and does
not return leaves at the end, with the active functions as they were (`evaluateCode_ok`).
-/
namespace IncrementalC.Exec
set_option autoImplicit false

variable {η α : Type} {evaluate : List Value → Exec η Value} {go go' : Machine → Bool} {w w' : World η}

/-- Runs one instruction of the innermost active function. -/
def next (evaluate : List Value → Exec η Value) : Exec η Unit := fun w =>
  if active : 0 < w.machine.depth then step evaluate (w.machine.innermost active) w else .ok () w

def loop (evaluate : List Value → Exec η Value) (go : Machine → Bool) : Nat → Exec η Unit
  | 0 => do fail (.instructionLimit (← machine).maxInstructions)
  | fuel + 1 => fun w =>
    if go w.machine then (next evaluate >>= fun _ => loop evaluate go fuel) w else .ok () w

def runWhile (evaluate : List Value → Exec η Value) (go : Machine → Bool) : Exec η Unit := fun w =>
  loop evaluate go (w.machine.maxInstructions + 1) w

/-- The instructions that may still be run. -/
def left (w : World η) : Nat := w.machine.maxInstructions - w.machine.instructionCount

/-! ## Steps -/

theorem next_eq {l : List Frame} {f : Frame} (frames : w.machine.frames.toList = l ++ [f]) :
    next evaluate w = step evaluate f w := by
  have active : 0 < w.machine.depth := by
    show 0 < w.machine.frames.size
    rw [← Array.length_toList, frames, List.length_append]
    exact Nat.succ_pos _
  unfold next
  rw [dif_pos active, Machine.innermost_eq frames]

theorem exists_innermost (active : 0 < w.machine.frames.size) :
    ∃ l f, w.machine.frames.toList = l ++ [f] := by
  rcases List.eq_nil_or_concat w.machine.frames.toList with none | ⟨l, f, some⟩
  · rw [← Array.length_toList, none] at active
    cases active
  · exact ⟨l, f, by rw [some, List.concat_eq_append]⟩

/-- A step leaves fewer instructions that may be run. -/
theorem left_lt (steady : ∀ args, Steady (evaluate args)) (active : 0 < w.machine.frames.size)
    {u : Unit} (h : next evaluate w = .ok u w') :
    left w' < left w ∧ w'.machine.maxInstructions = w.machine.maxInstructions := by
  obtain ⟨l, f, frames⟩ := exists_innermost active
  rw [next_eq frames] at h
  have moved := stepped steady frames h
  refine ⟨?_, moved.limit⟩
  have count := moved.count
  have room := moved.room
  unfold left
  rw [moved.limit]
  omega

/-! ## Loops -/

/-- What follows a step matters only where the step leads to. -/
theorem bind_congr {α β : Type} {x : Exec η α} {f g : α → Exec η β} (same : ∀ a w', x w = .ok a w' → f a w' = g a w') :
    (x >>= f) w = (x >>= g) w := by
  show EStateM.bind _ _ w = EStateM.bind _ _ w
  unfold EStateM.bind
  cases run : x w with
  | error e w' => rfl
  | ok a w' => exact same a w' run

section Loop

variable (steady : ∀ args, Steady (evaluate args)) (active : ∀ m, go m → 0 < m.frames.size)
include steady active

theorem loop_fuel {n n' : Nat} (enough : left w < n) (enough' : left w < n') :
    loop evaluate go n w = loop evaluate go n' w := by
  induction n generalizing n' w with
  | zero => exact absurd enough (Nat.not_lt_zero _)
  | succ n ih =>
    cases n' with
    | zero => exact absurd enough' (Nat.not_lt_zero _)
    | succ n' =>
      unfold loop
      cases goes : go w.machine with
      | false => rfl
      | true =>
        refine bind_congr fun u w' run => ?_
        have less := (left_lt steady (active _ goes) run).1
        exact ih (by omega) (by omega)

theorem runWhile_eq : runWhile evaluate go w =
    if go w.machine then (next evaluate >>= fun _ => runWhile evaluate go) w else .ok () w := by
  show loop evaluate go (w.machine.maxInstructions + 1) w = _
  unfold loop
  cases goes : go w.machine with
  | false => rfl
  | true =>
    refine bind_congr fun u w' run => ?_
    obtain ⟨less, limit⟩ := left_lt steady (active _ goes) run
    show loop evaluate go w.machine.maxInstructions w' = loop evaluate go (w'.machine.maxInstructions + 1) w'
    have bound : left w ≤ w.machine.maxInstructions := Nat.sub_le _ _
    exact loop_fuel steady active (by omega) (by rw [limit]; omega)

theorem runWhile_stop (stops : go w.machine = false) : runWhile evaluate go w = .ok () w := by
  rw [runWhile_eq steady active, stops]
  rfl

theorem runWhile_step (goes : go w.machine) {u : Unit} (run : next evaluate w = .ok u w') :
    runWhile evaluate go w = runWhile evaluate go w' := by
  rw [runWhile_eq steady active, if_pos goes]
  show EStateM.bind _ _ w = _
  unfold EStateM.bind
  rw [run]

theorem runWhile_error (goes : go w.machine) {e : MachineError}
    (run : next evaluate w = .error e w') : runWhile evaluate go w = .error e w' := by
  rw [runWhile_eq steady active, if_pos goes]
  show EStateM.bind _ _ w = _
  unfold EStateM.bind
  rw [run]

/-- A loop may pause. -/
theorem runWhile_split (part : ∀ m, go' m → go m) : runWhile evaluate go w =
    (runWhile evaluate go' >>= fun _ => runWhile evaluate go) w := by
  have active' (m : Machine) (goes : go' m) := active m (part m goes)
  induction n : left w using Nat.strongRecOn generalizing w with
  | ind n ih =>
    cases goes : go' w.machine with
    | false =>
      show _ = EStateM.bind _ _ w
      unfold EStateM.bind
      rw [runWhile_stop steady active' goes]
    | true =>
      show _ = EStateM.bind _ _ w
      unfold EStateM.bind
      cases run : next evaluate w with
      | error e w' =>
        rw [runWhile_error steady active (part _ goes) run, runWhile_error steady active' goes run]
      | ok u w' =>
        rw [runWhile_step steady active (part _ goes) run, runWhile_step steady active' goes run]
        exact ih _ (by rw [← n]; exact (left_lt steady (active' _ goes) run).1) rfl

end Loop

/-! ## Calls and templates are steady -/

/-- A loop that goes on until the functions in `l` are the active ones again. -/
def ComesBack (run : Nat → Exec η Unit) : Prop :=
  ∀ (l above : List Frame) (w w' : World η) (u : Unit), w.machine.frames.toList = l ++ above →
    l ≠ [] → run l.length w = .ok u w' → w'.machine.frames.toList = l
      ∧ w'.machine.maxInstructions = w.machine.maxInstructions
      ∧ w.machine.instructionCount ≤ w'.machine.instructionCount

theorem guarded_ok {m : Exec η Unit} {u : Unit} (h : guarded m w = .ok u w') : m w = .ok u w' := by
  unfold guarded at h
  dsimp only at h
  split at h
  · cases h
    assumption
  · cases h

theorem steady_takeResult (f : CodeFunction) : Steady (takeResult f : Exec η (Option Value)) := by
  intro w v w' _ h
  cases ret : f.ret with
  | none =>
    rw [takeResult_void ret] at h
    cases h
    exact .refl w
  | some kind =>
    cases operands : w.machine.operands with
    | nil =>
      rw [takeResult_nil operands] at h
      cases h
      exact .refl w
    | cons x rest =>
      rw [takeResult_cons (by rw [ret]; rfl) operands] at h
      cases h
      exact ⟨rfl, rfl, Nat.le_refl _⟩

section Calls

variable {run run' : Nat → Exec η Unit} {name : String}

/-- A call from an active function. -/
theorem callWith_eq (active : 0 < w.machine.frames.size) {f : CodeFunction}
    (found : w.machine.functions.get? name = some f) (args : List Value) :
    callWith run name args w =
      (guarded (enter f args >>= fun _ => run w.machine.frames.size) >>= fun _ => takeResult f) w := by
  unfold callWith
  rw [run_ok (findFunction_known found)]
  exact congrFun (if_neg (Nat.ne_of_gt active)) w

theorem callWith_none (found : w.machine.functions.get? name = none) (args : List Value) :
    callWith run name args w = .error { fault := .undefinedFunction name } w := by
  unfold callWith
  rw [run_error (findFunction_unknown found)]

theorem steady_callWith (back : ComesBack run) (name : String) (args : List Value) :
    Steady (callWith run name args) := by
  intro w v w' active h
  cases found : w.machine.functions.get? name with
  | none =>
    rw [callWith_none found] at h
    cases h
  | some f =>
    rw [callWith_eq active found] at h
    obtain ⟨_, w₁, called, taken⟩ := bind_eq_ok h
    obtain ⟨_, w₂, entered, ran⟩ := bind_eq_ok (guarded_ok called)
    obtain rfl := enter_ok entered
    have frames : (w.machine.enter f args).frames.toList = w.machine.frames.toList ++ [_] :=
      Array.toList_push
    have some : w.machine.frames.toList ≠ [] := fun none => by
      rw [← Array.length_toList, none] at active
      cases active
    rw [← Array.length_toList] at ran
    obtain ⟨same, limit, count⟩ := back _ _ _ _ _ frames some ran
    have since : Since w w₁ := ⟨Array.toList_inj.mp same, limit, count⟩
    exact since.trans (steady_takeResult f w₁ v w' (by rw [since.frames]; exact active) taken)

variable {host : Option (Host η)} {call call' : String → Exec η (Option Value)}

theorem steady_link (c : CodeModule) : Steady (link c : Exec η (List String)) := by
  intro w names w' _ h
  unfold link at h
  cases linked : Machine.link c w.machine with
  | ok ns m =>
    rw [linked] at h
    cases h
    have same := Machine.links_link c _ _ _ linked
    exact ⟨same.frames, same.limit, Nat.le_of_eq same.count.symm⟩
  | error f m =>
    rw [linked] at h
    cases h

theorem steady_callAll (hcall : ∀ name, Steady (call name)) (names : List String) :
    Steady (callAll call names) := by
  induction names with
  | nil => exact .pure _
  | cons name names ih => exact .bind (hcall name) fun _ => ih

theorem removeFunctions_sameRun (names : List String) (m : Machine) :
    m.SameRun (names.foldl Machine.removeFunction m) := by
  induction names generalizing m with
  | nil => exact .refl m
  | cons name names ih =>
    have first : m.SameRun (m.removeFunction name) := ⟨rfl, rfl, rfl⟩
    exact first.trans (ih _)

theorem steady_always {m : Exec η Unit} (hm : Steady m) (names : List String) :
    Steady (always m fun m => names.foldl Machine.removeFunction m) := by
  intro w u w' active h
  unfold always at h
  cases run : m w with
  | ok u w₁ =>
    rw [run] at h
    cases h
    have since := hm w _ w₁ active run
    have same := removeFunctions_sameRun names w₁.machine
    exact since.trans ⟨same.frames, same.limit, Nat.le_of_eq same.count.symm⟩
  | error e w₁ =>
    rw [run] at h
    cases h

theorem steady_runTemplate (hcall : ∀ name, Steady (call name)) (c : TemplateCode) :
    Steady (runTemplate call c) := by
  unfold runTemplate
  refine .machine fun m => .bind (steady_link _) fun names => ?_
  refine .bind (steady_always (steady_callAll hcall _) _) fun _ => .machine fun m' => .ite ?_ (.pure _)
  exact .bind (.modifyMachine (f := fun m => { m with results := m.results.pop }) fun _ => ⟨rfl, rfl, rfl⟩)
    fun _ => .pure _

theorem steady_evaluate (hcall : ∀ name, Steady (call name)) (args : List Value) :
    Steady (Exec.evaluate host call args) := by
  cases host with
  | none => exact .fail _
  | some host =>
    unfold Exec.evaluate
    refine .machine fun m => .bind (.ofExcept _) fun template => ?_
    intro w v w' active h
    rw [run_get] at h
    generalize host.compile w.host ((args.head?.map Value.bits).getD 0) template
        ((args.drop 2).map Value.bits) = compiled at h
    obtain ⟨result, x⟩ := compiled
    have run : Steady (ofExcept result >>= runTemplate call) :=
      .bind (.ofExcept _) fun code => steady_runTemplate hcall code
    have since := run { w with host := x } v w' active h
    exact ⟨since.frames, since.limit, since.count⟩

/-- One step above the frames in `l` leaves them alone. -/
theorem framesAfter_above {l above : List Frame} {f : Frame} {i : Instr} {fs : List Frame}
    (h : FramesAfter (l ++ above) f i fs) : ∃ above', fs = l ++ above' := by
  cases h with
  | stays ip => exact ⟨_, List.append_assoc _ _ _⟩
  | calls name argc g => exact ⟨_, List.append_assoc _ _ _⟩
  | leaves => exact ⟨above, rfl⟩

/-- One turn of a loop that ends at a depth. -/
theorem turn_eq (evaluate : List Value → Exec η Value) (rest : Exec η Unit) (depth : Nat) :
    (if active : depth < w.machine.depth then
      step evaluate (w.machine.innermost (Nat.zero_lt_of_lt active)) >>= fun _ => rest
    else pure () : Exec η Unit) w =
      if depth < w.machine.depth then (next evaluate >>= fun _ => rest) w else .ok () w := by
  by_cases active : depth < w.machine.depth
  · rw [dif_pos active, if_pos active]
    show EStateM.bind _ _ w = EStateM.bind _ _ w
    unfold EStateM.bind next
    rw [dif_pos (Nat.zero_lt_of_lt active)]
  · rw [dif_neg active, if_neg active]
    rfl

theorem run_succ {fuel depth : Nat} : Exec.run host (fuel + 1) depth w =
    if depth < w.machine.depth then
      (next (Exec.evaluate host fun name => callWith (Exec.run host fuel) name []) >>= fun _ =>
        Exec.run host fuel depth) w
    else .ok () w :=
  turn_eq (Exec.evaluate host fun name => callWith (Exec.run host fuel) name []) (Exec.run host fuel depth) depth

theorem comesBack_run (host : Option (Host η)) (fuel : Nat) : ComesBack (Exec.run host fuel) := by
  induction fuel with
  | zero => exact fun l above w w' u _ _ h => by cases h
  | succ fuel ih =>
    have steady (args : List Value) :
        Steady (Exec.evaluate host (fun name => callWith (Exec.run host fuel) name []) args) :=
      steady_evaluate (fun name => steady_callWith ih name []) args
    intro l above w w' u frames inside h
    rw [run_succ] at h
    rcases List.eq_nil_or_concat above with rfl | ⟨gs, f, rfl⟩
    · rw [List.append_nil] at frames
      have depth : ¬l.length < w.machine.depth := by
        show ¬l.length < w.machine.frames.size
        rw [← Array.length_toList, frames]
        exact Nat.lt_irrefl _
      rw [if_neg depth] at h
      cases h
      exact ⟨frames, rfl, Nat.le_refl _⟩
    · rw [List.concat_eq_append, ← List.append_assoc] at frames
      have depth : l.length < w.machine.depth := by
        show l.length < w.machine.frames.size
        rw [← Array.length_toList, frames, List.append_assoc, List.length_append, List.length_append]
        exact Nat.lt_add_of_pos_right (Nat.succ_pos _)
      rw [if_pos depth] at h
      obtain ⟨_, w₁, stepped_, rest⟩ := bind_eq_ok h
      rw [next_eq frames] at stepped_
      have moved := stepped steady frames stepped_
      obtain ⟨i, -, after⟩ := moved.frames
      obtain ⟨above', frames'⟩ := framesAfter_above after
      obtain ⟨same, limit, count⟩ := ih l above' w₁ w' u frames' inside rest
      exact ⟨same, limit.trans moved.limit, Nat.le_trans (Nat.le_of_lt moved.count) count⟩

/-! ## Fuel -/

theorem callWith_congr {args : List Value} (active : 0 < w.machine.frames.size)
    (agree : ∀ d w', left w' = left w → run d w' = run' d w') :
    callWith run name args w = callWith run' name args w := by
  cases found : w.machine.functions.get? name with
  | none => rw [callWith_none found, callWith_none found]
  | some f =>
    rw [callWith_eq active found, callWith_eq active found]
    have same : (enter f args >>= fun _ => run w.machine.frames.size) w
        = (enter f args >>= fun _ => run' w.machine.frames.size) w := by
      show EStateM.bind _ _ w = EStateM.bind _ _ w
      unfold EStateM.bind
      cases entered : enter f args w with
      | error e w₁ => rfl
      | ok u w₁ =>
        obtain rfl := enter_ok entered
        exact agree _ _ rfl
    have called : guarded (enter f args >>= fun _ => run w.machine.frames.size) w
        = guarded (enter f args >>= fun _ => run' w.machine.frames.size) w := by
      unfold guarded
      dsimp only
      rw [same]
    show EStateM.bind _ _ w = EStateM.bind _ _ w
    unfold EStateM.bind
    rw [called]

/-- Two computations are the same in all worlds in which at most `n` instructions may still be run. -/
def AgreeBelow (n : Nat) (m m' : Exec η α) : Prop :=
  ∀ w, 0 < w.machine.frames.size → left w ≤ n → m w = m' w

theorem Since.left_le (h : Since w w') : left w' ≤ left w := by
  have limit := h.limit
  have count := h.count
  unfold left
  omega

theorem AgreeBelow.bind {β : Type} {n : Nat} {m m' : Exec η α} {f f' : α → Exec η β} (hm : AgreeBelow n m m')
    (steady : Steady m) (hf : ∀ x, AgreeBelow n (f x) (f' x)) : AgreeBelow n (m >>= f) (m' >>= f') := by
  intro w active less
  show EStateM.bind _ _ w = EStateM.bind _ _ w
  unfold EStateM.bind
  rw [← hm w active less]
  cases run : m w with
  | error e w₁ => rfl
  | ok x w₁ =>
    have since := steady w x w₁ active run
    exact hf x w₁ (by rw [since.frames]; exact active) (Nat.le_trans since.left_le less)

theorem AgreeBelow.refl {n : Nat} (m : Exec η α) : AgreeBelow n m m := fun _ _ _ => rfl

theorem AgreeBelow.machine {β : Type} {n : Nat} {f f' : Machine → Exec η β}
    (hf : ∀ m, AgreeBelow n (f m) (f' m)) : AgreeBelow n (Exec.machine >>= f) (Exec.machine >>= f') :=
  fun w => hf w.machine w

theorem agree_callAll {n : Nat} (steady : ∀ name, Steady (call name))
    (hcall : ∀ name, AgreeBelow n (call name) (call' name)) (names : List String) :
    AgreeBelow n (callAll call names) (callAll call' names) := by
  induction names with
  | nil => exact .refl _
  | cons name names ih => exact .bind (hcall name) (steady name) fun _ => ih

theorem agree_always {n : Nat} {m m' : Exec η Unit} (hm : AgreeBelow n m m') (last : Machine → Machine) :
    AgreeBelow n (always m last) (always m' last) := by
  intro w active less
  unfold always
  rw [hm w active less]

theorem agree_runTemplate {n : Nat} (steady : ∀ name, Steady (call name))
    (hcall : ∀ name, AgreeBelow n (call name) (call' name)) (c : TemplateCode) :
    AgreeBelow n (runTemplate call c) (runTemplate call' c) := by
  unfold runTemplate
  refine .machine fun m => .bind (.refl _) (steady_link _) fun names => ?_
  exact .bind (agree_always (agree_callAll steady hcall _) _)
    (steady_always (steady_callAll steady _) _) fun _ => .refl _

theorem agree_evaluate {n : Nat} (steady : ∀ name, Steady (call name))
    (hcall : ∀ name, AgreeBelow n (call name) (call' name)) (args : List Value) :
    AgreeBelow n (Exec.evaluate host call args) (Exec.evaluate host call' args) := by
  cases host with
  | none => exact .refl _
  | some host =>
    unfold Exec.evaluate
    refine .machine fun m => .bind (.refl _) (.ofExcept _) fun template => ?_
    intro w active less
    rw [run_get, run_get]
    generalize host.compile w.host ((args.head?.map Value.bits).getD 0) template
        ((args.drop 2).map Value.bits) = compiled
    obtain ⟨result, x⟩ := compiled
    have run : AgreeBelow n (ofExcept result >>= runTemplate call) (ofExcept result >>= runTemplate call') :=
      .bind (.refl _) (.ofExcept _) fun code => agree_runTemplate steady hcall code
    exact run { w with host := x } active less

theorem agree_act {n : Nat} {ev ev' : List Value → Exec η Value}
    (hev : ∀ args, AgreeBelow n (ev args) (ev' args)) (i : Instr) (ret : Option Scalar) (base : Nat) :
    AgreeBelow n (act ev ret base i) (act ev' ret base i) := by
  by_cases template : ∃ argc, i = .builtin .eval argc
  · obtain ⟨argc, rfl⟩ := template
    refine .bind (.refl (popList argc)) (.popList argc) fun args => ?_
    intro w active less
    show EStateM.bind _ _ w = EStateM.bind _ _ w
    unfold EStateM.bind
    rw [hev args w active less]
  · have other (e : List Value → Exec η Value) : act e ret base i = instr ret base i := by
      unfold act
      split
      · exact absurd ⟨_, rfl⟩ template
      · rfl
    rw [other, other]
    exact .refl _

/-- How the machine evaluates templates: what they call runs as by a call of its own. -/
def templates (host : Option (Host η)) (args : List Value) : Exec η Value :=
  Exec.evaluate host (fun name => Exec.call host name []) args

theorem steady_call (host : Option (Host η)) (name : String) (args : List Value) :
    Steady (Exec.call host name args) :=
  .machine fun m => steady_callWith (comesBack_run host (m.maxInstructions + 2)) name args

theorem steady_templates (host : Option (Host η)) (args : List Value) : Steady (templates host args) :=
  steady_evaluate (fun name => steady_call host name []) args

/-- The loop of the machine runs while more than `depth` functions are active. Its fuel does not
matter as long as it exceeds the number of instructions that may still be run. -/
theorem run_eq {fuel depth : Nat} (enough : left w < fuel) :
    Exec.run host fuel depth w = runWhile (templates host) (fun m => depth < m.depth) w := by
  induction n : left w using Nat.strongRecOn generalizing w fuel depth with
  | ind n ih =>
    cases fuel with
    | zero => exact absurd enough (Nat.not_lt_zero _)
    | succ fuel =>
      have active (m : Machine) (above : decide (depth < m.depth)) : 0 < m.frames.size :=
        Nat.zero_lt_of_lt (of_decide_eq_true above)
      rw [run_succ, runWhile_eq (steady_templates host) active]
      by_cases above : depth < w.machine.depth
      · rw [if_pos above, if_pos (decide_eq_true above)]
        obtain ⟨l, f, frames⟩ := exists_innermost (Nat.zero_lt_of_lt above)
        have steady (args : List Value) :
            Steady (Exec.evaluate host (fun name => callWith (Exec.run host fuel) name []) args) :=
          steady_evaluate (fun name => steady_callWith (comesBack_run host fuel) name []) args
        -- what a template calls runs after this step was counted
        have same : next (Exec.evaluate host fun name => callWith (Exec.run host fuel) name []) w
            = next (templates host) w := by
          rw [next_eq frames, next_eq frames]
          cases found : f.function.code[f.ip]? with
          | none => rw [step_none found, step_none found]
          | some i =>
            rw [step_eq found, step_eq found]
            split
            · rfl
            · rename_i counted
              have fewer : left (advanced w (f.ip + 1)) < left w := by
                show w.machine.maxInstructions - (w.machine.instructionCount + 1)
                  < w.machine.maxInstructions - w.machine.instructionCount
                omega
              refine agree_act (agree_evaluate (fun name => steady_callWith (comesBack_run host fuel) name [])
                fun name w₁ active₁ less => ?_) i _ _ _ ?_ (Nat.le_refl _)
              · refine callWith_congr active₁ fun d w₂ here => ?_
                have bound : left w₁ ≤ w₁.machine.maxInstructions := Nat.sub_le _ _
                rw [ih (left w₂) (by omega) (by omega) rfl, ih (left w₂) (by omega) (by omega) rfl]
              · show 0 < (w.machine.goto (f.ip + 1)).frames.size
                rw [← Array.length_toList, Machine.goto_frames frames, List.length_append]
                exact Nat.succ_pos _
        show EStateM.bind _ _ w = EStateM.bind _ _ w
        unfold EStateM.bind
        rw [same]
        cases run : next (templates host) w with
        | error e w' => rfl
        | ok u w' =>
          have less := (left_lt (steady_templates host) (Nat.zero_lt_of_lt above) run).1
          exact ih _ (by omega) (by omega) rfl
      · rw [if_neg above, if_neg (fun h => above (of_decide_eq_true h))]

end Calls

end IncrementalC.Exec

namespace IncrementalC
set_option autoImplicit false

/-- The instructions of a function from `first` on, up to but without `last`. -/
structure Segment where
  first : Nat
  last : Nat
deriving DecidableEq, Repr

namespace Segment

/-- The function at depth `depth` stands in the stretch, or waits there for one that it called. -/
def holds (c : Segment) (depth : Nat) (m : Machine) : Bool :=
  match m.frames[depth]? with
  | some f => depth + 1 < m.depth || (c.first ≤ f.ip && f.ip < c.last)
  | none => false

/-- The instructions in the stretch do not return and jump inside the stretch or to its end. -/
structure Inward (code : Array Instr) (c : Segment) : Prop where
  ordered : c.first ≤ c.last
  returns : ∀ k i, c.first ≤ k → k < c.last → code[k]? = some i → i.isReturn = false
  jumps : ∀ k i target, c.first ≤ k → k < c.last → code[k]? = some i → i.target? = some target →
    c.first ≤ target ∧ target ≤ c.last

end Segment

/-- The innermost active function, put at an instruction. -/
def World.goto {η : Type} (w : World η) (ip : Nat) : World η := ⟨w.machine.goto ip, w.host⟩

namespace Exec

variable {η : Type} {evaluate : List Value → Exec η Value} {l : List Frame} {f : Frame} {c : Segment}
  {w w' : World η}

def evaluateCode (evaluate : List Value → Exec η Value) (depth : Nat) (c : Segment) : Exec η Unit :=
  fun w => runWhile evaluate (c.holds depth) (w.goto c.first)

theorem holds_active {depth : Nat} (m : Machine) (h : c.holds depth m) : 0 < m.frames.size := by
  unfold Segment.holds at h
  cases found : m.frames[depth]? with
  | none =>
    rw [found] at h
    cases h
  | some f =>
    obtain ⟨inside, -⟩ := Array.getElem?_eq_some_iff.mp found
    exact Nat.zero_lt_of_lt inside

/-- A function that stands in the stretch, or waits there for those above it. -/
theorem holds_iff {above : List Frame} {m : Machine} (frames : m.frames.toList = l ++ f :: above) :
    c.holds l.length m ↔ above ≠ [] ∨ (c.first ≤ f.ip ∧ f.ip < c.last) := by
  have found : m.frames[l.length]? = some f := by
    rw [← Array.getElem?_toList, frames, List.getElem?_append_right (Nat.le_refl _), Nat.sub_self]
    rfl
  have depth : m.depth = l.length + 1 + above.length := by
    show m.frames.size = _
    rw [← Array.length_toList, frames, List.length_append, List.length_cons]
    omega
  unfold Segment.holds
  rw [found]
  dsimp only
  rw [Bool.or_eq_true, Bool.and_eq_true, decide_eq_true_iff, decide_eq_true_iff, decide_eq_true_iff, depth]
  refine or_congr ?_ Iff.rfl
  rw [← List.length_pos_iff]
  omega

/-- A part of the stretch runs as long as the stretch does. -/
theorem holds_mono {d : Segment} (low : c.first ≤ d.first) (high : d.last ≤ c.last) {depth : Nat} (m : Machine)
    (holds : d.holds depth m) : c.holds depth m := by
  unfold Segment.holds at holds ⊢
  cases found : m.frames[depth]? with
  | none =>
    rw [found] at holds
    cases holds
  | some g =>
    rw [found] at holds
    simp only [Bool.or_eq_true, Bool.and_eq_true, decide_eq_true_iff] at holds ⊢
    omega

/-- A function is left at the end of the stretch. -/
theorem runWhile_within (steady : ∀ args, Steady (evaluate args)) (inward : c.Inward f.function.code)
    {above : List Frame} {ip : Nat} (frames : w.machine.frames.toList = l ++ { f with ip } :: above)
    (inside : c.first ≤ ip ∧ ip ≤ c.last) {u : Unit}
    (h : runWhile evaluate (c.holds l.length) w = .ok u w') :
    w'.machine.frames.toList = l ++ [{ f with ip := c.last }]
      ∧ w'.machine.maxInstructions = w.machine.maxInstructions ∧ left w' ≤ left w := by
  induction bound : left w using Nat.strongRecOn generalizing w above ip with
  | ind n ih =>
    by_cases goes : c.holds l.length w.machine
    · cases run : next evaluate w with
      | error e w₁ =>
        rw [runWhile_error steady holds_active goes run] at h
        cases h
      | ok u w₁ =>
        rw [runWhile_step steady holds_active goes run] at h
        obtain ⟨less, limit⟩ := left_lt steady (holds_active _ goes) run
        have goOn {above' : List Frame} {ip' : Nat}
            (frames' : w₁.machine.frames.toList = l ++ { f with ip := ip' } :: above')
            (inside' : c.first ≤ ip' ∧ ip' ≤ c.last) :
            w'.machine.frames.toList = l ++ [{ f with ip := c.last }]
              ∧ w'.machine.maxInstructions = w.machine.maxInstructions ∧ left w' ≤ n := by
          obtain ⟨done, limit', less'⟩ := ih _ (by omega) frames' inside' h rfl
          exact ⟨done, limit'.trans limit, by omega⟩
        rcases List.eq_nil_or_concat above with rfl | ⟨gs, g, rfl⟩
        · -- the function itself runs
          obtain ⟨-, before⟩ := (holds_iff frames).mp goes |>.resolve_left (fun h => h rfl)
          rw [next_eq frames] at run
          obtain ⟨i, found, after⟩ := (stepped steady frames run).frames
          generalize w₁.machine.frames.toList = fs at goOn after
          cases after with
          | stays ip' next _ =>
            refine goOn rfl ?_
            obtain rfl | jump := next
            · exact ⟨Nat.le_succ_of_le inside.1, before⟩
            · exact inward.jumps _ _ _ inside.1 before found jump
          | calls name argc g => exact goOn rfl ⟨Nat.le_succ_of_le inside.1, before⟩
          | leaves returns =>
            rw [inward.returns _ _ inside.1 before found] at returns
            cases returns
        · -- a function that it called runs
          have split : l ++ { f with ip } :: (gs.concat g) = (l ++ { f with ip } :: gs) ++ [g] := by
            rw [List.concat_eq_append, List.append_assoc, List.cons_append]
          rw [split] at frames
          rw [next_eq frames] at run
          obtain ⟨i, -, after⟩ := (stepped steady frames run).frames
          generalize w₁.machine.frames.toList = fs at goOn after
          cases after with
          | stays ip' _ _ => exact goOn (List.append_assoc _ _ _) inside
          | calls name argc g' => exact goOn (List.append_assoc _ _ _) inside
          | leaves _ => exact goOn rfl inside
    · rw [runWhile_stop steady holds_active (Bool.eq_false_iff.mpr goes)] at h
      cases h
      rw [holds_iff frames, not_or, Decidable.not_not] at goes
      obtain ⟨rfl, out⟩ := goes
      have last : ip = c.last :=
        Nat.le_antisymm inside.2 (Nat.le_of_not_lt fun before => out ⟨inside.1, before⟩)
      subst last
      exact ⟨frames, rfl, Nat.le_of_eq bound⟩

end Exec
end IncrementalC
