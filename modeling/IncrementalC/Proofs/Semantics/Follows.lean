import IncrementalC.Proofs.Semantics.Structured

/-!
# The machine follows a structured computation

`Follows`: how a run of the machine reads as a list of events. `Simulates m from_ goal cost`: where the
machine stands at `from_`, it does what `m` does, with the same events, and stands at `goal` then.
Simulations are put together along the structured computation (`Simulates.bind`,
`Simulates.forever`).
-/
namespace IncrementalC
set_option autoImplicit false

/-- The instruction hands control on, or a value, and belongs to no expression. -/
def Instr.isControl : Instr → Bool
  | .jump _ | .pop | .convert .. | .pushInt _ | .return | .returnVoid => true
  | _ => false

/-- The instruction goes on in one of two places. -/
def Instr.isTest : Instr → Bool
  | .jumpIfFalse _ | .jumpIfTrue _ => true
  | _ => false

/-- The world behind the return of a value, or of none. -/
def World.leave {η : Type} (kind : Option Scalar) (v : Option Value) (w : World η) : World η :=
  let m := w.machine.leave
  match v with
  | none => ⟨m, w.host⟩
  | some v =>
    let v := match kind with
      | some kind => v.coerce kind
      | none => v
    ⟨{ m with operands := v :: m.operands }, w.host⟩

namespace Structured

variable {η α β : Type}

/-- The innermost active function is `f`, above those in `l`, and stands at `ip`. -/
def Stands (l : List Frame) (f : Frame) (ip : Nat) (w : World η) : Prop :=
  w.machine.frames.toList = l ++ [{ f with ip }]

section

variable (evaluate : List Value → Exec η Value) (l : List Frame) (f : Frame)

/-- The machine runs from `w` to the end `r` of the function `f`, and this reads as a list of events:
the code of expressions runs in its place, tests decide, and nothing else happens in between but
single instructions of control. -/
inductive Follows : List Event → World η → EStateM.Result MachineError (World η) Unit → Prop
  | returned {w : World η} (gone : w.machine.frames.toList = l) : Follows [] w (.ok () w)
  | control {τ : List Event} {w w' : World η} {r : EStateM.Result MachineError (World η) Unit} {p : Nat}
      {i : Instr} (stands : Stands l f p w) (found : f.function.code[p]? = some i)
      (control : i.isControl) (step : Exec.next evaluate w = .ok () w') (rest : Follows τ w' r) :
      Follows τ w r
  | test {τ : List Event} {w w' : World η} {r : EStateM.Result MachineError (World η) Unit} {p : Nat}
      {i : Instr} {v : Value} {vs : List Value} (stands : Stands l f p w)
      (found : f.function.code[p]? = some i) (test : i.isTest) (top : w.machine.operands = v :: vs)
      (step : Exec.next evaluate w = .ok () w') (rest : Follows τ w' r) :
      Follows (.decided v.isTruthy :: τ) w r
  | fails {w w' : World η} {e : MachineError} {p : Nat} {i : Instr} (stands : Stands l f p w)
      (found : f.function.code[p]? = some i) (control : i.isControl ∨ i.isTest)
      (step : Exec.next evaluate w = .error e w') : Follows [] w (.error e w')
  | evaluates {τ : List Event} {w w' : World η} {r : EStateM.Result MachineError (World η) Unit}
      {c : Segment} (stands : Stands l f c.first w)
      (run : Exec.runWhile evaluate (c.holds l.length) w = .ok () w') (rest : Follows τ w' r) :
      Follows (.evaluated c :: τ) w r
  | evaluationFails {w w' : World η} {e : MachineError} {c : Segment} (stands : Stands l f c.first w)
      (run : Exec.runWhile evaluate (c.holds l.length) w = .error e w') :
      Follows [.evaluated c] w (.error e w')

end

variable {evaluate : List Value → Exec η Value} {l : List Frame} {f : Frame}

/-- What a run reads as is what the machine does until the function is gone. -/
theorem Follows.runWhile (steady : ∀ args, Exec.Steady (evaluate args)) {τ : List Event} {w : World η}
    {r : EStateM.Result MachineError (World η) Unit} (h : Follows evaluate l f τ w r) :
    Exec.runWhile evaluate (fun m => l.length < m.depth) w = r := by
  have active (m : Machine) (above : decide (l.length < m.depth)) : 0 < m.frames.size :=
    Nat.zero_lt_of_lt (of_decide_eq_true above)
  have goes {p : Nat} {w : World η} (stands : Stands l f p w) : decide (l.length < w.machine.depth) := by
    refine decide_eq_true ?_
    show l.length < w.machine.frames.size
    rw [← Array.length_toList, stands, List.length_append]
    exact Nat.lt_add_of_pos_right (Nat.succ_pos _)
  have part (c : Segment) (m : Machine) (holds : c.holds l.length m) : decide (l.length < m.depth) := by
    unfold Segment.holds at holds
    cases found : m.frames[l.length]? with
    | none =>
      rw [found] at holds
      cases holds
    | some f => exact decide_eq_true (Array.getElem?_eq_some_iff.mp found).1
  induction h with
  | @returned w gone =>
    refine Exec.runWhile_stop steady active (decide_eq_false ?_)
    show ¬l.length < w.machine.frames.size
    rw [← Array.length_toList, gone]
    exact Nat.lt_irrefl _
  | control stands _ _ step _ ih | test stands _ _ _ step _ ih =>
    rw [Exec.runWhile_step steady active (goes stands) step, ih]
  | fails stands _ _ step => exact Exec.runWhile_error steady active (goes stands) step
  | @evaluates _ w w' r c stands run rest ih =>
    rw [Exec.runWhile_split steady active (part c)]
    show EStateM.bind _ _ w = r
    unfold EStateM.bind
    rw [run]
    exact ih
  | @evaluationFails w w' e c stands run =>
    rw [Exec.runWhile_split steady active (part c)]
    show EStateM.bind _ _ w = _
    unfold EStateM.bind
    rw [run]

/-! ## Simulation -/

/-- The function `f` is the innermost active one, wherever it stands. -/
def Own (l : List Frame) (f : Frame) (w : World η) : Prop := ∃ ip, Stands l f ip w

/-- The same world, up to where the innermost active function stands. -/
def Beside (w w' : World η) : Prop := w' = w ∨ ∃ ip, w' = w.goto ip

theorem Own.stands {w : World η} (own : Own l f w) (ip : Nat) : Stands l f ip (w.goto ip) := by
  obtain ⟨p, stands⟩ := own
  exact Machine.goto_frames (f := { f with ip := p }) stands ip

theorem Own.goto {w : World η} (own : Own l f w) (ip : Nat) : Own l f (w.goto ip) := ⟨ip, own.stands ip⟩

theorem goto_goto {w : World η} (own : Own l f w) (p q : Nat) : (w.goto p).goto q = w.goto q := by
  have frames : ((w.goto p).goto q).machine.frames = (w.goto q).machine.frames :=
    Array.toList_inj.mp (((own.goto p).stands q).trans (own.stands q).symm)
  show (⟨{ w.machine with frames := ((w.goto p).goto q).machine.frames }, w.host⟩ : World η) = w.goto q
  rw [frames]
  rfl

theorem goto_self {w : World η} {ip : Nat} (stands : Stands l f ip w) : w.goto ip = w := by
  have own : Own l f w := ⟨ip, stands⟩
  have frames : (w.goto ip).machine.frames = w.machine.frames :=
    Array.toList_inj.mp ((own.stands ip).trans stands.symm)
  show (⟨{ w.machine with frames := (w.goto ip).machine.frames }, w.host⟩ : World η) = w
  rw [frames]

section Simulates

variable (evaluate l f)

/-- What became of a structured computation, which the machine began in `start`. -/
def Ended (h : Recorded η) (start : World η) (goal : α → World η → World η) (cost : α → Nat) :
    EStateM.Result MachineError (Recorded η) α → Prop
  | .ok x h' => Own l f h'.world ∧ Exec.left h'.world + cost x ≤ Exec.left h.world ∧
    h'.world.machine.maxInstructions = h.world.machine.maxInstructions ∧
    ∃ τ, h'.events = τ.reverse ++ h.events ∧ ∀ τ' r, Follows evaluate l f τ' (goal x h'.world) r →
      Follows evaluate l f (τ ++ τ') start r
  | .error e h' => ∃ τ w', h'.events = τ.reverse ++ h.events ∧ Beside h'.world w' ∧
    Follows evaluate l f τ start (.error e w')

/-- Where the machine stands at `start`, it does what `m` does and stands at `goal` then. At least
`cost` instructions are counted. -/
def Simulates (m : Structured η α) (start : World η → World η) (goal : α → World η → World η)
    (cost : α → Nat) : Prop :=
  ∀ h : Recorded η, Own l f h.world → Ended evaluate l f h (start h.world) goal cost (m h)

end Simulates

namespace Simulates

variable {m : Structured η α} {start : World η → World η} {goal : α → World η → World η}
  {goal' : β → World η → World η} {cost : α → Nat} {cost' : β → Nat}

theorem done {x : α} (here : start = goal x) (free : cost x = 0) :
    Simulates evaluate l f (Pure.pure x : Structured η α) start goal cost := by
  intro h own
  refine ⟨own, Nat.le_of_eq (by rw [free]; rfl), rfl, [], rfl, fun τ' r follows => ?_⟩
  rw [here]
  exact follows

theorem pure {x : α} (here : start = goal x) :
    Simulates evaluate l f (Pure.pure x : Structured η α) start goal fun _ => 0 := done here rfl

theorem bindAt {h : Recorded η} {k : α → Structured η β} {w : World η} {c : α → β → Nat}
    (first : Ended evaluate l f h w goal cost (m h))
    (next : ∀ x h', Own l f h'.world → Exec.left h'.world + cost x ≤ Exec.left h.world →
      h'.world.machine.maxInstructions = h.world.machine.maxInstructions →
      Ended evaluate l f h' (goal x h'.world) goal' (c x) (k x h'))
    (enough : ∀ x y, cost' y ≤ cost x + c x y) :
    Ended evaluate l f h w goal' cost' ((m >>= k) h) := by
  show Ended evaluate l f h w goal' cost' (EStateM.bind m k h)
  unfold EStateM.bind
  cases run : m h with
  | error e h' =>
    rw [run] at first
    exact first
  | ok x h' =>
    rw [run] at first
    obtain ⟨own, less, limit, τ, events, follows⟩ := first
    have second := next x h' own less limit
    show Ended evaluate l f h w goal' cost' (k x h')
    cases run' : k x h' with
    | error e h'' =>
      rw [run'] at second
      obtain ⟨τ', w', events', beside, fails⟩ := second
      refine ⟨τ ++ τ', w', ?_, beside, follows _ _ fails⟩
      rw [events', events, List.reverse_append, List.append_assoc]
    | ok y h'' =>
      rw [run'] at second
      obtain ⟨own', less', limit', τ', events', follows'⟩ := second
      have enough := enough x y
      refine ⟨own', by omega, limit'.trans limit, τ ++ τ', ?_, fun τ'' r rest => ?_⟩
      · rw [events', events, List.reverse_append, List.append_assoc]
      · rw [List.append_assoc]
        exact follows _ _ (follows' _ _ rest)

theorem bind {k : α → Structured η β} {c : α → β → Nat} (hm : Simulates evaluate l f m start goal cost)
    (hk : ∀ x, Simulates evaluate l f (k x) (goal x) goal' (c x))
    (enough : ∀ x y, cost' y ≤ cost x + c x y) :
    Simulates evaluate l f (m >>= k) start goal' cost' :=
  fun h own => bindAt (hm h own) (fun x h' own _ _ => hk x h' own) enough

theorem mono {cost' : α → Nat} (hm : Simulates evaluate l f m start goal cost)
    (less : ∀ x, cost' x ≤ cost x) : Simulates evaluate l f m start goal cost' := by
  intro h own
  have ended := hm h own
  cases run : m h with
  | error e h' =>
    rw [run] at ended
    exact ended
  | ok x h' =>
    rw [run] at ended
    obtain ⟨own, left, rest⟩ := ended
    exact ⟨own, Nat.le_trans (Nat.add_le_add_left (less x) _) left, rest⟩

/-- The rounds of a loop. -/
theorem rounds {round : Structured η (Option Completion)} {goal : Completion → World η → World η}
    {cost : Option Completion → Nat} (counts : cost none = 1)
    (hr : Simulates evaluate l f round start
      (fun o => match o with
        | none => start
        | some o => goal o) cost)
    (fuel : Nat) (h : Recorded η) (own : Own l f h.world) (enough : Exec.left h.world < fuel) :
    Ended evaluate l f h (start h.world) goal (fun _ => 0) (Structured.rounds round fuel h) := by
  induction fuel generalizing h with
  | zero => exact absurd enough (Nat.not_lt_zero _)
  | succ fuel ih =>
    unfold Structured.rounds
    refine bindAt (c := fun _ _ => 0) (hr h own) (fun o h' own' less limit => ?_) fun _ _ => Nat.zero_le _
    cases o with
    | some o => exact (Simulates.pure rfl : Simulates evaluate l f (Pure.pure o) (goal o) goal fun _ => 0) h' own'
    | none => exact ih h' own' (by omega)

theorem forever {round : Structured η (Option Completion)} {goal : Completion → World η → World η}
    {cost : Option Completion → Nat} (counts : cost none = 1)
    (hr : Simulates evaluate l f round start
      (fun o => match o with
        | none => start
        | some o => goal o) cost) :
    Simulates evaluate l f (Structured.forever round) start goal fun _ => 0 := by
  intro h own
  exact rounds counts hr (h.world.machine.maxInstructions + 1) h own
    (Nat.lt_succ_of_le (Nat.sub_le _ _))

/-! ## Expressions and instructions of control -/

variable (steady : ∀ args, Exec.Steady (evaluate args))
include steady

theorem run {c : Segment} (inward : c.Inward f.function.code) :
    Simulates evaluate l f (Structured.run evaluate l.length c) (World.goto · c.first)
      (fun _ w => w.goto c.last) fun _ => 0 := by
  intro h own
  have stands := own.stands c.first
  show Ended _ _ _ h _ _ _ (silent (Exec.evaluateCode evaluate l.length c)
    { h with events := .evaluated c :: h.events })
  unfold silent
  dsimp only
  cases ran : Exec.evaluateCode evaluate l.length c h.world with
  | error e w' => exact ⟨[.evaluated c], w', rfl, .inl rfl, .evaluationFails stands ran⟩
  | ok u w' =>
    obtain ⟨frames, limit, less⟩ := Exec.runWhile_within steady inward stands ⟨Nat.le_refl _, inward.ordered⟩ ran
    refine ⟨⟨_, frames⟩, less, limit, [.evaluated c], rfl, fun τ' r rest => ?_⟩
    dsimp only at rest
    rw [goto_self frames] at rest
    exact .evaluates stands ran rest

omit steady in
/-- The instruction at `p` does what `k` does, and leads to `goal`. -/
structure Acts (evaluate : List Value → Exec η Value) (l : List Frame) (f : Frame) (p : Nat) (i : Instr)
    (k : Exec η α) (goal : α → World η → World η) : Prop where
  found : f.function.code[p]? = some i
  ok : ∀ w x w', Own l f w → k w = .ok x w' → Own l f w' ∧ Exec.left w' = Exec.left w ∧
    w'.machine.maxInstructions = w.machine.maxInstructions ∧
    Exec.act evaluate f.function.ret f.base i (w.goto (p + 1)) = .ok () (goal x w')
  error : ∀ w e w', Own l f w → k w = .error e w' →
    ∃ w'', Beside w' w'' ∧ Exec.act evaluate f.function.ret f.base i (w.goto (p + 1)) = .error e w''

omit steady in
/-- What became of a step that was counted. -/
theorem Acts.step {p : Nat} {i : Instr} {k : Exec η α} (acts : Acts evaluate l f p i k goal) {w : World η}
    (own : Own l f w) :
    match (Exec.tick >>= fun _ => k) w with
    | .ok x w' => Own l f w' ∧ Exec.left w' + 1 ≤ Exec.left w ∧
      w'.machine.maxInstructions = w.machine.maxInstructions ∧
      Exec.next evaluate (w.goto p) = .ok () (goal x w') ∧ k (Exec.counted w) = .ok x w'
    | .error e w' => ∃ w'', Beside w' w'' ∧ Exec.next evaluate (w.goto p) = .error e w'' := by
  have step : Exec.next evaluate (w.goto p) =
      if w.machine.maxInstructions < w.machine.instructionCount + 1 then
        .error { fault := .instructionLimit w.machine.maxInstructions }
          (((Exec.counted w).goto p).goto (p + 1))
      else Exec.act evaluate f.function.ret f.base i (((Exec.counted w).goto p).goto (p + 1)) :=
    (Exec.next_eq (own.stands p)).trans
      (Exec.step_eq (f := { f with ip := p }) acts.found)
  have own' : Own l f (Exec.counted w) := own
  rw [goto_goto own'] at step
  show match EStateM.bind Exec.tick (fun _ => k) w with
    | .ok x w' => Own l f w' ∧ Exec.left w' + 1 ≤ Exec.left w ∧
      w'.machine.maxInstructions = w.machine.maxInstructions ∧
      Exec.next evaluate (w.goto p) = .ok () (goal x w') ∧ k (Exec.counted w) = .ok x w'
    | .error e w' => ∃ w'', Beside w' w'' ∧ Exec.next evaluate (w.goto p) = .error e w''
  unfold EStateM.bind Exec.tick
  by_cases exceeded : w.machine.maxInstructions < w.machine.instructionCount + 1
  · rw [if_pos exceeded] at step ⊢
    exact ⟨_, .inr ⟨_, rfl⟩, step⟩
  · rw [if_neg exceeded] at step ⊢
    dsimp only
    cases run : k (Exec.counted w) with
    | ok x w' =>
      obtain ⟨own'', same, limit, act⟩ := acts.ok _ x w' own' run
      have fewer : Exec.left (Exec.counted w) + 1 ≤ Exec.left w := by
        show w.machine.maxInstructions - (w.machine.instructionCount + 1) + 1
          ≤ w.machine.maxInstructions - w.machine.instructionCount
        omega
      exact ⟨own'', by omega, limit, step.trans act, rfl⟩
    | error e w' =>
      obtain ⟨w'', beside, act⟩ := acts.error _ e w' own' run
      exact ⟨w'', beside, step.trans act⟩

omit steady in
/-- A single instruction of control. -/
theorem control {p : Nat} {i : Instr} {k : Exec η α} (acts : Acts evaluate l f p i k goal)
    (control : i.isControl) : Simulates evaluate l f (silent (Exec.tick >>= fun _ => k)) (World.goto · p)
      goal fun _ => 1 := by
  intro h own
  have stepped := acts.step own
  unfold silent
  cases ran : (Exec.tick >>= fun _ => k) h.world with
  | ok x w' =>
    rw [ran] at stepped
    obtain ⟨own', less, limit, step, -⟩ := stepped
    exact ⟨own', less, limit, [], rfl, fun τ r rest => .control (own.stands p) acts.found control step rest⟩
  | error e w' =>
    rw [ran] at stepped
    obtain ⟨w'', beside, step⟩ := stepped
    exact ⟨[], w'', rfl, beside, .fails (own.stands p) acts.found (.inl control) step⟩

omit steady in
/-- A jump that is taken or not, according to the value on top of the stack. -/
theorem test {p yes no : Nat} {i : Instr}
    (acts : Acts evaluate l f p i Exec.pop fun v w => w.goto (if v.isTruthy then yes else no))
    (test : i.isTest) : Simulates evaluate l f Structured.test (World.goto · p)
      (fun b w => w.goto (if b then yes else no)) fun _ => 1 := by
  intro h own
  have stepped := acts.step own
  show Ended _ _ _ h _ _ _ ((silent (Exec.tick >>= fun _ => Exec.pop) >>= fun v =>
    note (.decided v.isTruthy) >>= fun _ => Pure.pure v.isTruthy) h)
  show Ended _ _ _ h _ _ _ (EStateM.bind _ _ h)
  unfold EStateM.bind silent
  cases ran : (Exec.tick >>= fun _ => Exec.pop) h.world with
  | ok v w' =>
    rw [ran] at stepped
    obtain ⟨own', less, limit, step, popped⟩ := stepped
    obtain ⟨vs, top, -⟩ := Exec.pop_ok popped
    exact ⟨own', less, limit, [.decided v.isTruthy], rfl, fun τ r rest =>
      .test (own.stands p) acts.found test top step rest⟩
  | error e w' =>
    rw [ran] at stepped
    obtain ⟨w'', beside, step⟩ := stepped
    exact ⟨[], w'', rfl, beside, .fails (own.stands p) acts.found (.inr test) step⟩

end Simulates

/-! ## Instructions of control -/

section Acts

variable {p : Nat} {w : World η}

theorem pop_goto (w : World η) (ip : Nat) : Exec.pop (w.goto ip) =
    match Exec.pop w with
    | .ok v w' => .ok v (w'.goto ip)
    | .error e w' => .error e (w'.goto ip) := by
  cases operands : w.machine.operands with
  | nil =>
    rw [Exec.pop_nil operands, Exec.pop_nil (w := w.goto ip) operands]
  | cons v rest =>
    rw [Exec.pop_cons operands, Exec.pop_cons (w := w.goto ip) operands]
    rfl

theorem acts_jump {target : Nat} (found : f.function.code[p]? = some (.jump target)) :
    Simulates.Acts evaluate l f p (.jump target) (Pure.pure ()) fun _ w => w.goto target := by
  refine ⟨found, fun w x w' own h => ?_, fun w e w' own h => ?_⟩
  · cases h
    exact ⟨own, rfl, rfl, congrArg (EStateM.Result.ok ()) (goto_goto own _ _)⟩
  · cases h

theorem acts_pushInt {v : Int64} (found : f.function.code[p]? = some (.pushInt v)) :
    Simulates.Acts evaluate l f p (.pushInt v) (Exec.push (.int v)) fun _ w => w.goto (p + 1) := by
  refine ⟨found, fun w x w' own h => ?_, fun w e w' own h => ?_⟩
  · cases h
    exact ⟨own, rfl, rfl, rfl⟩
  · cases h

/-- An instruction that takes a value and cannot fail then. -/
theorem acts_taking {i : Instr} {k : Exec η α} {after : Value → Exec η Unit} {k' : Value → Exec η α}
    {goal : α → World η → World η} (found : f.function.code[p]? = some i)
    (act : Exec.act evaluate f.function.ret f.base i = Exec.pop >>= after) (hk : k = Exec.pop >>= k')
    (goes : ∀ v w, Own l f w → ∃ x w', k' v w = .ok x w' ∧ Own l f w' ∧ Exec.left w' = Exec.left w ∧
      w'.machine.maxInstructions = w.machine.maxInstructions ∧ after v (w.goto (p + 1)) = .ok () (goal x w')) :
    Simulates.Acts evaluate l f p i k goal := by
  subst hk
  refine ⟨found, fun w x w' own h => ?_, fun w e w' own h => ?_⟩
  · obtain ⟨v, w₁, popped, h⟩ := Exec.bind_eq_ok h
    obtain ⟨rest, -, rfl⟩ := Exec.pop_ok popped
    have own' : Own l f (⟨{ w.machine with operands := rest }, w.host⟩ : World η) := own
    obtain ⟨x', w'', ran, own'', less, limit, moved⟩ := goes v _ own'
    rw [ran] at h
    cases h
    refine ⟨own'', less, limit, ?_⟩
    rw [act]
    show EStateM.bind _ _ _ = _
    unfold EStateM.bind
    rw [pop_goto, popped]
    exact moved
  · have h : EStateM.bind Exec.pop k' w = .error e w' := h
    unfold EStateM.bind at h
    cases popped : Exec.pop w with
    | ok v w₁ =>
      rw [popped] at h
      obtain ⟨rest, -, rfl⟩ := Exec.pop_ok popped
      have own' : Own l f (⟨{ w.machine with operands := rest }, w.host⟩ : World η) := own
      obtain ⟨x', w'', ran, -⟩ := goes v _ own'
      dsimp only at h
      rw [ran] at h
      cases h
    | error e' w₁ =>
      rw [popped] at h
      cases h
      refine ⟨w'.goto (p + 1), .inr ⟨_, rfl⟩, ?_⟩
      rw [act]
      show EStateM.bind _ _ _ = _
      unfold EStateM.bind
      rw [pop_goto, popped]

theorem acts_pop (found : f.function.code[p]? = some .pop) :
    Simulates.Acts evaluate l f p .pop (do let _ ← Exec.pop) fun _ w => w.goto (p + 1) :=
  acts_taking found rfl rfl fun _ w own => ⟨(), w, rfl, own, rfl, rfl, rfl⟩

theorem acts_convert {s t : Scalar} (found : f.function.code[p]? = some (.convert s t)) :
    Simulates.Acts evaluate l f p (.convert s t) (do Exec.push ((← Exec.pop).convert s t))
      fun _ w => w.goto (p + 1) :=
  acts_taking found rfl rfl fun v w own =>
    ⟨(), { w with machine := { w.machine with operands := v.convert s t :: w.machine.operands } }, rfl, own,
      rfl, rfl, rfl⟩

theorem acts_jumpIfFalse {target : Nat} (found : f.function.code[p]? = some (.jumpIfFalse target)) :
    Simulates.Acts evaluate l f p (.jumpIfFalse target) Exec.pop
      fun v w => w.goto (if v.isTruthy then p + 1 else target) := by
  refine acts_taking found rfl (bind_pure _).symm fun v w own => ⟨v, w, rfl, own, rfl, rfl, ?_⟩
  cases v.isTruthy with
  | true => rfl
  | false => exact congrArg (EStateM.Result.ok ()) (goto_goto own _ _)

theorem acts_jumpIfTrue {target : Nat} (found : f.function.code[p]? = some (.jumpIfTrue target)) :
    Simulates.Acts evaluate l f p (.jumpIfTrue target) Exec.pop
      fun v w => w.goto (if v.isTruthy then target else p + 1) := by
  refine acts_taking found rfl (bind_pure _).symm fun v w own => ⟨v, w, rfl, own, rfl, rfl, ?_⟩
  cases v.isTruthy with
  | true => exact congrArg (EStateM.Result.ok ()) (goto_goto own _ _)
  | false => rfl

/-- Where the innermost active function stands does not matter when it is left. -/
theorem leave_goto (own : Own l f w) (ip : Nat) : (w.goto ip).machine.leave = w.machine.leave := by
  obtain ⟨p, stands⟩ := own
  have back : w.machine.frames.back? = some { f with ip := p } := by
    rw [← Array.getLast?_toList, stands, List.getLast?_concat]
  have back' : (w.goto ip).machine.frames.back? = some { f with ip } := by
    rw [← Array.getLast?_toList, Own.stands ⟨p, stands⟩ ip, List.getLast?_concat]
  have frames : (w.goto ip).machine.frames.pop = w.machine.frames.pop := by
    refine Array.toList_inj.mp ?_
    rw [Array.toList_pop, Array.toList_pop, Own.stands ⟨p, stands⟩ ip, stands, List.dropLast_concat,
      List.dropLast_concat]
  unfold Machine.leave
  rw [back, back']
  dsimp only
  rw [frames]
  rfl

theorem leave_frames (own : Own l f w) {kind : Option Scalar} {v : Option Value} :
    (w.leave kind v).machine.frames.toList = l := by
  obtain ⟨p, stands⟩ := own
  have back : w.machine.frames.back? = some { f with ip := p } := by
    rw [← Array.getLast?_toList, stands, List.getLast?_concat]
  have left : w.machine.leave.frames.toList = l := by
    unfold Machine.leave
    rw [back]
    show w.machine.frames.pop.toList = l
    rw [Array.toList_pop, stands, List.dropLast_concat]
  cases v <;> exact left

theorem leave_eq (kind : Option Scalar) (v : Option Value) (w : World η) :
    Structured.leave kind v w = .ok () (w.leave kind v) := by
  cases v <;> rfl

theorem acts_return (found : f.function.code[p]? = some .return) :
    Simulates.Acts evaluate l f p .return Exec.pop fun v w => w.leave f.function.ret (some v) := by
  refine acts_taking found rfl (bind_pure _).symm fun v w own => ⟨v, w, rfl, own, rfl, rfl, ?_⟩
  refine (leave_eq f.function.ret (some v) _).trans (congrArg (EStateM.Result.ok ()) ?_)
  unfold World.leave
  rw [leave_goto own]
  rfl

theorem acts_returnVoid (found : f.function.code[p]? = some .returnVoid) :
    Simulates.Acts evaluate l f p .returnVoid (Pure.pure ()) fun _ w => w.leave f.function.ret none := by
  refine ⟨found, fun w x w' own h => ?_, fun w e w' own h => ?_⟩
  · cases h
    refine ⟨own, rfl, rfl, (leave_eq f.function.ret none _).trans (congrArg (EStateM.Result.ok ()) ?_)⟩
    unfold World.leave
    rw [leave_goto own]
    rfl
  · cases h

/-- A single instruction of control that does no more than move on. -/
theorem Simulates.tick {i : Instr} {goal : Unit → World η → World η}
    (acts : Simulates.Acts evaluate l f p i (Pure.pure ()) goal) (control : i.isControl) :
    Simulates evaluate l f (silent Exec.tick) (World.goto · p) goal fun _ => 1 := by
  have simulates := Simulates.control acts control
  rwa [bind_pure_unit] at simulates

end Acts

end Structured
end IncrementalC
