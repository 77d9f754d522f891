import IncrementalC.Proofs.Machine.Buffers
import IncrementalC.Proofs.Machine.Places
import IncrementalC.Proofs.Machine.Restored

/-!
# Every run ends within its budget

`LoopEnds turn s ss r`: a loop that takes one `turn` after the other, without any bound, goes from `s` through the states
`ss` to the outcome `r`. The loops of the machine are stated in this way here, and shown to come to what the functions
of the machine give (`LoopEnds.outcome`): the loop that runs a call, and those that read strings, copy slots, fill in
formats and write values.
-/
namespace IncrementalC
set_option autoImplicit false

/-! ## Loops -/

inductive LoopEnds {σ ρ : Type} (turn : σ → σ ⊕ ρ) : σ → List σ → ρ → Prop where
  | last {s : σ} {r : ρ} (h : turn s = .inr r) : LoopEnds turn s [s] r
  | more {s s' : σ} {ss : List σ} {r : ρ} (h : turn s = .inl s') (rest : LoopEnds turn s' ss r) : LoopEnds turn s (s :: ss) r

namespace LoopEnds

variable {σ ρ : Type} {turn : σ → σ ⊕ ρ} {s : σ} {ss : List σ} {r : ρ}

/-- A loop ends if what holds of its states is kept by every turn that goes on, and a measure falls. -/
theorem of_measure (inv : σ → Prop) (measure : σ → Nat)
    (keeps : ∀ s s', inv s → turn s = .inl s' → inv s' ∧ measure s' < measure s) {s : σ} (h : inv s) :
    ∃ ss r, LoopEnds turn s ss r ∧ ss.length ≤ measure s + 1 ∧ ∀ v ∈ ss, inv v := by
  induction n : measure s using Nat.strongRecOn generalizing s with
  | ind n ih =>
    cases goes : turn s with
    | inr r => exact ⟨[s], r, .last goes, Nat.succ_le_succ (Nat.zero_le _), List.forall_mem_singleton.mpr h⟩
    | inl s' =>
      obtain ⟨h', less⟩ := keeps s s' h goes
      obtain ⟨ss, r, ends, short, all⟩ := ih _ (n ▸ less) h' rfl
      refine ⟨s :: ss, r, .more goes ends, ?_, List.forall_mem_cons.mpr ⟨h, all⟩⟩
      rw [List.length_cons]
      omega

/-- What satisfies the equation of a loop gives its outcome. -/
theorem outcome {f : σ → ρ} (unfolds : ∀ s, f s = (turn s).elim f id) (h : LoopEnds turn s ss r) : f s = r := by
  induction h with
  | last h => rw [unfolds, h]; rfl
  | more h _ ih => rw [unfolds, h]; exact ih

end LoopEnds

/-! ## The loop that runs functions -/

namespace Exec

variable {η : Type} {evaluate : List Value → Exec η Value} {depth : Nat} {w w' : World η}

/-- Runs the next instruction while more than `depth` functions are active. -/
def turn (evaluate : List Value → Exec η Value) (depth : Nat) (w : World η) :
    World η ⊕ EStateM.Result MachineError (World η) Unit :=
  if depth < w.machine.frames.size then
    match next evaluate w with
    | .ok _ w' => .inl w'
    | .error e w' => .inr (.error e w')
  else .inr (.ok () w)

/-- The innermost function has a next instruction, and the limit allows it. -/
def dispatches (depth : Nat) (w : World η) : Bool :=
  depth < w.machine.frames.size && w.machine.instructionCount < w.machine.maxInstructions &&
    w.machine.frames.back?.any fun f => f.ip < f.function.code.size

theorem turn_goes (h : turn evaluate depth w = .inl w') :
    depth < w.machine.frames.size ∧ next evaluate w = .ok () w' := by
  unfold turn at h
  split at h
  · refine ⟨‹_›, ?_⟩
    cases run : next evaluate w with
    | error e w₁ =>
      rw [run] at h
      cases h
    | ok u w₁ =>
      rw [run] at h
      cases h
      rfl
  · cases h

/-- Every instruction that is run takes one from those that are left. -/
theorem dispatched_le (steady : ∀ args, Steady (evaluate args)) {ss : List (World η)}
    {r : EStateM.Result MachineError (World η) Unit} (h : LoopEnds (turn evaluate depth) w ss r) :
    ss.countP (dispatches depth) ≤ left w := by
  induction h with
  | @last w r h =>
    cases runs : dispatches depth w with
    | false => rw [List.countP_cons_of_neg (by rw [runs]; exact Bool.false_ne_true)]; exact Nat.zero_le _
    | true =>
      rw [List.countP_cons_of_pos runs, List.countP_nil]
      simp only [dispatches, Bool.and_eq_true, decide_eq_true_iff] at runs
      unfold left
      omega
  | @more w w' ss r h _ ih =>
    obtain ⟨active, run⟩ := turn_goes h
    have less := (left_lt steady (Nat.zero_lt_of_lt active) run).1
    have one := List.countP_cons (p := dispatches depth) (a := w) (l := ss)
    split at one <;> omega

theorem runWhile_unfolds (host : Option (Host η)) (depth : Nat) (w : World η) :
    runWhile (templates host) (fun m => depth < m.depth) w =
      (turn (templates host) depth w).elim (runWhile (templates host) fun m => depth < m.depth) id := by
  have active (m : Machine) (above : decide (depth < m.depth)) : 0 < m.frames.size :=
    Nat.zero_lt_of_lt (of_decide_eq_true above)
  rw [runWhile_eq (steady_templates host) active]
  unfold turn
  by_cases above : depth < w.machine.frames.size
  · have goes : decide (depth < w.machine.depth) = true := decide_eq_true above
    rw [if_pos goes, if_pos above]
    show EStateM.bind _ _ w = _
    unfold EStateM.bind
    cases next (templates host) w with
    | ok u w' => rfl
    | error e w' => rfl
  · have stops : ¬decide (depth < w.machine.depth) = true := fun h => above (of_decide_eq_true h)
    rw [if_neg stops, if_neg above]
    rfl

/-! ## Active functions -/

/-- No more functions are active than may be, and `count` instructions were counted. -/
structure Shallow (limit count : Nat) (w : World η) : Prop where
  depth : w.machine.maxDepth = limit
  active : w.machine.frames.size ≤ limit
  count : w.machine.instructionCount = count

theorem indifferent_shallow (limit count : Nat) : Indifferent (Shallow limit count : World η → Prop) :=
  fun _ _ quiet h => ⟨quiet.depth.trans h.depth, quiet.frames ▸ h.active, quiet.count.trans h.count⟩

section Shallow

variable {limit count : Nat}

theorem preserves_enter_shallow (f : CodeFunction) (args : List Value) :
    Preserves (Shallow limit count) (enter f args : Exec η Unit) := by
  intro w h
  cases refusal : w.machine.refusal? f args.length with
  | some fault =>
    rw [enter_refused refusal]
    exact h
  | none =>
    rw [enter_accepted refusal]
    refine { h with active := ?_ }
    have room : w.machine.frames.size < w.machine.maxDepth := by
      unfold Machine.refusal? at refusal
      split at refusal
      · cases refusal
      · omega
    show (w.machine.frames.push _).size ≤ limit
    rw [Array.size_push]
    exact h.depth ▸ room

theorem preserves_goto_shallow (target : Nat) :
    Preserves (Shallow limit count) (modifyMachine (·.goto target) : Exec η Unit) :=
  fun _ h => { h with active := Nat.le_trans (Nat.le_of_eq Array.size_modify) h.active }

theorem preserves_leave_shallow : Preserves (Shallow limit count) (modifyMachine Machine.leave : Exec η Unit) := by
  intro w h
  show Shallow limit count ⟨w.machine.leave, w.host⟩
  unfold Machine.leave
  split
  · exact { h with active := Nat.le_trans (Nat.le_of_eq Array.size_pop) (Nat.le_trans (Nat.sub_le _ _) h.active) }
  · exact h

theorem preserves_act_shallow (evaluates : ∀ args, Preserves (Shallow limit count) (evaluate args)) (ret : Option Scalar)
    (base : Nat) (i : Instr) : Preserves (Shallow limit count) (act evaluate ret base i) := by
  have indifferent := indifferent_shallow (η := η) limit count
  have pops {g : Value → Exec η Unit} (hg : ∀ v, Preserves (Shallow limit count) (g v)) :
      Preserves (Shallow limit count) (pop >>= g) := .bind (preserves_pop indifferent) hg
  by_cases straight : i.isStraight
  · exact preserves_act indifferent evaluates straight _ _
  cases i with
  | jump target => exact preserves_goto_shallow target
  | jumpIfFalse target | jumpIfTrue target => exact pops fun v => .ite (preserves_goto_shallow target) (.pure _)
  | call name argc =>
    exact .bind (preserves_findFunction name) fun g => .bind (preserves_popList indifferent argc) fun args =>
      preserves_enter_shallow g args
  | «return» => exact pops fun v => .bind preserves_leave_shallow fun _ => preserves_push indifferent _
  | returnVoid => exact preserves_leave_shallow
  | _ => exact absurd rfl straight

/-- A turn counts one instruction at most, whatever comes of it. -/
theorem next_shallow (evaluates : ∀ args count, Preserves (Shallow limit count) (evaluate args)) (h : Shallow limit count w) :
    ∃ count', count' ≤ count + 1 ∧ Shallow limit count' (finalState (next evaluate w)) := by
  by_cases active : 0 < w.machine.frames.size
  · obtain ⟨l, f, frames⟩ := exists_innermost active
    rw [next_eq frames]
    cases found : f.function.code[f.ip]? with
    | none =>
      rw [step_none found]
      exact ⟨count, Nat.le_succ _, h⟩
    | some i =>
      have advanced : Shallow limit (count + 1) (advanced w (f.ip + 1)) :=
        ⟨h.depth, Nat.le_trans (Nat.le_of_eq Array.size_modify) h.active, congrArg (· + 1) h.count⟩
      refine ⟨count + 1, Nat.le_refl _, ?_⟩
      rw [step_eq found]
      split
      · exact advanced
      · exact preserves_act_shallow (fun args => evaluates args _) _ _ i _ advanced
  · have idle : ¬0 < w.machine.depth := active
    refine ⟨count, Nat.le_succ _, ?_⟩
    unfold next
    rw [dif_neg idle]
    exact h

end Shallow

/-! ## Runs -/

/-- No more functions are active than may be, and no more instructions were counted than may be run. -/
structure InBudget (limit budget : Nat) (w : World η) : Prop where
  depth : w.machine.maxDepth = limit
  active : w.machine.frames.size ≤ limit
  instructions : w.machine.maxInstructions = budget
  counted : w.machine.instructionCount ≤ budget

section Run

variable {limit budget : Nat}

/-- A turn counts one instruction at most and keeps to the limits, whatever comes of it. -/
theorem InBudget.next (h : InBudget limit budget w) :
    (finalState (next (templates none) w)).machine.maxDepth = limit ∧
      (finalState (next (templates none) w)).machine.frames.size ≤ limit ∧
      (finalState (next (templates none) w)).machine.instructionCount ≤ w.machine.instructionCount + 1 := by
  obtain ⟨count, one, shallow⟩ := @next_shallow _ (templates none) w limit _ (fun _ _ => .throw _) ⟨h.depth, h.active, rfl⟩
  exact ⟨shallow.depth, shallow.active, by rw [shallow.count]; exact one⟩

theorem InBudget.turn (h : InBudget limit budget w) (goes : turn (templates none) depth w = .inl w') :
    InBudget limit budget w' ∧ left w' < left w := by
  obtain ⟨active, run⟩ := turn_goes goes
  obtain ⟨less, same⟩ := left_lt (steady_templates none) (Nat.zero_lt_of_lt active) run
  obtain ⟨deep, shallow, counted⟩ := h.next
  obtain ⟨l, f, frames⟩ := exists_innermost (Nat.zero_lt_of_lt active)
  have room := (stepped (steady_templates none) frames (next_eq frames ▸ run)).room
  rw [run] at deep shallow counted
  rw [h.instructions] at room
  exact ⟨⟨deep, shallow, same.trans h.instructions, Nat.le_trans counted room⟩, less⟩

/-- The loop that comes back to `depth` functions ends, with what the machine gives, and keeps to the limits. -/
theorem run_ends (h : InBudget limit budget w) (depth : Nat) : ∃ ss r, LoopEnds (turn (templates none) depth) w ss r ∧
    (∀ fuel, left w < fuel → Exec.run none fuel depth w = r) ∧ ∀ v ∈ ss, InBudget limit budget v := by
  obtain ⟨ss, r, ends, -, all⟩ := LoopEnds.of_measure (InBudget limit budget) left (fun v v' h goes => h.turn goes) h
  refine ⟨ss, r, ends, fun fuel enough => ?_, all⟩
  rw [run_eq enough]
  exact ends.outcome (runWhile_unfolds none depth)

end Run

/-! ## Calls -/

/-- A machine on which no instruction was counted. -/
def uncounted (w : World η) : World η := { w with machine := { w.machine with instructionCount := 0 } }

/-- What becomes of a call whose function came to `r`. -/
def finished (f : CodeFunction) (w : World η) (r : EStateM.Result MachineError (World η) Unit) :
    EStateM.Result MachineError (World η) (Option Value) :=
  (guarded (fun _ => r) >>= fun _ => takeResult f) w

/-- The call of a function on an idle machine goes through the states `ss`, without any bound, to the outcome `r`. -/
inductive CallEnds (w : World η) (name : String) (args : List Value) :
    List (World η) → EStateM.Result MachineError (World η) (Option Value) → Prop
  | unknown (missing : w.machine.functions.get? name = none) :
    CallEnds w name args [] (.error { fault := .undefinedFunction name } w)
  | refused {f : CodeFunction} {e : MachineError} {w' : World η} (found : w.machine.functions.get? name = some f)
    (refused : enter f args (uncounted w) = .error e w') : CallEnds w name args [] (finished f (uncounted w) (.error e w'))
  | run {f : CodeFunction} {w' : World η} {ss : List (World η)} {r : EStateM.Result MachineError (World η) Unit}
    (found : w.machine.functions.get? name = some f) (entered : enter f args (uncounted w) = .ok () w')
    (ends : LoopEnds (turn (templates none) 0) w' ss r) : CallEnds w name args ss (finished f (uncounted w) r)

theorem call_ends {w : World η} (idle : w.machine.frames = #[]) (name : String) (args : List Value) :
    ∃ ss, CallEnds w name args ss (call none name args w) ∧ ss.countP (dispatches 0) ≤ w.machine.maxInstructions ∧
      ∀ v ∈ ss, InBudget w.machine.maxDepth w.machine.maxInstructions v := by
  have inactive : w.machine.frames.size = 0 := congrArg Array.size idle
  show ∃ ss, CallEnds w name args ss (callWith (Exec.run none (w.machine.maxInstructions + 2)) name args w) ∧ _
  cases found : w.machine.functions.get? name with
  | none =>
    rw [callWith_none found]
    exact ⟨[], .unknown found, Nat.zero_le _, nofun⟩
  | some f =>
    let m : Exec η Unit := enter f args >>= fun _ => Exec.run none (w.machine.maxInstructions + 2) 0
    have called : callWith (Exec.run none (w.machine.maxInstructions + 2)) name args w =
        finished f (uncounted w) (m (uncounted w)) := by
      rw [callWith_idle inactive found, inactive]
      rfl
    rw [called]
    have start : Shallow w.machine.maxDepth 0 (uncounted w) := ⟨rfl, inactive ▸ Nat.zero_le _, rfl⟩
    have shallow := preserves_enter_shallow f args (uncounted w) start
    cases entered : enter f args (uncounted w) with
    | error e w' =>
      rw [show m (uncounted w) = .error e w' from run_error entered _]
      exact ⟨[], .refused found entered, Nat.zero_le _, nofun⟩
    | ok u w' =>
      rw [entered] at shallow
      obtain rfl := enter_ok entered
      have begun : InBudget w.machine.maxDepth w.machine.maxInstructions _ :=
        ⟨shallow.depth, shallow.active, rfl, shallow.count.symm ▸ Nat.zero_le _⟩
      obtain ⟨ss, r, ends, same, all⟩ := run_ends begun 0
      have enough : left { uncounted w with machine := (uncounted w).machine.enter f args } < w.machine.maxInstructions + 2 :=
        Nat.lt_of_le_of_lt (Nat.sub_le _ _) (Nat.lt_add_of_pos_right (by decide))
      rw [show m (uncounted w) = r from (run_ok entered _).trans (same _ enough)]
      refine ⟨ss, .run found entered ends, ?_, all⟩
      exact Nat.le_trans (dispatched_le (steady_templates none) ends) (Nat.sub_le _ _)

/-! ## The end of the process -/

end Exec

/-! ## The loops inside of instructions -/

/-- Where a loop over parts of memory goes on behind one of them: so many parts are left, `stride` slots apart. -/
def goOn {α : Type} (stride : Int64) (count : Nat) (a : Address) (found : List α) :
    Except Fault (Option α) → (Nat × Address × List α) ⊕ Except Fault (List α)
  | .error f => .inr (.error f)
  | .ok none => .inr (.ok found.reverse)
  | .ok (some x) => .inl (count, a.offset stride, x :: found)

namespace Machine

variable (m : Machine)

variable {m}

/-- Writes the first value, and goes on with the slot behind. -/
def storeSlot {η : Type} : World η × Address × List Value →
    (World η × Address × List Value) ⊕ EStateM.Result MachineError (World η) Unit
  | (w, _, []) => .inr (.ok () w)
  | (w, a, v :: vs) =>
    match Exec.store a.encode v w with
    | .ok _ w => .inl (w, a.offset 1, vs)
    | .error e w => .inr (.error e w)

end Machine

end IncrementalC
