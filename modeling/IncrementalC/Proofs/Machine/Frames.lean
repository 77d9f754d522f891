import IncrementalC.Proofs.Machine.Calls

/-!
# What a step does to the active functions

`Steady m`: while functions are active, `m` changes neither them nor the instruction limit, and takes
back no instruction that was counted. All instructions that neither jump nor call nor return are
steady. `stepped` says everything that a step can do to the active functions.
-/
namespace IncrementalC
set_option autoImplicit false

variable {η α β : Type}

/-- Where the instruction may go on, other than behind itself. -/
def Instr.target? : Instr → Option Nat
  | .jump target | .jumpIfFalse target | .jumpIfTrue target => some target
  | _ => none

def Instr.isReturn : Instr → Bool
  | .return | .returnVoid => true
  | _ => false

namespace Machine

/-- The same functions are active, and as many instructions were run. -/
structure SameRun (m m' : Machine) : Prop where
  frames : m'.frames = m.frames
  limit : m'.maxInstructions = m.maxInstructions
  count : m'.instructionCount = m.instructionCount

theorem SameRun.refl (m : Machine) : SameRun m m := ⟨rfl, rfl, rfl⟩

theorem SameRun.trans {m m' m'' : Machine} (h : SameRun m m') (h' : SameRun m' m'') :
    SameRun m m'' :=
  ⟨h'.frames.trans h.frames, h'.limit.trans h.limit, h'.count.trans h.count⟩

theorem put_sameRun (m : Machine) (p : UInt64) (v : Value) : SameRun m (m.put p v) := by
  unfold put
  dsimp only
  split <;> exact ⟨rfl, rfl, rfl⟩

/-! ## Linking -/

/-- A step of the linker that changes memory and tables only. -/
def Links (l : Linking α) : Prop := ∀ m x m', l m = .ok x m' → SameRun m m'

namespace Links

theorem pure (x : α) : Links (Pure.pure x) := by
  intro m y m' h
  cases h
  exact .refl m

theorem bind {l : Linking α} {f : α → Linking β} (hl : Links l) (hf : ∀ x, Links (f x)) :
    Links (l >>= f) := by
  intro m y m' h
  obtain ⟨x, m₁, first, second⟩ := bind_eq_ok h
  exact (hl m x m₁ first).trans (hf x m₁ y m' second)

theorem throw (f : Fault) : Links (throw f : Linking α) := nofun

theorem liftFault (x : Except Fault α) : Links (liftFault x) := by
  cases x with
  | ok a => exact pure a
  | error f => exact throw f

theorem get : Links MonadState.get := by
  intro m y m' h
  cases h
  exact .refl m

theorem modify {f : Machine → Machine} (hf : ∀ m, SameRun m (f m)) : Links (modify f) := by
  intro m y m' h
  cases h
  exact hf m

theorem modifyGet {f : Machine → α × Machine} (hf : ∀ m, SameRun m (f m).2) :
    Links (modifyGet f) := by
  intro m y m' h
  cases h
  exact hf m

theorem forIn {xs : List α} {f : α → Linking (ForInStep PUnit)} (hf : ∀ x, Links (f x)) :
    Links (ForIn.forIn xs PUnit.unit fun x _ => f x) := by
  induction xs with
  | nil => exact pure _
  | cons x xs ih =>
    rw [List.forIn_cons]
    refine bind (hf x) fun r => ?_
    cases r with
    | done _ => exact pure _
    | yield _ => exact ih

end Links

theorem internStrings_sameRun (m : Machine) (ss : List String) : SameRun m (m.internStrings ss).2 := by
  induction ss generalizing m with
  | nil => exact .refl m
  | cons s ss ih =>
    have first : SameRun m (m.internString s).2 := by
      unfold internString
      split <;> exact ⟨rfl, rfl, rfl⟩
    exact first.trans (ih _)

theorem placeObject_sameRun (m : Machine) (g : CodeGlobal) : SameRun m (m.placeObject g).2 := by
  unfold placeObject
  dsimp only
  split
  · split <;> exact ⟨rfl, rfl, rfl⟩
  · exact ⟨rfl, rfl, rfl⟩

theorem links_defineObject (strings : Array UInt64) (g : CodeGlobal) :
    Links (defineObject strings g) := by
  unfold defineObject
  refine .bind (.modifyGet fun m => m.placeObject_sameRun g) fun base => ?_
  refine .bind (.forIn fun entry => ?_) fun _ => .pure _
  have stored : Links (do
      let v ← Machine.liftFault (constValue strings entry.2)
      modify fun m => { m with globals := m.globals.set! (base + entry.1) v }
      Pure.pure (.yield PUnit.unit) : Linking (ForInStep PUnit)) :=
    .bind (.liftFault _) fun v => .bind (.modify fun m => ⟨rfl, rfl, rfl⟩) fun _ => .pure _
  dsimp only
  split
  · exact .bind (.throw _) fun _ => stored
  · exact stored

theorem links_defineFunction (strings : Array UInt64) (f : CodeFunction) :
    Links (defineFunction strings f) :=
  .bind .get fun _ => .bind (.liftFault _) fun _ => .modify fun _ => ⟨rfl, rfl, rfl⟩

theorem links_link (c : CodeModule) : Links (link c) := by
  have accepts : Links (accept c) := by
    unfold accept
    refine .bind .get fun m => ?_
    have room : Links (if m.maxGlobals < m.globals.size + m.requestedSlots c then
        throw (.globalMemory (m.requestedSlots c) m.maxGlobals) else Pure.pure () : Linking Unit) := by
      split
      · exact .throw _
      · exact .pure _
    dsimp only
    split
    · exact .bind (.throw _) fun _ => room
    · exact room
  unfold link
  refine .bind accepts fun _ => .bind (.modifyGet fun m => m.internStrings_sameRun _) fun strings => ?_
  dsimp only
  rw [← Array.forIn_toList, ← Array.forIn_toList]
  refine .bind (.forIn fun g => ?_) fun _ => .bind (.forIn fun f => ?_) fun _ => .pure _
  · exact .bind (links_defineObject _ g) fun _ => .pure _
  · exact .bind (links_defineFunction _ f) fun _ => .pure _

end Machine

namespace Exec

/-! ## Steady computations -/

/-- What a steady computation leaves alone. -/
structure Since (w w' : World η) : Prop where
  frames : w'.machine.frames = w.machine.frames
  limit : w'.machine.maxInstructions = w.machine.maxInstructions
  count : w.machine.instructionCount ≤ w'.machine.instructionCount

theorem Since.refl (w : World η) : Since w w := ⟨rfl, rfl, Nat.le_refl _⟩

theorem Since.trans {w w' w'' : World η} (h : Since w w') (h' : Since w' w'') : Since w w'' :=
  ⟨h'.frames.trans h.frames, h'.limit.trans h.limit, Nat.le_trans h.count h'.count⟩

def Steady (m : Exec η α) : Prop :=
  ∀ (w : World η) x w', 0 < w.machine.frames.size → m w = .ok x w' → Since w w'

theorem bind_eq_ok {m : Exec η α} {f : α → Exec η β} {w w'' : World η} {y : β}
    (h : (m >>= f) w = .ok y w'') : ∃ x w', m w = .ok x w' ∧ f x w' = .ok y w'' := by
  have h : EStateM.bind m f w = .ok y w'' := h
  unfold EStateM.bind at h
  split at h
  · exact ⟨_, _, ‹_›, h⟩
  · cases h

namespace Steady

theorem pure (x : α) : Steady (Pure.pure x : Exec η α) := by
  intro w y w' _ h
  cases h
  exact .refl w

theorem bind {m : Exec η α} {f : α → Exec η β} (hm : Steady m) (hf : ∀ x, Steady (f x)) :
    Steady (m >>= f) := by
  intro w y w' active h
  obtain ⟨x, w₁, first, second⟩ := bind_eq_ok h
  have since := hm w x w₁ active first
  exact since.trans (hf x w₁ y w' (by rw [since.frames]; exact active) second)

theorem fail (f : Fault) : Steady (fail f : Exec η α) := nofun

theorem ofExcept (x : Except Fault α) : Steady (ofExcept x : Exec η α) := by
  cases x with
  | ok a => exact pure a
  | error f => exact fail f

theorem ite {c : Prop} [Decidable c] {m m' : Exec η α} (hm : Steady m) (hm' : Steady m') :
    Steady (if c then m else m') := by
  split
  · exact hm
  · exact hm'

theorem machine {f : Machine → Exec η β} (hf : ∀ m, Steady (f m)) : Steady (Exec.machine >>= f) :=
  fun w => hf w.machine w

theorem modifyMachine {f : Machine → Machine} (hf : ∀ m : Machine, m.SameRun (f m)) :
    Steady (modifyMachine f : Exec η Unit) := by
  intro w x w' _ h
  cases h
  have same := hf w.machine
  exact ⟨same.frames, same.limit, Nat.le_of_eq same.count.symm⟩

theorem push (v : Value) : Steady (push v : Exec η Unit) :=
  modifyMachine fun _ => ⟨rfl, rfl, rfl⟩

theorem pop : Steady (pop : Exec η Value) := by
  intro w v w' _ h
  cases operands : w.machine.operands with
  | nil =>
    rw [pop_nil operands] at h
    cases h
  | cons x rest =>
    rw [pop_cons operands] at h
    cases h
    exact ⟨rfl, rfl, Nat.le_refl _⟩

theorem popList (n : Nat) : Steady (popList n : Exec η (List Value)) := by
  intro w vs w' _ h
  have h : (if w.machine.operands.length < n then Exec.fail .operandUnderflow
    else do
      set { w with machine := { w.machine with operands := w.machine.operands.drop n } }
      return (w.machine.operands.take n).reverse : Exec η (List Value)) w = .ok vs w' := h
  split at h
  · cases h
  · cases h
    exact ⟨rfl, rfl, Nat.le_refl _⟩

theorem load (p : UInt64) : Steady (load p : Exec η Value) := machine fun _ => ofExcept _

theorem store (p : UInt64) (v : Value) : Steady (store p v : Exec η Unit) :=
  machine fun _ => ite (modifyMachine fun m => m.put_sameRun p v) (fail _)

theorem storeAll (a : Address) (vs : List Value) : Steady (storeAll a vs : Exec η Unit) := by
  induction vs generalizing a with
  | nil => exact pure _
  | cons v vs ih => exact bind (store _ _) fun _ => ih _

theorem copySlots (count : Nat) : Steady (copySlots count : Exec η Unit) :=
  bind pop fun _ => bind pop fun _ => machine fun _ => bind (ofExcept _) fun _ =>
    bind (storeAll _ _) fun _ => push _

theorem builtin (b : Builtin) (args : List Value) : Steady (builtin b args : Exec η Unit) := by
  by_cases result : b = .setResult
  · subst result
    exact modifyMachine (f := fun m => { m with results := m.results.push (args.headD .void) })
      fun _ => ⟨rfl, rfl, rfl⟩
  · rw [builtin_library result]
    exact machine fun _ => bind (ofExcept _) fun _ =>
      bind (modifyMachine fun _ => ⟨rfl, rfl, rfl⟩) fun _ => push _

end Steady

/-! ## Instructions -/

theorem steady_instr {i : Instr} (straight : i.isStraight) (ret : Option Scalar) (base : Nat) :
    Steady (instr ret base i : Exec η Unit) := by
  cases i with
  | pushInt _ | pushFloat _ | pushPtr _ | localAddr _ => exact .push _
  | pushStr _ => exact .fail _
  | globalAddr name =>
    refine .machine fun m => ?_
    split
    · exact .push _
    · exact .fail _
  | load kind => exact .bind .pop fun p => .bind (.load _) fun v => .push _
  | store kind => exact .bind .pop fun v => .bind .pop fun p => .bind (.store _ _) fun _ => .push _
  | copySlots count => exact .copySlots count
  | dup =>
    refine .machine fun m => ?_
    split
    · exact .push _
    · exact .fail _
  | pop => exact .bind .pop fun _ => .pure _
  | convert _ _ => exact .bind .pop fun v => .push _
  | binary op kind => exact .bind .pop fun b => .bind .pop fun a => .bind (.ofExcept _) fun v => .push _
  | unary op kind => exact .bind .pop fun a => .bind (.ofExcept _) fun v => .push _
  | ptrAdd stride | ptrDiff stride => exact .bind .pop fun i => .bind .pop fun p => .push _
  | incDec kind amount post =>
    exact .bind .pop fun p => .bind (.load _) fun old => .bind (.store _ _) fun _ => .push _
  | builtin b argc => exact .bind (.popList argc) fun args => .builtin b args
  | printValue shape =>
    exact .bind .pop fun v => .machine fun m => .bind (.ofExcept _) fun t =>
      .modifyMachine fun _ => ⟨rfl, rfl, rfl⟩
  | jump _ | jumpIfFalse _ | jumpIfTrue _ | call _ _ | «return» | returnVoid => cases straight

theorem steady_act {evaluate : List Value → Exec η Value} (steady : ∀ args, Steady (evaluate args))
    {i : Instr} (straight : i.isStraight) (ret : Option Scalar) (base : Nat) :
    Steady (act evaluate ret base i) := by
  unfold act
  split
  · exact .bind (.popList _) fun args => .bind (steady args) fun v => .push v
  · exact steady_instr straight ret base

/-- What becomes of the active functions, `f` being the innermost one and those in `l` below it, when
`f` runs an instruction. -/
inductive FramesAfter (l : List Frame) (f : Frame) : Instr → List Frame → Prop
  | stays {i : Instr} (ip : Nat) (next : ip = f.ip + 1 ∨ i.target? = some ip)
      (inside : i.isReturn = false) : FramesAfter l f i (l ++ [{ f with ip }])
  | calls (name : String) (argc : Nat) (g : Frame) :
      FramesAfter l f (.call name argc) (l ++ [{ f with ip := f.ip + 1 }, g])
  | leaves {i : Instr} (returns : i.isReturn) : FramesAfter l f i l

section Step

variable {evaluate : List Value → Exec η Value} {l : List Frame} {f : Frame} {w w' : World η}

/-- What is left of an instruction once the frame points behind it. -/
structure Acted (l : List Frame) (f : Frame) (i : Instr) (w w' : World η) : Prop where
  limit : w'.machine.maxInstructions = w.machine.maxInstructions
  count : w.machine.instructionCount ≤ w'.machine.instructionCount
  frames : FramesAfter l f i w'.machine.frames.toList

theorem pop_ok {v : Value} (h : pop w = .ok v w') : ∃ rest, w.machine.operands = v :: rest ∧
    w' = { w with machine := { w.machine with operands := rest } } := by
  cases operands : w.machine.operands with
  | nil =>
    rw [pop_nil operands] at h
    cases h
  | cons x rest =>
    rw [pop_cons operands] at h
    cases h
    exact ⟨rest, rfl, rfl⟩

/-- A jump, taken or not. -/
theorem acted_goto {i : Instr} {m : Machine} (same : w.machine.SameRun m)
    (frames : w.machine.frames.toList = l ++ [{ f with ip := f.ip + 1 }]) {target : Nat}
    (given : i.target? = some target) (inside : i.isReturn = false) (host : η) :
    Acted l f i w ⟨m.goto target, host⟩ := by
  refine ⟨same.limit, Nat.le_of_eq same.count.symm, ?_⟩
  have moved := Machine.goto_frames (m := m) (l := l) (by rw [same.frames]; exact frames) target
  show FramesAfter l f i (m.goto target).frames.toList
  rw [moved]
  exact .stays target (.inr given) inside

theorem acted_next {i : Instr} {m : Machine} (same : w.machine.SameRun m)
    (frames : w.machine.frames.toList = l ++ [{ f with ip := f.ip + 1 }]) (inside : i.isReturn = false)
    (host : η) : Acted l f i w ⟨m, host⟩ := by
  refine ⟨same.limit, Nat.le_of_eq same.count.symm, ?_⟩
  show FramesAfter l f i m.frames.toList
  rw [same.frames, frames]
  exact .stays _ (.inl rfl) inside

theorem acted_leave {i : Instr} {m : Machine} (same : w.machine.SameRun m)
    (left : m.leave.SameRun w'.machine)
    (frames : w.machine.frames.toList = l ++ [{ f with ip := f.ip + 1 }]) (returns : i.isReturn) :
    Acted l f i w w' := by
  have back : m.frames.back? = some { f with ip := f.ip + 1 } := by
    rw [← Array.getLast?_toList, same.frames, frames, List.getLast?_concat]
  unfold Machine.leave at left
  rw [back] at left
  refine ⟨left.limit.trans same.limit, Nat.le_of_eq (left.count.trans same.count).symm, ?_⟩
  rw [left.frames]
  show FramesAfter l f i m.frames.pop.toList
  rw [Array.toList_pop, same.frames, frames, List.dropLast_concat]
  exact .leaves returns

theorem findFunction_ok {name : String} {g : CodeFunction} (h : findFunction name w = .ok g w') :
    w' = w := by
  cases found : w.machine.functions.get? name with
  | none =>
    rw [findFunction_unknown found] at h
    cases h
  | some f =>
    rw [findFunction_known found] at h
    cases h
    rfl

theorem enter_ok {g : CodeFunction} {args : List Value} {u : Unit} (h : enter g args w = .ok u w') :
    w' = { w with machine := w.machine.enter g args } := by
  cases refusal : w.machine.refusal? g args.length with
  | none =>
    rw [enter_accepted refusal] at h
    cases h
    rfl
  | some fault =>
    rw [enter_refused refusal] at h
    cases h

/-- What an instruction does once the frame points behind it. -/
theorem acted (steady : ∀ args, Steady (evaluate args)) {i : Instr} {u : Unit}
    (frames : w.machine.frames.toList = l ++ [{ f with ip := f.ip + 1 }])
    (h : act evaluate f.function.ret f.base i w = .ok u w') : Acted l f i w w' := by
  have active : 0 < w.machine.frames.size := by
    rw [← Array.length_toList, frames, List.length_append]
    exact Nat.succ_pos _
  by_cases straight : i.isStraight
  · have since := steady_act steady straight _ _ w u w' active h
    refine ⟨since.limit, since.count, ?_⟩
    rw [since.frames, frames]
    exact .stays _ (.inl rfl) (by cases i <;> first | rfl | cases straight)
  have popped {v : Value} {w₁ : World η} (h : pop w = .ok v w₁) : w.machine.SameRun w₁.machine := by
    obtain ⟨rest, -, rfl⟩ := pop_ok h
    exact ⟨rfl, rfl, rfl⟩
  cases i with
  | jump target =>
    cases h
    exact acted_goto (.refl _) frames rfl rfl w.host
  | jumpIfFalse target =>
    obtain ⟨v, w₁, first, h⟩ := bind_eq_ok (m := pop) h
    have h : (if !v.isTruthy then modifyMachine (·.goto target) else pure () : Exec η Unit) w₁ = .ok u w' := h
    split at h
    · cases h
      exact acted_goto (popped first) frames rfl rfl _
    · cases h
      exact acted_next (popped first) frames rfl _
  | jumpIfTrue target =>
    obtain ⟨v, w₁, first, h⟩ := bind_eq_ok (m := pop) h
    have h : (if v.isTruthy then modifyMachine (·.goto target) else pure () : Exec η Unit) w₁ = .ok u w' := h
    split at h
    · cases h
      exact acted_goto (popped first) frames rfl rfl _
    · cases h
      exact acted_next (popped first) frames rfl _
  | call name argc =>
    have called : (findFunction name >>= fun g => popList argc >>= fun args => enter g args) w
      = .ok u w' := h
    obtain ⟨g, w₁, found, taking⟩ := bind_eq_ok called
    obtain rfl := findFunction_ok found
    obtain ⟨args, w₂, taken, entering⟩ := bind_eq_ok taking
    have since := Steady.popList argc w₁ args w₂ active taken
    obtain rfl := enter_ok entering
    refine ⟨since.limit, since.count, ?_⟩
    show FramesAfter l f _ (w₂.machine.frames.push _).toList
    rw [Array.toList_push, since.frames, frames, List.append_assoc]
    exact .calls name argc _
  | «return» =>
    obtain ⟨v, w₁, first, rest⟩ := bind_eq_ok (m := pop) h
    cases rest
    exact acted_leave (popped first) ⟨rfl, rfl, rfl⟩ frames rfl
  | returnVoid =>
    cases h
    exact acted_leave (.refl _) (.refl _) frames rfl
  | _ => exact absurd rfl straight

/-- What a step does: it runs one instruction, and counts it. -/
structure Stepped (l : List Frame) (f : Frame) (w w' : World η) : Prop where
  limit : w'.machine.maxInstructions = w.machine.maxInstructions
  count : w.machine.instructionCount < w'.machine.instructionCount
  room : w.machine.instructionCount < w.machine.maxInstructions
  frames : ∃ i, f.function.code[f.ip]? = some i ∧ FramesAfter l f i w'.machine.frames.toList

/-- The world in which an instruction acts. -/
def advanced (w : World η) (ip : Nat) : World η := ⟨w.machine.advance ip, w.host⟩

theorem step_eq {i : Instr} (found : f.function.code[f.ip]? = some i) :
    step evaluate f w =
      if w.machine.maxInstructions < w.machine.instructionCount + 1 then
        .error { fault := .instructionLimit w.machine.maxInstructions } (advanced w (f.ip + 1))
      else act evaluate f.function.ret f.base i (advanced w (f.ip + 1)) := by
  unfold step
  rw [found]
  dsimp only
  have advances : (modifyMachine (·.advance (f.ip + 1)) : Exec η Unit) w = .ok () (advanced w (f.ip + 1)) := rfl
  rw [run_ok advances, run_machine]
  by_cases exceeded : w.machine.maxInstructions < w.machine.instructionCount + 1
  · rw [if_pos exceeded, show (advanced w (f.ip + 1)).machine.exhausted? = some (.instructionLimit _) from
      if_pos exceeded]
    rfl
  · rw [if_neg exceeded, show (advanced w (f.ip + 1)).machine.exhausted? = none from if_neg exceeded]

theorem step_none (found : f.function.code[f.ip]? = none) :
    step evaluate f w = .error { fault := .ranPastEnd f.function.name } w := by
  unfold step
  rw [found]
  rfl

theorem stepped (steady : ∀ args, Steady (evaluate args)) {u : Unit}
    (frames : w.machine.frames.toList = l ++ [f]) (h : step evaluate f w = .ok u w') :
    Stepped l f w w' := by
  cases found : f.function.code[f.ip]? with
  | none =>
    rw [step_none found] at h
    cases h
  | some i =>
    rw [step_eq found] at h
    split at h
    · cases h
    · have done := acted steady (l := l) (f := f) (Machine.goto_frames frames (f.ip + 1)) h
      have counted : w.machine.instructionCount + 1 ≤ w'.machine.instructionCount := done.count
      exact ⟨done.limit, counted, by omega, i, found, done.frames⟩

end Step

end Exec
end IncrementalC
