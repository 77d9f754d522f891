import IncrementalC.Proofs.Machine.Placement
import IncrementalC.Proofs.Session.Settled

/-!
# Inputs that are rejected before they run

`Session.Submission.fragment` is the part of an evaluation in front of the linker: it yields what is to be linked
and run. Whatever goes wrong there leaves the session as it was. When the linker refuses a fragment, the machine
and the history stay as they were too, but what the fragment declares has been committed by then
(`Session.rejected_before_running`, `Session.refused_object_stays_declared`). Not every rejection is the fault of the
input: the text that statements are made into can be rejected as well (`Session.comma_statement_rejected`).
-/
namespace IncrementalC
set_option autoImplicit false

/-- The kinds of errors that say that an input is no valid text. -/
def SessionError.isRejection (e : SessionError) : Bool :=
  match e.kind with
  | .malformed | .grammar | .code => true
  | _ => false

namespace Session

/-- What may be handed to a session. -/
inductive Submission where
  /-- An interactive input. -/
  | input (text : String)
  /-- Text that is compiled as it is. -/
  | code (text : String)

def Submission.evaluate : Submission → Steps Evaluation
  | .input text => Session.evaluate text
  | .code text => evaluateText text

/-! ## In front of the linker -/

def compileFragment (text : String) : Steps CompiledFragment := do
  compile text none (← get).options.compilation.codegen

/-- Statements that belong outside of functions are compiled as they are. -/
def wrappedFragment (input : String) (codegen : Bool) : Option WrappedInput → Steps CompiledFragment
  | none => compileFragment input
  | some w => compile w.source w.entry codegen

def statementsFragment (input : String) : Steps CompiledFragment := do
  let options := (← get).options.compilation
  let id ← nextInput
  let entry := s!"__cinder_input_line_{id}"
  let wrapped ←
    if options.declarationExtraction then wrapInput input id entry options.valuePrinting
    else pure (some { body := [input, ";"], entry := some entry })
  wrappedFragment input options.codegen wrapped

def inputFragment (input : String) : Steps (Option CompiledFragment) := do
  let trimmed := Text.trim input.toList
  if trimmed.isEmpty then return none
  else if "#include".toList.isPrefixOf trimmed then return some (← compileFragment input)
  else
    let verdict := Input.verdict input
    if verdict ≠ .valid then throw (.malformed verdict)
    else return some (← statementsFragment input)

/-- What is to be linked and run for a submission, if there is anything to run. -/
def Submission.fragment : Submission → Steps (Option CompiledFragment)
  | .input text => inputFragment text
  | .code text => do return some (← compileFragment text)

def runFragment : Option CompiledFragment → Steps Evaluation
  | some f => run f
  | none => return {}

theorem compileText_eq (text : String) : compileText text = compileFragment text >>= run := by
  unfold compileText compileFragment
  rw [bind_assoc]

theorem evaluateStatements_eq (input : String) : evaluateStatements input = statementsFragment input >>= run := by
  have wrapped (codegen : Bool) : (fun w : Option WrappedInput => match w with
      | none => compileText input
      | some w => compile w.source w.entry codegen >>= run) = fun w => wrappedFragment input codegen w >>= run := by
    funext w
    cases w with
    | none => exact compileText_eq input
    | some w => rfl
  unfold evaluateStatements statementsFragment
  rw [bind_assoc]
  refine congrArg _ (funext fun s => ?_)
  dsimp only
  rw [bind_assoc]
  refine congrArg _ (funext fun id => ?_)
  split
  · rw [bind_assoc]
    exact congrArg (_ >>= ·) (wrapped _)
  · rw [bind_assoc]
    exact congrArg (_ >>= ·) (wrapped _)

theorem evaluateInput_eq (input : String) : evaluateInput input = inputFragment input >>= runFragment := by
  unfold evaluateInput inputFragment
  dsimp only
  split
  · exact (pure_bind _ _).symm
  · split
    · rw [compileText_eq, bind_assoc]
      simp only [pure_bind]
      rfl
    · split
      · rfl
      · rw [evaluateStatements_eq, bind_assoc]
        simp only [pure_bind]
        rfl

theorem Submission.evaluate_eq (q : Submission) : q.evaluate = guarded (q.fragment >>= runFragment) := by
  cases q with
  | input text => exact congrArg guarded (evaluateInput_eq text)
  | code text =>
    refine congrArg guarded ?_
    show compileText text = (do return some (← compileFragment text)) >>= runFragment
    rw [compileText_eq, bind_assoc]
    simp only [pure_bind]
    rfl

/-! ## What comes out in front of the linker -/

variable {s s' : Session} {α β : Type}

/-- The program is unchanged, or something was compiled and only the unit has changed. -/
def FragmentOf (s : Session) : EStateM.Result SessionError Session (Option CompiledFragment) → Prop
  | .ok (some _) s' => s'.unit.Settled ∧ s'.machine = s.machine ∧ s'.history = s.history
  | .ok none s' => Unchanged s s'
  | .error _ s' => Unchanged s s'

theorem FragmentOf.after {r : EStateM.Result SessionError Session (Option CompiledFragment)} (first : Unchanged s s')
    (h : FragmentOf s' r) : FragmentOf s r := by
  cases r with
  | error e s'' => exact first.trans h
  | ok f s'' =>
    cases f with
    | none => exact first.trans h
    | some f => exact ⟨h.1, h.2.1.trans first.machine, h.2.2.trans first.history⟩

theorem compile_fragmentOf (settled : s.unit.Settled) (text : String) (entry : Option String) (codegen : Bool) :
    FragmentOf s ((do return some (← compile text entry codegen) : Steps (Option CompiledFragment)) s) := by
  show FragmentOf s (EStateM.bind _ _ s)
  unfold EStateM.bind
  obtain ⟨e, s', run, unchanged⟩ | ⟨f, s', run, after⟩ := compile_cases settled text entry codegen
  · rw [run]
    exact unchanged
  · rw [run]
    exact after

theorem wrapped_fragmentOf (wraps : Steps (Option WrappedInput)) (input : String) (codegen : Bool)
    (unchanged : Unchanged s (finalState (wraps s))) :
    FragmentOf s ((do return some (← wrappedFragment input codegen (← wraps)) : Steps (Option CompiledFragment)) s) := by
  show FragmentOf s (EStateM.bind wraps _ s)
  unfold EStateM.bind
  cases run : wraps s with
  | error e s' =>
    rw [run] at unchanged
    exact unchanged
  | ok r s' =>
    rw [run] at unchanged
    refine .after unchanged ?_
    cases r with
    | none => exact compile_fragmentOf unchanged.settled _ _ _
    | some w => exact compile_fragmentOf unchanged.settled _ _ _

theorem statements_fragmentOf (settled : s.unit.Settled) (input : String) :
    FragmentOf s ((do return some (← statementsFragment input) : Steps (Option CompiledFragment)) s) := by
  let options := s.options.compilation
  let counted : Session := { s with inputCount := s.inputCount + 1 }
  let entry := s!"__cinder_input_line_{s.inputCount + 1}"
  let compiles := wrappedFragment input options.codegen
  have unfolded : (do return some (← statementsFragment input) : Steps (Option CompiledFragment)) s = ((
      if options.declarationExtraction then
        wrapInput input (s.inputCount + 1) entry options.valuePrinting >>= compiles
      else pure (some { body := [input, ";"], entry := some entry }) >>= compiles) >>= fun f => pure (some f)) counted :=
    rfl
  have unchanged : Unchanged s counted := .of_eq settled rfl rfl rfl rfl rfl
  rw [unfolded]
  refine .after unchanged ?_
  split
  · rw [bind_assoc]
    exact wrapped_fragmentOf _ input options.codegen (wrapInput_unchanged unchanged.settled _ _ _ _)
  · rw [bind_assoc]
    exact wrapped_fragmentOf (pure _) input options.codegen (.refl unchanged.settled)

theorem Submission.fragmentOf (q : Submission) (settled : s.unit.Settled) : FragmentOf s (q.fragment s) := by
  cases q with
  | code text => exact compile_fragmentOf settled text none _
  | input text =>
    show FragmentOf s (inputFragment text s)
    unfold inputFragment
    dsimp only
    split
    · exact Unchanged.refl settled
    · split
      · exact compile_fragmentOf settled text none _
      · split
        · exact Unchanged.refl settled
        · exact statements_fragmentOf settled text

/-! ## Running does not reject -/

theorem raises_ofExec {η : Type} (wrap : MachineError → SessionError) (x : Exec η α)
    (h : ∀ m, (wrap m).isRejection = false) : Raises (fun e => e.isRejection = false) (Execution.ofExec wrap x) := by
  intro w e w' run
  unfold Execution.ofExec at run
  split at run
  · cases run
  · cases run
    exact h _

theorem machine_isRejection (m : MachineError) : (SessionError.machine m).isRejection = false := by
  show (match (if m.fault.isUnresolved then SessionError.Kind.unresolved else .machine) with
    | .malformed | .grammar | .code => true
    | _ => false) = false
  cases m.fault.isUnresolved <;> rfl

theorem linkError_isRejection (m : MachineError) : (Execution.linkError m).isRejection = false := by
  unfold Execution.linkError
  split
  · rfl
  · exact machine_isRejection m

theorem run_raises (f : CompiledFragment) : Raises (fun e => e.isRejection = false) (run f) := by
  have calls (x : Exec Evaluator Unit) : Raises (fun e => e.isRejection = false) (Execution.ofExec .machine x) :=
    raises_ofExec _ _ machine_isRejection
  have each (names : List String) : Raises (fun e => e.isRejection = false)
      (Execution.callEachOnce (some Evaluator.host) names) := by
    induction names with
    | nil => exact .pure _
    | cons name names ih => exact .bind (calls _) fun _ => ih
  have executes : Raises (fun e => e.isRejection = false) (execute f) := by
    refine .bind (.bind (raises_ofExec _ _ linkError_isRejection) fun names => .bind (.modify _) fun _ =>
      .bind (each names) fun _ => .pure _) fun entry => ?_
    split
    · refine .bind (.bind .get fun e => ?_) fun _ => .pure _
      split
      · exact raises_ofExec _ _ machine_isRejection
      · exact .pure _
    · exact .pure _
  intro s e s' failed
  unfold run at failed
  cases outcome : execute f s.execution with
  | ok entry x =>
    rw [outcome] at failed
    cases failed
  | error e' x =>
    rw [outcome] at failed
    cases failed
    exact executes _ _ _ outcome

/-! ## Fragments that the linker refuses -/

/-- The memory, the functions and the declarations are as before. -/
structure KeepsMachine (s s' : Session) : Prop where
  globals : s'.machine.globals = s.machine.globals
  objects : s'.machine.objects = s.machine.objects
  strings : s'.machine.strings = s.machine.strings
  functions : s'.machine.functions = s.machine.functions
  history : s'.history = s.history

theorem run_refused {f : CompiledFragment} {fault : Fault} {m : Machine}
    (refused : Machine.link f.module s.machine = .error fault m) (isRefusal : fault.isRefusal) :
    ∃ e s', run f s = .error e s' ∧ KeepsMachine s s' ∧ s'.unit = s.unit := by
  have same : m = s.machine := Machine.link_refused refused isRefusal
  have linked : Exec.link f.module s.execution.world =
      .error { fault } { s.execution.world with machine := m } := by
    unfold Exec.link
    rw [show s.execution.world.machine = s.machine from rfl, refused]
  have failed : execute f s.execution = .error (Execution.linkError { fault })
      { s.execution with world := { s.execution.world with machine := m } } := by
    show EStateM.bind (EStateM.bind (Execution.ofExec Execution.linkError (Exec.link f.module)) _) _ s.execution = _
    unfold EStateM.bind Execution.ofExec
    rw [linked]
  unfold run
  rw [failed]
  subst same
  exact ⟨_, _, rfl, ⟨rfl, rfl, rfl, rfl, rfl⟩, rfl⟩

theorem guarded_error {steps : Steps Evaluation} {e : SessionError} (healthy : s.poisoned = none)
    (failed : steps s = .error e s') : ∃ s'', guarded steps s = .error e s'' ∧ s''.unit = s'.unit.clearDeferrals ∧
      s''.machine = s'.machine ∧ s''.history = s'.history := by
  unfold guarded
  rw [healthy, failed]
  dsimp only
  split
  · exact ⟨_, rfl, rfl, rfl, rfl⟩
  · exact ⟨_, rfl, rfl, rfl, rfl⟩

theorem guarded_failed {steps : Steps Evaluation} {e : SessionError} (failed : guarded steps s = .error e s') :
    s' = s ∨ ∃ s₁, steps s = .error e s₁ ∧ s'.unit = s₁.unit.clearDeferrals ∧ s'.machine = s₁.machine ∧
      s'.history = s₁.history := by
  unfold guarded at failed
  cases poisoned : s.poisoned with
  | some e' =>
    rw [poisoned] at failed
    cases failed
    exact .inl rfl
  | none =>
    rw [poisoned] at failed
    cases run : steps s with
    | ok r s₁ =>
      rw [run] at failed
      cases failed
    | error e' s₁ =>
      rw [run] at failed
      dsimp only at failed
      split at failed
      · cases failed
        exact .inr ⟨s₁, rfl, rfl, rfl, rfl⟩
      · cases failed
        exact .inr ⟨s₁, rfl, rfl, rfl, rfl⟩

/-! ## The result -/

/-- An input that is no valid text changes nothing, whether it is rejected as it is validated, parsed, analysed or
lowered. One that the linker refuses leaves the machine and the history alone, and the program is the one that the
compiled fragment has made. -/
theorem rejected_before_running (reached : Reached s) (q : Submission) :
    (∀ e s', q.evaluate s = .error e s' → e.isRejection → Unchanged s s') ∧
      ∀ f s₁ fault m, s.poisoned = none → q.fragment s = .ok (some f) s₁ →
        Machine.link f.module s₁.machine = .error fault m → fault.isRefusal →
        ∃ e s', q.evaluate s = .error e s' ∧ KeepsMachine s s' ∧ s'.unit.Settled ∧ s'.unit.program = s₁.unit.program := by
  have fragment := q.fragmentOf reached.settled
  rw [q.evaluate_eq]
  refine ⟨fun e s' failed rejection => ?_, fun f s₁ fault m healthy compiled refused isRefusal => ?_⟩
  · obtain rfl | ⟨s₁, failed, unit, machine, history⟩ := guarded_failed failed
    · exact .refl reached.settled
    · have unchanged : Unchanged s s₁ := by
        obtain early | ⟨f, s₂, compiled, late⟩ := Raises.bind_eq_error failed
        · rw [early] at fragment
          exact fragment
        · cases f with
          | none => cases late
          | some f =>
            have other : e.isRejection = false := run_raises f s₂ e s₁ late
            rw [rejection] at other
            cases other
      refine unchanged.trans (.of_eq unchanged.settled ?_ ?_ ?_ machine history)
      · rw [unit]
        rfl
      · rw [unit]
        rfl
      · rw [unit]
        rfl
  · rw [compiled] at fragment
    obtain ⟨settled, machine₁, history₁⟩ := fragment
    obtain ⟨e, s₂, failed, keeps, unit⟩ := run_refused refused isRefusal
    have whole : (q.fragment >>= runFragment) s = .error e s₂ := by
      show EStateM.bind q.fragment runFragment s = _
      unfold EStateM.bind
      rw [compiled]
      exact failed
    obtain ⟨s', result, unit', machine, history⟩ := guarded_error healthy whole
    refine ⟨e, s', result, ⟨?_, ?_, ?_, ?_, ?_⟩, ?_, ?_⟩
    · rw [machine, keeps.globals, machine₁]
    · rw [machine, keeps.objects, machine₁]
    · rw [machine, keeps.strings, machine₁]
    · rw [machine, keeps.functions, machine₁]
    · rw [history, keeps.history, history₁]
    · rw [unit', unit]
      exact ⟨settled.names, settled.includes⟩
    · rw [unit', unit]
      rfl

/-! ## A session with little room -/

/-- The kind of error that a submission ends with. -/
def Submission.failure (q : Submission) (s : Session) : Option SessionError.Kind :=
  match q.evaluate s with
  | .ok .. => none
  | .error e _ => some e.kind

/-- The global memory has room for four slots, and the handle of the session takes one. -/
def smallSession : Session :=
  match create { globalMemoryLimit := some 4 } 1 {} with
  | .ok s => s
  | .error _ => initial {} 1 {}

theorem reached_smallSession : Reached smallSession := by
  have started : (create { globalMemoryLimit := some 4 } 1 {}).toOption.isSome := by decide +kernel
  unfold smallSession
  cases run : create { globalMemoryLimit := some 4 } 1 {} with
  | ok s => exact .created _ _ _ run
  | error e =>
    rw [run] at started
    cases started

theorem small_session_rejects :
    (∃ e s', (Submission.code "int y = 1; int y[2];").evaluate smallSession = .error e s' ∧ Unchanged smallSession s') ∧
      ∃ e s', (Submission.code "int big[9];").evaluate smallSession = .error e s' ∧ KeepsMachine smallSession s' ∧
        s'.unit.Settled := by
  refine ⟨?_, ?_⟩
  · have keeps := (rejected_before_running reached_smallSession (.code "int y = 1; int y[2];")).1
    have rejects : ((failed? ((Submission.code "int y = 1; int y[2];").evaluate smallSession)).any
      (·.1.isRejection)) = true := by decide +kernel
    cases run : (Submission.code "int y = 1; int y[2];").evaluate smallSession with
    | ok r s' =>
      rw [run] at rejects
      cases rejects
    | error e s' =>
      rw [run] at rejects
      exact ⟨e, s', rfl, keeps e s' run rejects⟩
  · have keeps := (rejected_before_running reached_smallSession (.code "int big[9];")).2
    have healthy : smallSession.poisoned = none := by decide +kernel
    have refuses : (do
        let compiled ← given? ((Submission.code "int big[9];").fragment smallSession)
        let f ← compiled.1
        let refused ← failed? (Machine.link f.module compiled.2.machine)
        return refused.1.isRefusal : Option Bool) = some true := by decide +kernel
    simp only [Option.bind_eq_bind, Option.bind_eq_some_iff] at refuses
    obtain ⟨⟨_, s₁⟩, compiled, f, rfl, ⟨fault, m⟩, refused, isRefusal⟩ := refuses
    obtain ⟨e, s', failed, kept, settled, -⟩ := keeps f s₁ fault m healthy (given?_eq_some compiled)
      (failed?_eq_some refused) (Option.some.inj isRefusal)
    exact ⟨e, s', failed, kept, settled⟩

/-- The linker refuses an object, and the name of the object can no longer be declared otherwise. -/
theorem refused_object_stays_declared :
    let after := finalState ((Submission.code "int big[9];").evaluate smallSession)
    Reached smallSession ∧ (Submission.code "int big[9];").failure smallSession = some .machine ∧
      (Submission.code "int big = 3;").failure smallSession = none ∧
      (Submission.code "int big = 3;").failure after = some .grammar :=
  ⟨reached_smallSession, by decide +kernel, by decide +kernel, by decide +kernel⟩

/-! ## A comma in the last expression -/

/-- The last expression stands between the parentheses of a call as it is, where its comma separates arguments. -/
theorem comma_statement_rejected :
    let s := smallSession.setDynamic false
    Reached s ∧ s.isDynamic = false ∧ Input.verdict "1, 2" = .valid ∧
      ∃ w s₁, wrapInput "1, 2" 1 "__cinder_input_line_1" .auto s = .ok (some w) s₁ ∧ w.globals = [] ∧
        w.final = some "__cinder_print_value(1, 2);" ∧
        ∃ e s₂, compile w.source w.entry true s₁ = .error e s₂ ∧ e.kind = .grammar ∧
          e.message = "'__cinder_print_value' takes exactly one argument" := by
  intro s
  have refuses : (do
      let (w, s₁) ← given? (wrapInput "1, 2" 1 "__cinder_input_line_1" .auto s)
      let w ← w
      let (e, _) ← failed? (compile w.source w.entry true s₁)
      return (w.globals, w.final, e.kind, e.message) : Option _) =
      some ([], some "__cinder_print_value(1, 2);", .grammar, "'__cinder_print_value' takes exactly one argument") := by
    decide +kernel
  simp only [Option.bind_eq_bind, Option.bind_eq_some_iff] at refuses
  obtain ⟨⟨_, s₁⟩, wrapped, w, rfl, ⟨e, s₂⟩, refused, outcome⟩ := refuses
  simp only [Option.pure_def, Option.some.injEq, Prod.mk.injEq] at outcome
  obtain ⟨globals, final, kind, message⟩ := outcome
  exact ⟨.dynamic reached_smallSession false, by decide +kernel, by decide +kernel, w, s₁, given?_eq_some wrapped,
    globals, final, e, s₂, failed?_eq_some refused, kind, message⟩

end Session

end IncrementalC
