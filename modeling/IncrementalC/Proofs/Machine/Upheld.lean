import IncrementalC.Proofs.Machine.Fuel

/-!
# Properties that values do not matter for

`Upheld I J Q`: the property `I` of machines depends on their functions, objects and active functions only, `J` is what is
left of it after an error, and `Q` holds of the mild faults and of names that are not there. `Upholds I J Q m`: on a
machine with `I`, the computation `m` leads to one with `I`, or it fails with a fault in `Q` and leaves one with `J`. Every
instruction that neither jumps nor calls nor returns is of this kind (`upholds_instr`), and so is all that surrounds the
running of a function.
-/
namespace IncrementalC
set_option autoImplicit false

variable {η α β : Type}

namespace Machine

/-- The same functions, objects and active functions. -/
structure SameCode (m m' : Machine) : Prop where
  functions : m'.functions = m.functions
  objects : m'.objects = m.objects
  frames : m'.frames = m.frames

theorem put_sameCode (m : Machine) (p : UInt64) (v : Value) : m.SameCode (m.put p v) := by
  unfold put
  dsimp only
  split <;> exact ⟨rfl, rfl, rfl⟩

end Machine

/-- The instruction writes a text that there may be no room for. -/
def Instr.writesText : Instr → Bool
  | .printValue _ | .builtin .printf _ => true
  | _ => false

/-- What the property `I` of machines, what is left of it and the faults have to satisfy. -/
structure Upheld (I J : Machine → Prop) (Q : Fault → Prop) : Prop where
  same : ∀ m m' : Machine, m.SameCode m' → I m → I m'
  left : ∀ m, I m → J m
  /-- After an error the active functions do not matter. -/
  unwound : ∀ m m' : Machine, m'.functions = m.functions → m'.objects = m.objects → J m → J m'
  mild : ∀ f : Fault, f.isMild → Q f
  operands : Q .operandUnderflow
  noFunction : ∀ m name, I m → m.functions.get? name = none → Q (.undefinedFunction name)
  noObject : ∀ m name, I m → m.objectAddress? name = none → Q (.undefinedSymbol name)

namespace Exec

variable {I J : Machine → Prop} {Q : Fault → Prop}

/-- What a computation that upholds `I` may come to. -/
def UpholdsTo (I J : Machine → Prop) (Q : Fault → Prop) : EStateM.Result MachineError (World η) α → Prop
  | .ok _ w' => I w'.machine
  | .error e w' => J w'.machine ∧ Q e.fault

def Upholds (I J : Machine → Prop) (Q : Fault → Prop) (m : Exec η α) : Prop :=
  ∀ w : World η, I w.machine → UpholdsTo I J Q (m w)

theorem UpholdsTo.bind {m : Exec η α} {f : α → Exec η β} {w : World η} (hm : UpholdsTo I J Q (m w))
    (hf : ∀ x w', m w = .ok x w' → I w'.machine → UpholdsTo I J Q (f x w')) : UpholdsTo I J Q ((m >>= f) w) := by
  show UpholdsTo I J Q (EStateM.bind m f w)
  unfold EStateM.bind
  cases run : m w with
  | error e w' =>
    rw [run] at hm
    exact hm
  | ok x w' =>
    rw [run] at hm
    exact hf x w' run hm

namespace Upholds

theorem pure (x : α) : Upholds I J Q (Pure.pure x : Exec η α) := fun _ h => h

theorem bind {m : Exec η α} {f : α → Exec η β} (hm : Upholds I J Q m) (hf : ∀ x, Upholds I J Q (f x)) :
    Upholds I J Q (m >>= f) :=
  fun w h => (hm w h).bind fun x w' _ => hf x w'

theorem ite {c : Prop} [Decidable c] {m m' : Exec η α} (h : Upholds I J Q m) (h' : Upholds I J Q m') :
    Upholds I J Q (if c then m else m') := by
  split
  · exact h
  · exact h'

theorem machine {f : Machine → Exec η β} (hf : ∀ m, Upholds I J Q (f m)) : Upholds I J Q (Exec.machine >>= f) :=
  fun w => hf w.machine w

theorem modifyMachine {f : Machine → Machine} (hf : ∀ m, I m → I (f m)) : Upholds I J Q (modifyMachine f : Exec η Unit) :=
  fun w => hf w.machine

end Upholds

section

variable (upheld : Upheld I J Q)
include upheld

theorem upholds_fail {f : Fault} (h : Q f) : Upholds I J Q (fail f : Exec η α) := fun _ holds => ⟨upheld.left _ holds, h⟩

theorem upholds_ofExcept {x : Except Fault α} (hx : FaultsIn Q x) : Upholds I J Q (ofExcept x : Exec η α) := by
  cases x with
  | ok a => exact .pure a
  | error f => exact upholds_fail upheld (hx f rfl)

/-- A computation on values, which does not depend on the code. -/
theorem upholds_mild {x : Except Fault α} (hx : Mild x) : Upholds I J Q (ofExcept x : Exec η α) :=
  upholds_ofExcept upheld fun f fails => upheld.mild f (hx f fails)

theorem upholds_ordinary {x : Except Fault α} (hx : Ordinary x) (capacity : Q .capacity) :
    Upholds I J Q (ofExcept x : Exec η α) := by
  refine upholds_ofExcept upheld fun f fails => ?_
  by_cases large : f = .capacity
  · exact large ▸ capacity
  · exact upheld.mild f (Fault.isMild_iff.mpr ⟨hx f fails, large⟩)

theorem upholds_modify {f : Machine → Machine} (hf : ∀ m : Machine, m.SameCode (f m)) :
    Upholds I J Q (modifyMachine f : Exec η Unit) := .modifyMachine fun m => upheld.same m _ (hf m)

theorem upholds_push (v : Value) : Upholds I J Q (push v : Exec η Unit) := upholds_modify upheld fun _ => ⟨rfl, rfl, rfl⟩

/-- A step that goes on with the value on top, on a machine with the same code. -/
theorem upholdsTo_pop {f : Value → Exec η β} {w : World η} (left : J w.machine)
    (rest : ∀ v w', w.machine.SameCode w'.machine → UpholdsTo I J Q (f v w')) :
    UpholdsTo I J Q ((pop >>= f) w) := by
  show UpholdsTo I J Q (EStateM.bind pop f w)
  unfold EStateM.bind
  cases operands : w.machine.operands with
  | nil =>
    rw [pop_nil operands]
    exact ⟨left, upheld.operands⟩
  | cons v values =>
    rw [pop_cons operands]
    exact rest v _ ⟨rfl, rfl, rfl⟩

theorem upholds_pop {f : Value → Exec η β} (hf : ∀ v, Upholds I J Q (f v)) : Upholds I J Q (pop >>= f) :=
  fun _ holds => upholdsTo_pop upheld (upheld.left _ holds) fun v w' same => hf v w' (upheld.same _ _ same holds)

theorem upholds_popList (n : Nat) : Upholds I J Q (popList n : Exec η (List Value)) := by
  intro w holds
  show UpholdsTo I J Q ((if w.machine.operands.length < n then Exec.fail .operandUnderflow
    else do
      set { w with machine := { w.machine with operands := w.machine.operands.drop n } }
      return (w.machine.operands.take n).reverse : Exec η (List Value)) w)
  split
  · exact ⟨upheld.left _ holds, upheld.operands⟩
  · exact upheld.same w.machine _ ⟨rfl, rfl, rfl⟩ holds

theorem upholds_store (p : UInt64) (v : Value) : Upholds I J Q (store p v : Exec η Unit) :=
  .machine fun _ => .ite (upholds_modify upheld fun m => m.put_sameCode p v)
    (upholds_fail upheld (upheld.mild _ (Machine.isMild_badAddress p)))

theorem upholds_storeAll (a : Address) (vs : List Value) : Upholds I J Q (storeAll a vs : Exec η Unit) := by
  induction vs generalizing a with
  | nil => exact .pure _
  | cons v vs ih => exact .bind (upholds_store upheld _ _) fun _ => ih _

theorem upholds_builtin {b : Builtin} (writes : b = .printf → Q .capacity) (args : List Value) :
    Upholds I J Q (builtin b args : Exec η Unit) := by
  by_cases result : b = .setResult
  · subst result
    exact upholds_modify upheld (f := fun m => { m with results := m.results.push (args.headD .void) })
      fun _ => ⟨rfl, rfl, rfl⟩
  · rw [builtin_library result]
    refine .machine fun m => .bind ?_ fun _ => .bind (upholds_modify upheld fun _ => ⟨rfl, rfl, rfl⟩) fun _ =>
      upholds_push upheld _
    by_cases printf : b = .printf
    · exact upholds_ordinary upheld (m.ordinary_library b args) (writes printf)
    · exact upholds_mild upheld (m.mild_library printf args)

/-! ## Instructions -/

theorem upholds_instr {i : Instr} (straight : i.isStraight) (linked : ∀ index, i = .pushStr index → Q (.unlinkedString index))
    (writes : i.writesText → Q .capacity) (ret : Option Scalar) (base : Nat) : Upholds I J Q (instr ret base i : Exec η Unit) := by
  have pushes (v : Value) : Upholds I J Q (push v : Exec η Unit) := upholds_push upheld v
  have pops {f : Value → Exec η Unit} (hf : ∀ v, Upholds I J Q (f v)) : Upholds I J Q (pop >>= f) := upholds_pop upheld hf
  have reads (p : UInt64) {f : Value → Exec η Unit} (hf : ∀ v, Upholds I J Q (f v)) : Upholds I J Q (load p >>= f) :=
    .bind (.machine fun m => upholds_mild upheld (m.mild_read p)) hf
  cases i with
  | pushInt _ | pushFloat _ | pushPtr _ | localAddr _ => exact pushes _
  | pushStr index => exact upholds_fail upheld (linked index rfl)
  | globalAddr name =>
    intro w holds
    cases found : w.machine.objectAddress? name with
    | some p =>
      rw [globalAddr_known found]
      exact pushes _ w holds
    | none =>
      rw [globalAddr_unknown found]
      exact upholds_fail upheld (upheld.noObject _ name holds found) w holds
  | load kind => exact pops fun p => reads _ fun v => pushes _
  | store kind => exact pops fun v => pops fun p => .bind (upholds_store upheld _ _) fun _ => pushes _
  | copySlots count =>
    exact pops fun source => pops fun target => .machine fun m => .bind (upholds_mild upheld (m.mild_slotsFrom _ _ _))
      fun values => .bind (upholds_storeAll upheld _ _) fun _ => pushes _
  | dup =>
    refine .machine fun m => ?_
    split
    · exact pushes _
    · exact upholds_fail upheld upheld.operands
  | pop => exact pops fun _ => .pure _
  | convert _ _ => exact pops fun v => pushes _
  | binary op kind =>
    exact pops fun b => pops fun a => .bind (upholds_mild upheld (Operation.mild_binary _ _ _ _)) fun v => pushes _
  | unary op kind => exact pops fun a => .bind (upholds_mild upheld (Operation.mild_unary _ _ _)) fun v => pushes _
  | ptrAdd stride | ptrDiff stride => exact pops fun i => pops fun p => pushes _
  | incDec kind amount post =>
    exact pops fun p => reads _ fun old => .bind (upholds_store upheld _ _) fun _ => pushes _
  | builtin b argc =>
    have printf (h : b = .printf) : Q .capacity := writes (by rw [h]; rfl)
    exact .bind (upholds_popList upheld argc) fun args => upholds_builtin upheld printf args
  | printValue shape =>
    exact pops fun v => .machine fun m => .bind (upholds_ordinary upheld (m.ordinary_render shape v) (writes rfl)) fun t =>
      upholds_modify upheld fun _ => ⟨rfl, rfl, rfl⟩
  | jump _ | jumpIfFalse _ | jumpIfTrue _ | call _ _ | «return» | returnVoid => cases straight

/-- The same with the evaluation of templates. -/
theorem upholds_act {evaluate : List Value → Exec η Value} (evaluates : ∀ args, Upholds I J Q (evaluate args)) {i : Instr}
    (straight : i.isStraight) (linked : ∀ index, i = .pushStr index → Q (.unlinkedString index))
    (writes : i.writesText → Q .capacity) (ret : Option Scalar) (base : Nat) : Upholds I J Q (act evaluate ret base i) := by
  unfold act
  split
  · exact .bind (upholds_popList upheld _) fun args => .bind (evaluates args) fun v => upholds_push upheld v
  · exact upholds_instr upheld straight linked writes _ _

/-! ## Calls -/

/-- What is done with a function is done if it is there. -/
theorem upholdsTo_findFunction {name : String} {rest : CodeFunction → Exec η α} {w : World η} (holds : I w.machine)
    (h : ∀ g, w.machine.functions.get? name = some g → UpholdsTo I J Q (rest g w)) :
    UpholdsTo I J Q ((findFunction name >>= rest) w) := by
  cases found : w.machine.functions.get? name with
  | none =>
    rw [run_error (findFunction_unknown found)]
    exact ⟨upheld.left _ holds, upheld.noFunction _ name holds found⟩
  | some g =>
    rw [run_ok (findFunction_known found)]
    exact h g found

theorem upholds_enter {f : CodeFunction} (entered : ∀ m args, I m → I (m.enter f args)) (args : List Value) :
    Upholds I J Q (enter f args : Exec η Unit) := by
  refine .machine fun m => ?_
  cases refusal : m.refusal? f args.length with
  | some fault =>
    refine upholds_fail upheld (upheld.mild fault ?_)
    unfold Machine.refusal? at refusal
    split at refusal
    · cases refusal
      rfl
    · split at refusal
      · cases refusal
        rfl
      · cases refusal
  | none => exact .modifyMachine fun m => entered m args

theorem upholds_guarded {m : Exec η Unit} (hm : Upholds I J Q m) : Upholds I J Q (guarded m) := by
  intro w holds
  have after := hm w holds
  unfold guarded
  dsimp only
  cases run : m w with
  | ok _ w' =>
    rw [run] at after
    exact after
  | error e w' =>
    rw [run] at after
    refine ⟨upheld.unwound w'.machine _ rfl rfl after.1, ?_⟩
    show Q (e.withTrace _).fault
    rw [e.fault_withTrace]
    exact after.2

theorem upholds_takeResult (f : CodeFunction) : Upholds I J Q (takeResult f : Exec η (Option Value)) := by
  intro w holds
  cases ret : f.ret with
  | none =>
    rw [takeResult_void ret]
    exact holds
  | some kind =>
    cases operands : w.machine.operands with
    | nil =>
      rw [takeResult_nil operands]
      exact holds
    | cons v rest =>
      rw [takeResult_cons (by rw [ret]; rfl) operands]
      exact upheld.same w.machine _ ⟨rfl, rfl, rfl⟩ holds

/-- A call, if the entry of a function that is there upholds `I` and so does the running of what is active then. -/
theorem upholds_callWith {run : Nat → Exec η Unit}
    (entered : ∀ m, I m → ∀ name f, m.functions.get? name = some f → ∀ m' args, I m' → I (m'.enter f args))
    (runs : ∀ w : World η, I w.machine → Upholds I J Q (run w.machine.frames.size)) (name : String) (args : List Value) :
    Upholds I J Q (callWith run name args) := by
  intro w holds
  refine upholdsTo_findFunction upheld holds fun f found => ?_
  have calls : Upholds I J Q (do
      guarded (do
        enter f args
        run w.machine.frames.size)
      takeResult f : Exec η (Option Value)) := by
    refine .bind (upholds_guarded upheld (.bind ?_ fun _ => runs w holds)) fun _ => upholds_takeResult upheld f
    exact upholds_enter upheld (entered w.machine holds name f found) args
  refine (show Upholds I J Q (do
      if w.machine.frames.size = 0 then modifyMachine ({ · with instructionCount := 0 })
      guarded (do
        enter f args
        run w.machine.frames.size)
      takeResult f : Exec η (Option Value)) from ?_) w holds
  dsimp only
  split
  · exact .bind (upholds_modify upheld fun _ => ⟨rfl, rfl, rfl⟩) fun _ => calls
  · exact calls

omit upheld in
theorem upholds_callAll {call : String → Exec η (Option Value)} (calls : ∀ name, Upholds I J Q (call name))
    (names : List String) : Upholds I J Q (callAll call names) := by
  induction names with
  | nil => exact .pure _
  | cons name names ih => exact .bind (calls name) fun _ => ih

/-! ## Templates -/

omit upheld in
theorem upholds_link {c : CodeModule} (links : ∀ m names m', Machine.link c m = .ok names m' → I m → I m')
    (fails : ∀ m f m', Machine.link c m = .error f m' → I m → J m' ∧ Q f) : Upholds I J Q (link c : Exec η (List String)) := by
  intro w holds
  unfold link
  cases run : Machine.link c w.machine with
  | ok names m => exact links _ names m run holds
  | error f m => exact fails _ f m run holds

omit upheld in
theorem upholds_always {m : Exec η Unit} (hm : Upholds I J Q m) {last : Machine → Machine} (holds : ∀ m, I m → I (last m))
    (left : ∀ m, J m → J (last m)) : Upholds I J Q (always m last) := by
  intro w before
  have after := hm w before
  unfold always
  cases run : m w with
  | ok _ w' =>
    rw [run] at after
    exact holds _ after
  | error e w' =>
    rw [run] at after
    exact ⟨left _ after.1, after.2⟩

/-- The value of a template, if its code is linked and dropped again as `I` demands. -/
theorem upholds_runTemplate {call : String → Exec η (Option Value)} (calls : ∀ name, Upholds I J Q (call name))
    {c : TemplateCode} (links : ∀ m names m', Machine.link c.module m = .ok names m' → I m → I m')
    (fails : ∀ m f m', Machine.link c.module m = .error f m' → I m → J m' ∧ Q f)
    (drops : ∀ m names m', Machine.link c.module m = .ok names m' → I m →
      (∀ m'', I m'' → I ((names ++ [c.entry]).foldl Machine.removeFunction m'')) ∧
        ∀ m'', J m'' → J ((names ++ [c.entry]).foldl Machine.removeFunction m'')) :
    Upholds I J Q (runTemplate call c) := by
  intro w holds
  refine UpholdsTo.bind (m := link c.module) (upholds_link links fails w holds) fun names w' linked holds' => ?_
  have linked : ∃ m', Machine.link c.module w.machine = .ok names m' := by
    unfold link at linked
    cases run : Machine.link c.module w.machine with
    | ok names' m' =>
      rw [run] at linked
      cases linked
      exact ⟨m', rfl⟩
    | error f m' =>
      rw [run] at linked
      cases linked
  obtain ⟨m', linked⟩ := linked
  obtain ⟨keeps, leaves⟩ := drops w.machine names m' linked holds
  refine Upholds.bind (upholds_always (upholds_callAll calls _) keeps leaves) (fun _ => .machine fun m => ?_) w' holds'
  split
  · exact .bind (upholds_modify upheld fun _ => ⟨rfl, rfl, rfl⟩) fun _ => .pure _
  · exact .pure _

theorem upholds_evaluate {host : Option (Host η)} {call : String → Exec η (Option Value)}
    (faults : ∀ h, host = some h → ∀ x handle template addresses, FaultsIn Q (h.compile x handle template addresses).1)
    (templates : ∀ h, host = some h → ∀ x handle template addresses c,
      (h.compile x handle template addresses).1 = .ok c → Upholds I J Q (runTemplate call c)) (args : List Value) :
    Upholds I J Q (evaluate host call args) := by
  cases host with
  | none => exact upholds_fail upheld (upheld.mild _ rfl)
  | some host =>
    refine .machine fun m => .bind (upholds_mild upheld (m.mild_text _)) fun template w holds => ?_
    have faults := faults host rfl w.host ((args.head?.map Value.bits).getD 0) template ((args.drop 2).map Value.bits)
    have code := templates host rfl w.host ((args.head?.map Value.bits).getD 0) template ((args.drop 2).map Value.bits)
    rw [run_get]
    generalize host.compile w.host ((args.head?.map Value.bits).getD 0) template
        ((args.drop 2).map Value.bits) = compiled at faults code
    obtain ⟨result, state⟩ := compiled
    have rest : Upholds I J Q (do runTemplate call (← ofExcept result) : Exec η Value) := by
      cases result with
      | error f => exact upholds_fail upheld (faults f rfl)
      | ok c => exact code c rfl
    exact rest { w with host := state } holds

end

/-! ## Properties that active functions do not matter for either -/

theorem leave_tables (m : Machine) : m.leave.functions = m.functions ∧ m.leave.objects = m.objects := by
  unfold Machine.leave
  split <;> exact ⟨rfl, rfl⟩

/-- Any instruction, if the property does not speak of the active functions. -/
theorem upholds_anyAct (upheld : Upheld I I Q) {evaluate : List Value → Exec η Value}
    (evaluates : ∀ args, Upholds I I Q (evaluate args)) {i : Instr}
    (linked : ∀ index, i = .pushStr index → Q (.unlinkedString index)) (writes : i.writesText → Q .capacity)
    (ret : Option Scalar) (base : Nat) : Upholds I I Q (act evaluate ret base i) := by
  have goes (target : Nat) : Upholds I I Q (modifyMachine (·.goto target) : Exec η Unit) :=
    .modifyMachine fun m => upheld.unwound m _ rfl rfl
  have leaves : Upholds I I Q (modifyMachine Machine.leave : Exec η Unit) :=
    .modifyMachine fun m => upheld.unwound m _ (leave_tables m).1 (leave_tables m).2
  by_cases straight : i.isStraight
  · exact upholds_act upheld evaluates straight linked writes ret base
  cases i with
  | jump target => exact goes target
  | jumpIfFalse target | jumpIfTrue target => exact upholds_pop upheld fun v => .ite (goes target) (.pure _)
  | call name argc =>
    refine fun w holds => upholdsTo_findFunction upheld holds fun f _ => ?_
    exact Upholds.bind (upholds_popList upheld argc) (upholds_enter upheld fun m args => upheld.unwound m _ rfl rfl) w holds
  | «return» => exact upholds_pop upheld fun v => .bind leaves fun _ => upholds_push upheld _
  | returnVoid => exact leaves
  | _ => exact absurd rfl straight

/-- A step, if its instruction is of this kind. -/
theorem upholds_step (upheld : Upheld I I Q) {evaluate : List Value → Exec η Value} {f : Frame}
    (ended : Q (.ranPastEnd f.function.name))
    (acts : ∀ i, f.function.code[f.ip]? = some i → Upholds I I Q (act evaluate f.function.ret f.base i))
    (limit : ∀ limit, Q (.instructionLimit limit)) : Upholds I I Q (step evaluate f) := by
  unfold step
  split
  · exact upholds_fail upheld ended
  · refine .bind (.modifyMachine fun m => upheld.unwound m _ rfl rfl) fun _ => .machine fun m => ?_
    cases exhausted : m.exhausted? with
    | none => exact acts _ ‹_›
    | some fault =>
      refine .bind (upholds_fail upheld ?_) fun _ => acts _ ‹_›
      unfold Machine.exhausted? at exhausted
      split at exhausted <;> cases exhausted
      exact limit _

end Exec

end IncrementalC
