import IncrementalC.Proofs.Machine.Frames

/-!
# What computations preserve

`Preserves P x`: the state in which the computation `x` ends, with a result or with an error, is one
of `P` if the state before it was. What linking and the host of a machine keep is kept by every run of a program
(`Exec.preserves_call`).
-/
namespace IncrementalC
set_option autoImplicit false

variable {ε σ α β : Type}

/-- The state at the end of a computation. -/
def finalState : EStateM.Result ε σ α → σ
  | .ok _ s => s
  | .error _ s => s

def Preserves (P : σ → Prop) (x : EStateM ε σ α) : Prop := ∀ s, P s → P (finalState (x s))

namespace Preserves

variable {P : σ → Prop}

theorem pure (a : α) : Preserves P (Pure.pure a : EStateM ε σ α) := fun _ h => h

theorem throw (e : ε) : Preserves P (throw e : EStateM ε σ α) := fun _ h => h

theorem bind {x : EStateM ε σ α} {f : α → EStateM ε σ β} (hx : Preserves P x) (hf : ∀ a, Preserves P (f a)) :
    Preserves P (x >>= f) := by
  intro s h
  have first := hx s h
  show P (finalState (EStateM.bind x f s))
  unfold EStateM.bind
  cases run : x s with
  | error e s' =>
    rw [run] at first
    exact first
  | ok a s' =>
    rw [run] at first
    exact hf a s' first

theorem get {f : σ → EStateM ε σ β} (hf : ∀ s, Preserves P (f s)) : Preserves P (MonadState.get >>= f) :=
  fun s => hf s s

theorem modify {f : σ → σ} (hf : ∀ s, P s → P (f s)) : Preserves P (modify f : EStateM ε σ PUnit) :=
  fun s h => hf s h

theorem modifyGet {f : σ → α × σ} (hf : ∀ s, P s → P (f s).2) : Preserves P (modifyGet f : EStateM ε σ α) :=
  fun s h => hf s h

theorem ite {c : Prop} [Decidable c] {x y : EStateM ε σ α} (hx : Preserves P x) (hy : Preserves P y) :
    Preserves P (if c then x else y) := by
  split
  · exact hx
  · exact hy

theorem forIn {xs : List α} {f : α → EStateM ε σ (ForInStep PUnit)} (hf : ∀ a ∈ xs, Preserves P (f a)) :
    Preserves P (ForIn.forIn xs PUnit.unit fun a _ => f a) := by
  induction xs with
  | nil => exact pure _
  | cons a xs ih =>
    rw [List.forIn_cons]
    refine bind (hf a List.mem_cons_self) fun r => ?_
    cases r with
    | done _ => exact pure _
    | yield _ => exact ih fun b hb => hf b (List.mem_cons_of_mem _ hb)

end Preserves

/-! ## Errors -/

/-- The errors of a computation are of a certain kind. -/
def Raises (Q : ε → Prop) (x : EStateM ε σ α) : Prop := ∀ s e s', x s = .error e s' → Q e

namespace Raises

variable {Q : ε → Prop}

theorem bind_eq_error {x : EStateM ε σ α} {f : α → EStateM ε σ β} {s s' : σ} {e : ε}
    (h : (x >>= f) s = .error e s') : x s = .error e s' ∨ ∃ a s₁, x s = .ok a s₁ ∧ f a s₁ = .error e s' := by
  have h : EStateM.bind x f s = .error e s' := h
  unfold EStateM.bind at h
  cases run : x s with
  | ok a s₁ =>
    rw [run] at h
    exact .inr ⟨a, s₁, rfl, h⟩
  | error e' s₁ =>
    rw [run] at h
    cases h
    exact .inl rfl

theorem pure (a : α) : Raises Q (Pure.pure a : EStateM ε σ α) := by
  intro s e s' h
  cases h

theorem bind {x : EStateM ε σ α} {f : α → EStateM ε σ β} (hx : Raises Q x) (hf : ∀ a, Raises Q (f a)) :
    Raises Q (x >>= f) := by
  intro s e s' h
  obtain first | ⟨a, s₁, -, second⟩ := bind_eq_error h
  · exact hx s e s' first
  · exact hf a s₁ e s' second

theorem throw {e : ε} (h : Q e) : Raises Q (throw e : EStateM ε σ α) := by
  intro s e s' run
  cases run
  exact h

theorem get : Raises Q (MonadState.get : EStateM ε σ σ) := by
  intro s e s' h
  cases h

theorem modifyGet (f : σ → α × σ) : Raises Q (modifyGet f : EStateM ε σ α) := by
  intro s e s' h
  cases h

theorem modify (f : σ → σ) : Raises Q (modify f : EStateM ε σ PUnit) := modifyGet _

theorem forIn {xs : List α} {f : α → EStateM ε σ (ForInStep PUnit)} (hf : ∀ a, Raises Q (f a)) :
    Raises Q (ForIn.forIn xs PUnit.unit fun a _ => f a) := by
  induction xs with
  | nil => exact pure _
  | cons a xs ih =>
    rw [List.forIn_cons]
    refine bind (hf a) fun r => ?_
    cases r with
    | done _ => exact pure _
    | yield _ => exact ih

end Raises

/-! ## The memory map -/

/-- The same objects and string literals have the same places, in a region of the same size. -/
structure Machine.SameMap (m m' : Machine) : Prop where
  size : m'.globals.size = m.globals.size
  objects : m'.objects = m.objects
  strings : m'.strings = m.strings

theorem Machine.put_sameMap (m : Machine) (p : UInt64) (v : Value) : SameMap m (m.put p v) := by
  unfold put
  dsimp only
  split
  · exact ⟨Array.size_setIfInBounds, rfl, rfl⟩
  · exact ⟨rfl, rfl, rfl⟩
  · exact ⟨rfl, rfl, rfl⟩

theorem Machine.leave_sameMap (m : Machine) : SameMap m m.leave := by
  unfold leave
  split <;> exact ⟨rfl, rfl, rfl⟩

theorem Machine.SameMap.trans {m m' m'' : Machine} (h : SameMap m m') (h' : SameMap m' m'') : SameMap m m'' :=
  ⟨h'.size.trans h.size, h'.objects.trans h.objects, h'.strings.trans h.strings⟩

/-- Nothing changed but values: those in memory, the operands, the results and what was written. -/
structure Machine.Quiet (m m' : Machine) : Prop where
  map : SameMap m m'
  functions : m'.functions = m.functions
  frames : m'.frames = m.frames
  stack : m'.stack.size = m.stack.size
  depth : m'.maxDepth = m.maxDepth
  count : m'.instructionCount = m.instructionCount

theorem Machine.put_quiet (m : Machine) (p : UInt64) (v : Value) : Quiet m (m.put p v) := by
  unfold put
  dsimp only
  split
  · exact ⟨⟨Array.size_setIfInBounds, rfl, rfl⟩, rfl, rfl, rfl, rfl, rfl⟩
  · exact ⟨⟨rfl, rfl, rfl⟩, rfl, rfl, Array.size_setIfInBounds, rfl, rfl⟩
  · exact ⟨⟨rfl, rfl, rfl⟩, rfl, rfl, rfl, rfl, rfl⟩

theorem Machine.removeFunctions_sameMap (names : List String) (m : Machine) :
    SameMap m (names.foldl removeFunction m) := by
  induction names generalizing m with
  | nil => exact ⟨rfl, rfl, rfl⟩
  | cons name names ih => exact (show SameMap m (m.removeFunction name) from ⟨rfl, rfl, rfl⟩).trans (ih _)

namespace Exec

variable {η : Type} {P : World η → Prop} {host : Option (Host η)}

/-! ## Values -/

/-- A property that values do not matter for. -/
def Indifferent (P : World η → Prop) : Prop := ∀ w m, w.machine.Quiet m → P w → P { w with machine := m }

theorem preserves_machine {f : Machine → Exec η α} (hf : ∀ m, Preserves P (f m)) :
    Preserves P (machine >>= f) := fun w => hf w.machine w

theorem preserves_ofExcept (x : Except Fault α) : Preserves P (ofExcept x : Exec η α) := by
  cases x with
  | ok a => exact .pure a
  | error f => exact .throw _

theorem preserves_findFunction (name : String) : Preserves P (findFunction name : Exec η CodeFunction) := by
  refine preserves_machine fun m => ?_
  split
  · exact .pure _
  · exact .throw _

section

variable (indifferent : Indifferent P)
include indifferent

theorem preserves_quiet {f : Machine → Machine} (hf : ∀ m : Machine, m.Quiet (f m)) :
    Preserves P (modifyMachine f : Exec η Unit) := fun w h => indifferent w _ (hf w.machine) h

theorem preserves_push (v : Value) : Preserves P (push v : Exec η Unit) :=
  preserves_quiet indifferent fun _ => ⟨⟨rfl, rfl, rfl⟩, rfl, rfl, rfl, rfl, rfl⟩

theorem preserves_pop : Preserves P (pop : Exec η Value) := by
  intro w h
  cases operands : w.machine.operands with
  | nil =>
    rw [pop_nil operands]
    exact h
  | cons v rest =>
    rw [pop_cons operands]
    exact indifferent w _ ⟨⟨rfl, rfl, rfl⟩, rfl, rfl, rfl, rfl, rfl⟩ h

theorem preserves_popList (n : Nat) : Preserves P (popList n : Exec η (List Value)) := by
  intro w h
  show P (finalState ((if w.machine.operands.length < n then Exec.fail .operandUnderflow
    else do
      set { w with machine := { w.machine with operands := w.machine.operands.drop n } }
      return (w.machine.operands.take n).reverse : Exec η (List Value)) w))
  split
  · exact h
  · exact indifferent w _ ⟨⟨rfl, rfl, rfl⟩, rfl, rfl, rfl, rfl, rfl⟩ h

theorem preserves_store (p : UInt64) (v : Value) : Preserves P (store p v : Exec η Unit) :=
  preserves_machine fun _ => .ite (preserves_quiet indifferent fun m => m.put_quiet p v) (.throw _)

theorem preserves_storeAll (a : Address) (vs : List Value) : Preserves P (storeAll a vs : Exec η Unit) := by
  induction vs generalizing a with
  | nil => exact .pure _
  | cons v vs ih => exact .bind (preserves_store indifferent _ _) fun _ => ih _

theorem preserves_builtin (b : Builtin) (args : List Value) : Preserves P (builtin b args : Exec η Unit) := by
  by_cases result : b = .setResult
  · subst result
    exact preserves_quiet indifferent (f := fun m => { m with results := m.results.push (args.headD .void) })
      fun _ => ⟨⟨rfl, rfl, rfl⟩, rfl, rfl, rfl, rfl, rfl⟩
  · rw [builtin_library result]
    exact preserves_machine fun _ => .bind (preserves_ofExcept _) fun _ =>
      .bind (preserves_quiet indifferent fun _ => ⟨⟨rfl, rfl, rfl⟩, rfl, rfl, rfl, rfl, rfl⟩) fun _ => preserves_push indifferent _

theorem preserves_straight {i : Instr} (straight : i.isStraight) (ret : Option Scalar) (base : Nat) :
    Preserves P (instr ret base i : Exec η Unit) := by
  have pushes (v : Value) : Preserves P (push v : Exec η Unit) := preserves_push indifferent v
  have pops {β : Type} {f : Value → Exec η β} (hf : ∀ v, Preserves P (f v)) : Preserves P (pop >>= f) :=
    .bind (preserves_pop indifferent) hf
  have reads {β : Type} (p : UInt64) {f : Value → Exec η β} (hf : ∀ v, Preserves P (f v)) :
      Preserves P (load p >>= f) :=
    .bind (preserves_machine fun _ => preserves_ofExcept _) hf
  cases i with
  | pushInt _ | pushFloat _ | pushPtr _ | localAddr _ => exact pushes _
  | pushStr _ => exact .throw _
  | globalAddr name =>
    refine preserves_machine fun m => ?_
    split
    · exact pushes _
    · exact .throw _
  | load kind => exact pops fun p => reads _ fun v => pushes _
  | store kind => exact pops fun v => pops fun p => .bind (preserves_store indifferent _ _) fun _ => pushes _
  | copySlots count =>
    exact pops fun _ => pops fun _ => preserves_machine fun _ => .bind (preserves_ofExcept _) fun _ =>
      .bind (preserves_storeAll indifferent _ _) fun _ => pushes _
  | dup =>
    refine preserves_machine fun m => ?_
    split
    · exact pushes _
    · exact .throw _
  | pop => exact pops fun _ => .pure _
  | convert _ _ => exact pops fun v => pushes _
  | binary op kind => exact pops fun b => pops fun a => .bind (preserves_ofExcept _) fun v => pushes _
  | unary op kind => exact pops fun a => .bind (preserves_ofExcept _) fun v => pushes _
  | ptrAdd stride | ptrDiff stride => exact pops fun i => pops fun p => pushes _
  | incDec kind amount post =>
    exact pops fun p => reads _ fun old => .bind (preserves_store indifferent _ _) fun _ => pushes _
  | builtin b argc => exact .bind (preserves_popList indifferent argc) fun args => preserves_builtin indifferent b args
  | printValue shape =>
    exact pops fun v => preserves_machine fun m => .bind (preserves_ofExcept _) fun t =>
      preserves_quiet indifferent fun _ => ⟨⟨rfl, rfl, rfl⟩, rfl, rfl, rfl, rfl, rfl⟩
  | jump _ | jumpIfFalse _ | jumpIfTrue _ | call _ _ | «return» | returnVoid => cases straight

/-- The same with the evaluation of templates. -/
theorem preserves_act {evaluate : List Value → Exec η Value} (evaluates : ∀ args, Preserves P (evaluate args))
    {i : Instr} (straight : i.isStraight) (ret : Option Scalar) (base : Nat) :
    Preserves P (act evaluate ret base i) := by
  unfold act
  split
  · exact .bind (preserves_popList indifferent _) fun args => .bind (evaluates args) fun _ => preserves_push indifferent _
  · exact preserves_straight indifferent straight _ _

theorem preserves_takeResult (f : CodeFunction) : Preserves P (takeResult f : Exec η (Option Value)) := by
  intro w h
  cases ret : f.ret with
  | none =>
    rw [takeResult_void ret]
    exact h
  | some kind =>
    cases operands : w.machine.operands with
    | nil =>
      rw [takeResult_nil operands]
      exact h
    | cons v rest =>
      rw [takeResult_cons (by rw [ret]; rfl) operands]
      exact indifferent w _ ⟨⟨rfl, rfl, rfl⟩, rfl, rfl, rfl, rfl, rfl⟩ h

end

/-! ## Steps of the machine -/

/-- A property that depends on the memory map, the functions and the state of the host only. -/
def Lasting (P : World η → Prop) : Prop :=
  ∀ w m, w.machine.SameMap m → m.functions = w.machine.functions → P w → P { w with machine := m }

theorem Lasting.indifferent (lasting : Lasting P) : Indifferent P :=
  fun w m quiet h => lasting w m quiet.map quiet.functions h

theorem leave_functions (m : Machine) : m.leave.functions = m.functions := by
  unfold Machine.leave
  split <;> rfl

section

variable (lasting : Lasting P)
include lasting

theorem preserves_modify {f : Machine → Machine} (map : ∀ m : Machine, m.SameMap (f m))
    (functions : ∀ m : Machine, (f m).functions = m.functions) : Preserves P (modifyMachine f : Exec η Unit) :=
  fun w h => lasting w _ (map w.machine) (functions w.machine) h

theorem preserves_enter (f : CodeFunction) (args : List Value) : Preserves P (enter f args : Exec η Unit) := by
  refine preserves_machine fun m => ?_
  split
  · exact .throw _
  · exact preserves_modify lasting (fun _ => ⟨rfl, rfl, rfl⟩) fun _ => rfl

/-- One instruction of a frame, whatever the evaluation of templates does. -/
theorem preserves_step {evaluate : List Value → Exec η Value} (evaluates : ∀ args, Preserves P (evaluate args))
    (f : Frame) : Preserves P (step evaluate f) := by
  have pops {g : Value → Exec η Unit} (hg : ∀ v, Preserves P (g v)) : Preserves P (pop >>= g) :=
    .bind (preserves_pop lasting.indifferent) hg
  have goes (target : Nat) : Preserves P (modifyMachine (·.goto target) : Exec η Unit) :=
    preserves_modify lasting (fun _ => ⟨rfl, rfl, rfl⟩) fun _ => rfl
  have leaves : Preserves P (modifyMachine Machine.leave : Exec η Unit) :=
    preserves_modify lasting Machine.leave_sameMap leave_functions
  have acts (i : Instr) : Preserves P (act evaluate f.function.ret f.base i) := by
    by_cases straight : i.isStraight
    · exact preserves_act lasting.indifferent evaluates straight _ _
    cases i with
    | jump target => exact goes target
    | jumpIfFalse target | jumpIfTrue target => exact pops fun v => .ite (goes target) (.pure _)
    | call name argc =>
      exact .bind (preserves_findFunction name) fun g => .bind (preserves_popList lasting.indifferent argc) fun args =>
        preserves_enter lasting g args
    | «return» => exact pops fun v => .bind leaves fun _ => preserves_push lasting.indifferent _
    | returnVoid => exact leaves
    | _ => exact absurd rfl straight
  unfold step
  split
  · exact .throw _
  · refine .bind (preserves_modify lasting (fun _ => ⟨rfl, rfl, rfl⟩) fun _ => rfl) fun _ => preserves_machine fun m => ?_
    split
    · exact .bind (.throw _) fun _ => acts _
    · exact acts _

/-! ## Calls -/

theorem preserves_guarded {m : Exec η Unit} (hm : Preserves P m) : Preserves P (guarded m) := by
  intro w h
  have after := hm w h
  unfold guarded
  cases run : m w with
  | ok u w' =>
    rw [run] at after
    exact after
  | error e w' =>
    rw [run] at after
    exact lasting w' _ ⟨rfl, rfl, rfl⟩ rfl after

theorem preserves_callWith {run : Nat → Exec η Unit} (runs : ∀ depth, Preserves P (run depth)) (name : String)
    (args : List Value) : Preserves P (callWith run name args) := by
  refine .bind (preserves_findFunction name) fun f => preserves_machine fun m => ?_
  have guards : Preserves P (guarded (do
      enter f args
      run m.frames.size) : Exec η Unit) :=
    preserves_guarded lasting (.bind (preserves_enter lasting f args) fun _ => runs _)
  have calls : Preserves P (do
      guarded (do
        enter f args
        run m.frames.size)
      takeResult f : Exec η (Option Value)) := .bind guards fun _ => preserves_takeResult lasting.indifferent f
  dsimp only
  split
  · exact .bind (preserves_modify lasting (fun _ => ⟨rfl, rfl, rfl⟩) fun _ => rfl) fun _ => calls
  · exact calls

end

theorem preserves_callAll {call : String → Exec η (Option Value)} (calls : ∀ name, Preserves P (call name))
    (names : List String) : Preserves P (callAll call names) := by
  induction names with
  | nil => exact .pure _
  | cons name names ih => exact .bind (calls name) fun _ => ih

/-- What a host compiles is run by calls: properties that these keep, and that the evaluation of templates keeps with them,
hold after a run if they held before. -/
theorem preserves_loop {ι : Type} {P : ι → World η → Prop} (lasting : ∀ i, Lasting (P i))
    (evaluates : ∀ call, (∀ i name, Preserves (P i) (call name)) → ∀ i args, Preserves (P i) (evaluate host call args))
    (i : ι) (fuel depth : Nat) : Preserves (P i) (run host fuel depth) := by
  induction fuel generalizing i depth with
  | zero => exact preserves_machine fun _ => .throw _
  | succ fuel ih =>
    unfold run
    refine preserves_machine fun m => ?_
    split
    · refine .bind (preserves_step (lasting i) (evaluates _ (fun i name => ?_) i) _) fun _ => ih i depth
      exact preserves_callWith (lasting i) (ih i) name []
    · exact .pure _

/-! ## Templates -/

/-- The value of a template whose text is at hand. -/
def evaluateText (host : Host η) (call : String → Exec η (Option Value)) (handle : UInt64) (template : String)
    (addresses : List UInt64) : Exec η Value := do
  let w ← get
  let compiled := host.compile w.host handle template addresses
  set { w with host := compiled.2 }
  runTemplate call (← ofExcept compiled.1)

/-- The machine finds the text in memory. -/
theorem evaluate_some (host : Host η) (call : String → Exec η (Option Value)) (args : List Value) :
    evaluate (some host) call args = (do
      let template ← ofExcept ((← machine).text ((args[1]?).getD (.ptr 0)))
      evaluateText host call ((args.head?.map Value.bits).getD 0) template ((args.drop 2).map Value.bits)) :=
  rfl

theorem preserves_evaluate {call : String → Exec η (Option Value)} (texts : ∀ h, host = some h → ∀ handle template addresses,
    Preserves P (evaluateText h call handle template addresses)) (args : List Value) :
    Preserves P (evaluate host call args) := by
  cases host with
  | none => exact .throw _
  | some host =>
    rw [evaluate_some]
    exact preserves_machine fun m => .bind (preserves_ofExcept _) fun template => texts host rfl _ _ _

/-! ## The memory map -/

/-- A property that depends on the memory map and the state of the host only, and that linking and the host
keep. -/
structure Kept (host : Option (Host η)) (P : World η → Prop) : Prop where
  same : ∀ w m, w.machine.SameMap m → P w → P { w with machine := m }
  link : ∀ w c, P w → P { w with machine := finalState (Machine.link c w.machine) }
  compile : ∀ h, host = some h → ∀ w handle template addresses, P w →
    P { w with host := (h.compile w.host handle template addresses).2 }

theorem Kept.lasting (kept : Kept host P) : Lasting P := fun w m map _ h => kept.same w m map h

section

variable (kept : Kept host P)
include kept

theorem preserves_link (c : CodeModule) : Preserves P (link c : Exec η (List String)) := by
  intro w h
  have linked := kept.link w c h
  unfold link
  cases run : Machine.link c w.machine with
  | ok names m =>
    rw [run] at linked
    exact linked
  | error f m =>
    rw [run] at linked
    exact linked

theorem preserves_always {m : Exec η Unit} (hm : Preserves P m) {last : Machine → Machine}
    (hlast : ∀ m : Machine, m.SameMap (last m)) : Preserves P (always m last) := by
  intro w h
  have after := hm w h
  unfold always
  cases run : m w with
  | ok u w' =>
    rw [run] at after
    exact kept.same w' _ (hlast _) after
  | error e w' =>
    rw [run] at after
    exact kept.same w' _ (hlast _) after

theorem preserves_evaluateText {h : Host η} (given : host = some h) {call : String → Exec η (Option Value)}
    (calls : ∀ name, Preserves P (call name)) (handle : UInt64) (template : String) (addresses : List UInt64) :
    Preserves P (evaluateText h call handle template addresses) := by
  have templates (c : TemplateCode) : Preserves P (runTemplate call c) := by
    refine preserves_machine fun m => .bind (preserves_link kept _) fun names => ?_
    refine .bind (preserves_always kept (preserves_callAll calls _) (Machine.removeFunctions_sameMap _)) fun _ => ?_
    refine preserves_machine fun m' => ?_
    split
    · exact .bind (preserves_modify kept.lasting (fun _ => ⟨rfl, rfl, rfl⟩) fun _ => rfl) fun _ => .pure _
    · exact .pure _
  intro w before
  exact (Preserves.bind (preserves_ofExcept _) templates) _ (kept.compile h given w handle template addresses before)

/-- What linking and the host keep holds after a run if it held before. -/
theorem preserves_run (fuel depth : Nat) : Preserves P (run host fuel depth) :=
  preserves_loop (P := fun _ : Unit => P) (fun _ => kept.lasting)
    (fun _ calls _ => preserves_evaluate fun _ given => preserves_evaluateText kept given (calls ())) () fuel depth

theorem preserves_call (name : String) (args : List Value) : Preserves P (call host name args) :=
  preserves_machine fun _ => preserves_callWith kept.lasting (preserves_run kept _) name args

end

end Exec

end IncrementalC
