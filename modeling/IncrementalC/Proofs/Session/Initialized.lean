import IncrementalC.Proofs.Machine.Budget
import IncrementalC.Proofs.Machine.Present
import IncrementalC.Session.Execution

/-!
# Initializers run once and in order

`CallsInOrder w calls w' failure`: functions are called one after the other, each is dropped behind its call, and the first
error ends the row. What `Execution.start` does behind the linking of a fragment is of this kind, for the first of its
initializers (`Execution.callEachOnce_inOrder`). A call changes no entry of the function table, so behind the calls exactly
the called functions are gone (`CallsInOrder.functions`), and the initializers behind one that fails stay in the table
(`Execution.start_initializes`).

An initializer is entered by its own call only, if no code calls it: what becomes active above it are other functions
(`CallsInOrder.encloses`).
-/
namespace IncrementalC
set_option autoImplicit false

variable {η α : Type}

/-- The function contains a call of the name. -/
def CodeFunction.Calls (f : CodeFunction) (name : String) : Prop := ∃ argc, .call name argc ∈ f.code

/-- The call of a function without arguments, and what it came to. -/
structure MadeCall (η : Type) where
  name : String
  before : World η
  result : EStateM.Result MachineError (World η) (Option Value)

def World.without (w : World η) (name : String) : World η := { w with machine := w.machine.removeFunction name }

/-- The calls are made one after the other, and each function is dropped behind its call. The first error ends the
row. -/
inductive CallsInOrder : World η → List (MadeCall η) → World η → Option MachineError → Prop
  | done (w : World η) : CallsInOrder w [] w none
  | returned {name : String} {w w' w'' : World η} {v : Option Value} {cs : List (MadeCall η)}
      {failure : Option MachineError} (made : Exec.call none name [] w = .ok v w')
      (rest : CallsInOrder (w'.without name) cs w'' failure) :
      CallsInOrder w (⟨name, w, .ok v w'⟩ :: cs) w'' failure
  | failed {name : String} {w w' : World η} {e : MachineError} (made : Exec.call none name [] w = .error e w') :
      CallsInOrder w [⟨name, w, .error e w'⟩] (w'.without name) (some e)

/-! ## The driver -/

namespace Execution

/-- Behind an error nothing is called, and nothing is dropped. -/
theorem callEachOnce_inOrder (names : List String) (e : Execution η) :
    ∃ cs left w failure, names = cs.map (·.name) ++ left ∧ (failure = none → left = []) ∧
      CallsInOrder e.world cs w failure ∧
      callEachOnce none names e =
        match failure with
        | none => .ok () { e with world := w }
        | some m => .error (.machine m) { e with world := w } := by
  induction names generalizing e with
  | nil => exact ⟨[], [], e.world, none, rfl, fun _ => rfl, .done _, rfl⟩
  | cons name names ih =>
    cases made : Exec.call none name [] e.world with
    | error m w =>
      have once : callOnce none name e = .error (.machine m) { e with world := w.without name } := by
        unfold callOnce ofExec Exec.always
        rw [Exec.run_error made]
        rfl
      refine ⟨_, names, _, some m, rfl, nofun, .failed made, ?_⟩
      show EStateM.bind (callOnce none name) _ e = _
      unfold EStateM.bind
      rw [once]
    | ok v w =>
      have once : callOnce none name e = .ok () { e with world := w.without name } := by
        unfold callOnce ofExec Exec.always
        rw [Exec.run_ok made]
        rfl
      obtain ⟨cs, left, w', failure, split, all, rest, outcome⟩ := ih { e with world := w.without name }
      refine ⟨⟨name, e.world, .ok v w⟩ :: cs, left, w', failure, congrArg (name :: ·) split, all, .returned made rest, ?_⟩
      show EStateM.bind (callOnce none name) _ e = _
      unfold EStateM.bind
      rw [once]
      exact outcome

end Execution

/-! ## The function table -/

namespace Exec

theorem call_functions (name : String) (args : List Value) (w : World η) :
    (finalState (call none name args w)).machine.functions = w.machine.functions := by
  let P (w' : World η) : Prop := w'.machine.functions = w.machine.functions
  have lasting : Lasting P := fun w' m _ same h => same.trans h
  have runs (fuel depth : Nat) : Preserves P (run none fuel depth) :=
    preserves_loop (P := fun _ : Unit => P) (fun _ => lasting) (fun _ _ _ _ => .throw _) () fuel depth
  exact preserves_machine (fun _ => preserves_callWith lasting (runs _) name args) w rfl

/-- The function that was called is dropped, and no other one. -/
theorem get?_without {called : String} {args : List Value} {w w' : World η} (made : finalState (call none called args w) = w')
    (name : String) :
    (w'.without called).machine.functions.get? name = if name = called then none else w.machine.functions.get? name := by
  rw [← call_functions called args w, made]
  exact NameMap.get?_erase _ _ _

end Exec

namespace CallsInOrder

variable {w w' : World η} {cs : List (MadeCall η)} {failure : Option MachineError}

/-- The table misses the functions that were called before, and has all others. -/
theorem functions (h : CallsInOrder w cs w' failure) (name : String) :
    w'.machine.functions.get? name = if name ∈ cs.map (·.name) then none else w.machine.functions.get? name := by
  induction h with
  | done w => rfl
  | @returned called w w₁ w₂ v cs failure made rest ih =>
    have after : finalState (Exec.call none called [] w) = w₁ := congrArg finalState made
    rw [ih, Exec.get?_without after, List.map_cons]
    by_cases here : name = called <;> simp [here]
  | @failed called w w₁ e made =>
    have after : finalState (Exec.call none called [] w) = w₁ := congrArg finalState made
    rw [Exec.get?_without after]
    simp

end CallsInOrder

/-! ## Functions that become active -/

/-- The functions are those of `t`. The outermost active one is `f`, and those above it are found under other names than
`names`. -/
structure Machine.Encloses (t : NameMap CodeFunction) (names : List String) (f : CodeFunction) (m : Machine) : Prop where
  functions : m.functions = t
  frames : ∀ k g, m.frames[k]? = some g →
    k = 0 ∧ g.function = f ∨ 0 < k ∧ ∃ name, name ∉ names ∧ t.get? name = some g.function

namespace Exec

variable {t : NameMap CodeFunction} {names : List String} {f : CodeFunction} {w w' : World η}

theorem indifferent_encloses : Indifferent fun w : World η => w.machine.Encloses t names f :=
  fun _ _ quiet h => ⟨quiet.functions.trans h.functions, by rw [quiet.frames]; exact h.frames⟩

theorem goto_encloses {m : Machine} (h : m.Encloses t names f) (ip : Nat) : (m.goto ip).Encloses t names f := by
  refine ⟨h.functions, fun k g found => ?_⟩
  have found : (m.frames.modify (m.frames.size - 1) fun f => { f with ip })[k]? = some g := found
  rw [Array.getElem?_modify] at found
  split at found
  · obtain ⟨g', before, rfl⟩ := Option.map_eq_some_iff.mp found
    exact h.frames k g' before
  · exact h.frames k g found

theorem leave_encloses {m : Machine} (h : m.Encloses t names f) : m.leave.Encloses t names f := by
  unfold Machine.leave
  split
  · refine ⟨h.functions, fun k g found => h.frames k g ?_⟩
    have found : m.frames.pop[k]? = some g := found
    rw [Array.getElem?_pop] at found
    split at found
    · exact found
    · cases found
  · exact h

theorem enter_encloses {m : Machine} (h : m.Encloses t names f) (active : 0 < m.frames.size) {name : String}
    (other : name ∉ names) {g : CodeFunction} (found : t.get? name = some g) (args : List Value) :
    (m.enter g args).Encloses t names f := by
  refine ⟨h.functions, fun k g' present => ?_⟩
  have present : (m.frames.push { function := g, ip := 0, base := m.stack.size, operandBase := m.operands.length })[k]? =
      some g' := present
  rw [Array.getElem?_push] at present
  split at present
  · cases present
    exact .inr ⟨‹k = m.frames.size› ▸ active, name, other, found⟩
  · exact h.frames k g' present

/-- A call under another name, when some function is active. -/
theorem encloses_call (h : w.machine.Encloses t names f) (active : 0 < w.machine.frames.size) {name : String}
    (other : name ∉ names) (argc : Nat) :
    (finalState ((findFunction name >>= fun g => popList argc >>= fun args => enter g args) w)).machine.Encloses t names f := by
  cases found : w.machine.functions.get? name with
  | none =>
    rw [run_error (findFunction_unknown found)]
    exact h
  | some g =>
    rw [run_ok (findFunction_known found)]
    have taken := preserves_popList indifferent_encloses argc w h
    cases run : popList argc w with
    | error e w' =>
      rw [run] at taken
      rw [run_error run]
      exact taken
    | ok args w' =>
      rw [run] at taken
      rw [run_ok run]
      have frames := (Steady.popList argc w args w' active run).frames
      cases refusal : w'.machine.refusal? g args.length with
      | some fault =>
        rw [enter_refused refusal]
        exact taken
      | none =>
        rw [enter_accepted refusal]
        exact enter_encloses taken (frames ▸ active) other (h.functions ▸ found) args

section

variable (uncalled : ∀ name g, t.get? name = some g → ∀ i ∈ names, ¬g.Calls i) (own : ∀ i ∈ names, ¬f.Calls i)
include uncalled own

theorem encloses_next (h : w.machine.Encloses t names f) (active : 0 < w.machine.frames.size) :
    (finalState (next (templates none) w)).machine.Encloses t names f := by
  obtain ⟨l, g, frames⟩ := exists_innermost active
  rw [next_eq frames]
  cases found : g.function.code[g.ip]? with
  | none =>
    rw [step_none found]
    exact h
  | some i =>
    have quiet (i' : String) (mem : i' ∈ names) : ¬g.function.Calls i' := by
      have innermost : w.machine.frames[l.length]? = some g := by
        rw [← Array.getElem?_toList, frames, List.getElem?_concat_length]
      obtain ⟨-, same⟩ | ⟨-, name, -, known⟩ := h.frames _ g innermost
      · exact same ▸ own i' mem
      · exact uncalled name _ known i' mem
    have advanced : (advanced w (g.ip + 1)).machine.Encloses t names f :=
      ⟨h.functions, (goto_encloses h (g.ip + 1)).frames⟩
    have active : 0 < (Exec.advanced w (g.ip + 1)).machine.frames.size := by
      show 0 < (w.machine.frames.modify _ _).size
      rwa [Array.size_modify]
    rw [step_eq found]
    split
    · exact advanced
    generalize Exec.advanced w (g.ip + 1) = w at advanced active
    let P (w : World η) : Prop := w.machine.Encloses t names f
    have pops {k : Value → Exec η Unit} (hk : ∀ v, Preserves P (k v)) : Preserves P (pop >>= k) :=
      .bind (preserves_pop indifferent_encloses) hk
    have goes (target : Nat) : Preserves P (modifyMachine (·.goto target) : Exec η Unit) := fun w h => goto_encloses h target
    have leaves : Preserves P (modifyMachine Machine.leave : Exec η Unit) := fun w h => leave_encloses h
    by_cases straight : i.isStraight
    · have refuses (args : List Value) : Preserves P (templates none args) := .throw _
      exact preserves_act indifferent_encloses refuses straight _ _ w advanced
    cases i with
    | jump target => exact goes target w advanced
    | jumpIfFalse target | jumpIfTrue target => exact pops (fun v => .ite (goes target) (.pure _)) w advanced
    | call name argc =>
      have other : name ∉ names := fun mem => quiet name mem ⟨argc, Array.mem_of_getElem? found⟩
      exact encloses_call advanced active other argc
    | «return» => exact pops (fun v => .bind leaves fun _ => preserves_push indifferent_encloses _) w advanced
    | returnVoid => exact leaves w advanced
    | _ => exact absurd rfl straight

/-- In all states of a run the functions above the outermost one are others. -/
theorem encloses_loop {ss : List (World η)} {r : EStateM.Result MachineError (World η) Unit}
    (ends : LoopEnds (turn (templates none) 0) w ss r) (h : w.machine.Encloses t names f) :
    ∀ v ∈ ss, v.machine.Encloses t names f := by
  induction ends with
  | last => exact List.forall_mem_singleton.mpr h
  | more goes _ ih =>
    obtain ⟨active, run⟩ := turn_goes goes
    have after := encloses_next uncalled own h active
    rw [run] at after
    exact List.forall_mem_cons.mpr ⟨h, ih after⟩

end

end Exec

namespace CallsInOrder

variable {w w' : World η} {cs : List (MadeCall η)} {failure : Option MachineError}

/-- A call finds the table without the functions that were called before, and the functions that were active at first. -/
theorem made (h : CallsInOrder w cs w' failure) (distinct : (cs.map (·.name)).Nodup) {c : MadeCall η} (mem : c ∈ cs) :
    Exec.call none c.name [] c.before = c.result ∧ c.before.machine.frames = w.machine.frames ∧
      c.before.machine.functions.get? c.name = w.machine.functions.get? c.name ∧
      ∀ name g, c.before.machine.functions.get? name = some g → w.machine.functions.get? name = some g := by
  induction h with
  | done w => cases mem
  | @returned called w w₁ w₂ v cs failure made rest ih =>
    obtain rfl | later := List.mem_cons.mp mem
    · exact ⟨made, rfl, rfl, fun _ _ => id⟩
    have after : finalState (Exec.call none called [] w) = w₁ := congrArg finalState made
    have dropped := Exec.get?_without after
    have control : w.machine.SameControl (finalState (Exec.call none called [] w)).machine :=
      (Exec.neutral_callWith none (w.machine.maxInstructions + 2) called []).same w
    rw [after] at control
    obtain ⟨new, apart⟩ := List.nodup_cons.mp distinct
    obtain ⟨result, frames, found, others⟩ := ih apart later
    refine ⟨result, frames.trans control.frames, ?_, fun name g known => ?_⟩
    · rw [found, dropped, if_neg]
      rintro rfl
      exact new (List.mem_map.mpr ⟨c, later, rfl⟩)
    · have known := others name g known
      rw [dropped] at known
      split at known
      · cases known
      · exact known
  | failed made =>
    obtain rfl := List.mem_singleton.mp mem
    exact ⟨made, rfl, rfl, fun _ _ => id⟩

/-- On an idle machine without calls of the names each call enters its own function, and none of the others. -/
theorem encloses (h : CallsInOrder w cs w' failure) (distinct : (cs.map (·.name)).Nodup) (idle : w.machine.frames = #[])
    {names : List String} (uncalled : ∀ name g, w.machine.functions.get? name = some g → ∀ i ∈ names, ¬g.Calls i)
    {c : MadeCall η} (mem : c ∈ cs) {f : CodeFunction} (found : w.machine.functions.get? c.name = some f) :
    ∃ ss, Exec.CallEnds c.before c.name [] ss c.result ∧
      ∀ v ∈ ss, v.machine.Encloses c.before.machine.functions names f := by
  obtain ⟨result, frames, known, others⟩ := h.made distinct mem
  obtain ⟨ss, ends, -⟩ := Exec.call_ends (frames.trans idle) c.name []
  rw [result] at ends
  refine ⟨ss, ends, ?_⟩
  have own := known.trans found
  have inactive : c.before.machine.frames.size = 0 := by rw [frames, idle]; rfl
  generalize c.result = r at ends
  cases ends with
  | unknown missing => exact nofun
  | refused _ _ => exact nofun
  | @run g w₁ ss r found' entered ends =>
    cases found'.symm.trans own
    refine Exec.encloses_loop (fun name g known => uncalled name g (others name g known)) (uncalled c.name f found) ends ?_
    obtain rfl := Exec.enter_ok entered
    refine ⟨rfl, fun k g present => ?_⟩
    have present : (c.before.machine.frames.push _)[k]? = some g := present
    rw [Array.getElem?_push, inactive] at present
    split at present
    · cases present
      exact .inl ⟨‹k = 0›, rfl⟩
    · rw [frames, idle] at present
      cases present

end CallsInOrder

/-! ## What linking adds to the table -/

namespace Machine

variable {m m' : Machine} {c : CodeModule} {names : List String}

theorem LinkedAs.calls {f f' : CodeFunction} (h : LinkedAs f f') {name : String} (calls : f'.Calls name) : f.Calls name := by
  obtain ⟨m, strings, code, patched, rfl⟩ := h
  obtain ⟨argc, mem⟩ := calls
  obtain ⟨k, found⟩ := Array.mem_iff_getElem?.mp mem
  obtain ⟨i, there, step⟩ := getElem?_of_mapM patched found
  obtain ⟨p, pointer, -⟩ | ⟨rfl, -⟩ := patch_cases step
  · cases pointer
  · exact ⟨argc, Array.mem_of_getElem? there⟩

/-- Behind the linking of a module a function is one of the module, or it was there before. -/
theorem link_origin (h : link c m = .ok names m') :
    m'.frames = m.frames ∧ ∀ name g', m'.functions.get? name = some g' →
      (∃ g ∈ c.functions, g.name = name ∧ LinkedAs g g') ∨ m.functions.get? name = some g' := by
  have keeps : Keeps (fun functions => ∀ name g', functions.get? name = some g' →
      (∃ g ∈ c.functions, g.name = name ∧ LinkedAs g g') ∨ m.functions.get? name = some g') (fun _ => True) (link c) := by
    refine keeps_link (keeps_accept (fun _ => trivial) fun _ _ => trivial)
      (fun _ _ _ _ => keeps_defineObject (fun _ _ _ => trivial) fun _ _ _ _ _ => trivial)
      fun strings _ f mem => keeps_defineFunction (fun _ _ _ => trivial) fun m₁ code patched before name g' found => ?_
    rw [NameMap.get?_insert] at found
    split at found
    · cases found
      exact .inl ⟨f, mem, ‹name = f.name›.symm, m₁, strings, code, patched, rfl⟩
    · exact before name g' found
  have after : LinkedTo _ _ m (link c m) := keeps m fun _ _ found => .inr found
  rw [h] at after
  exact ⟨after.frames, after.functions⟩

/-- The table of `m'` is that of `m` and, besides, the functions of the module as they are linked, but for those that
were dropped. -/
structure Gains (m m' : Machine) (c : CodeModule) (dropped : List String) : Prop where
  gone : ∀ name ∈ dropped, m'.functions.get? name = none
  linked : ∀ name ∉ dropped, c.Has (.function name) →
    ∃ g ∈ c.functions, g.name = name ∧ ∃ g', LinkedAs g g' ∧ m'.functions.get? name = some g'
  others : ∀ name ∉ dropped, ¬c.Has (.function name) → m'.functions.get? name = m.functions.get? name

theorem link_gains (h : link c m = .ok names m') : m.Gains m' c [] := by
  refine ⟨nofun, fun name _ has => ?_, fun name _ other => ?_⟩
  · have known : m'.hasFunction name := link_has h (.inl has)
    obtain ⟨g', found⟩ := Option.isSome_iff_exists.mp known
    obtain ⟨g, mem, named, linked⟩ | before := (link_origin h).2 name g' found
    · exact ⟨g, mem, named, g', linked, found⟩
    · obtain ⟨g, mem, rfl⟩ := has
      exact absurd (Option.isSome_of_mem before) (link_new h mem)
  · have same := link_others c m other
    rw [h] at same
    exact same

end Machine

/-! ## The fragment -/

namespace Execution

/-- How a fragment with the initializers `names` is started: the first of them are called in order, up to one that fails,
each is dropped behind its call, and the ones that are left stay in the table. -/
structure Initializes (f : CompiledFragment) (names : List String) (linked : Machine) (e e' : Execution η)
    (cs : List (MadeCall η)) (left : List String) (failure : Option MachineError) : Prop where
  order : names = cs.map (·.name) ++ left
  calls : CallsInOrder ⟨linked, e.world.host⟩ cs e'.world failure
  all : failure = none → left = []
  history : e'.history = e.history.append f.decls
  table : e.world.machine.Gains e'.world.machine f.module (cs.map (·.name))
  stay : ∀ name ∈ left, e'.world.machine.hasFunction name
  /-- Each call finds the function of the fragment, and on an idle machine that calls no initializer itself it enters this
  one at its beginning only, and no other initializer. -/
  once : ∀ c ∈ cs, ∃ g ∈ f.module.functions, g.name = c.name ∧ ∃ g', Machine.LinkedAs g g' ∧
    c.before.machine.functions.get? c.name = some g' ∧
    (e.world.machine.frames = #[] →
      (∀ name h, e.world.machine.functions.get? name = some h → ∀ i ∈ names, ¬h.Calls i) →
      ∃ ss, Exec.CallEnds c.before c.name [] ss c.result ∧
        ∀ v ∈ ss, v.machine.Encloses c.before.machine.functions names g')

/-- The initializers of a fragment run once and in order. -/
theorem start_initializes {f : CompiledFragment} {e : Execution η} {names : List String} {linked : Machine}
    (links : Machine.link f.module e.world.machine = .ok names linked) (distinct : names.Nodup)
    (own : ∀ name ∈ names, f.module.Has (.function name))
    (uncalled : ∀ g ∈ f.module.functions, ∀ name ∈ names, ¬g.Calls name) :
    ∃ e' cs left failure, Initializes f names linked e e' cs left failure ∧
      start none f e =
        match failure with
        | none => .ok f.entry e'
        | some m => .error (.machine m) e' := by
  obtain ⟨cs, left, w, failure, order, all, calls, outcome⟩ :=
    callEachOnce_inOrder names { world := ⟨linked, e.world.host⟩, history := e.history.append f.decls }
  have gains := Machine.link_gains links
  obtain ⟨frames, origin⟩ := Machine.link_origin links
  obtain ⟨once, -, apart⟩ := List.nodup_append.mp (order ▸ distinct)
  refine ⟨⟨w, e.history.append f.decls⟩, cs, left, failure, ⟨order, calls, all, rfl, ?_, fun name mem => ?_, fun c mem => ?_⟩, ?_⟩
  · refine ⟨fun name mem => ?_, fun name stays has => ?_, fun name stays other => ?_⟩
    · exact (calls.functions name).trans (if_pos mem)
    · obtain ⟨g, mem, named, g', patched, found⟩ := gains.linked name List.not_mem_nil has
      exact ⟨g, mem, named, g', patched, ((calls.functions name).trans (if_neg stays)).trans found⟩
    · exact ((calls.functions name).trans (if_neg stays)).trans (gains.others name List.not_mem_nil other)
  · have stays : name ∉ cs.map (·.name) := fun called => apart name called name mem rfl
    have known : linked.hasFunction name := Machine.link_has links (.inl (own name (order ▸ List.mem_append_right _ mem)))
    have same := (calls.functions name).trans (if_neg stays)
    show (w.machine.functions.get? name).isSome
    rw [same]
    exact known
  · have named : c.name ∈ names := order ▸ List.mem_append_left _ (List.mem_map.mpr ⟨c, mem, rfl⟩)
    obtain ⟨g, member, same, g', patched, found⟩ := gains.linked c.name List.not_mem_nil (own c.name named)
    obtain ⟨-, -, before, -⟩ := calls.made once mem
    refine ⟨g, member, same, g', patched, before.trans found, fun idle quiet => ?_⟩
    refine calls.encloses once (frames.trans idle) (fun name h known i mem calls => ?_) mem found
    obtain ⟨g₁, member, -, patched⟩ | older := origin name h known
    · exact uncalled g₁ member i mem (patched.calls calls)
    · exact quiet name h older i mem calls
  · have linking : ofExec linkError (Exec.link f.module) e = .ok names { e with world := ⟨linked, e.world.host⟩ } := by
      unfold ofExec Exec.link
      rw [links]
    show EStateM.bind (ofExec linkError (Exec.link f.module)) _ e = _
    unfold EStateM.bind
    rw [linking]
    show EStateM.bind (callEachOnce none names) _ _ = _
    unfold EStateM.bind
    rw [outcome]
    cases failure <;> rfl

/-- Of two initializers the first divides by zero. -/
def faultyFirst : CompiledFragment where
  module :=
    { functions := #[
        { name := "a", params := [], ret := none, frameSlots := 0,
          code := #[.pushInt 1, .pushInt 0, .binary .div .i32, .pop, .returnVoid] },
        { name := "b", params := [], ret := none, frameSlots := 0, code := #[.returnVoid] }]
      initializers := #["a", "b"] }

/-- The one that was not run stays in the table. -/
theorem unrun_initializer_stays :
    (match start none faultyFirst ⟨⟨{ maxInstructions := 10 }, ()⟩, {}⟩ with
      | .error (.machine m) e' => some (m.fault.message, e'.world.machine.hasFunction "a", e'.world.machine.hasFunction "b")
      | _ => none) =
        some ("division by zero", false, true) := by
  decide +kernel

theorem faulty_fragment_initializes : ∃ linked cs left failure, ∃ e' : Execution Unit,
    Machine.link faultyFirst.module {} = .ok ["a", "b"] linked ∧
      Initializes faultyFirst ["a", "b"] linked ⟨⟨{}, ()⟩, {}⟩ e' cs left failure := by
  have goes : (given? (Machine.link faultyFirst.module {})).isSome := by decide +kernel
  obtain ⟨⟨names, linked⟩, given⟩ := Option.isSome_iff_exists.mp goes
  have links := given?_eq_some given
  obtain rfl : names = ["a", "b"] := Machine.link_names links
  have own : ∀ name ∈ ["a", "b"], faultyFirst.module.Has (.function name) := by simp [CodeModule.Has, faultyFirst]
  have uncalled : ∀ g ∈ faultyFirst.module.functions, ∀ name ∈ ["a", "b"], ¬g.Calls name := by
    simp [CodeFunction.Calls, faultyFirst]
  obtain ⟨e', cs, left, failure, initializes, -⟩ :=
    start_initializes (e := (⟨⟨{}, ()⟩, {}⟩ : Execution Unit)) links (by decide) own uncalled
  exact ⟨linked, cs, left, failure, e', links, initializes⟩

end Execution

end IncrementalC
