import IncrementalC.Proofs.Machine.Placement
import IncrementalC.Proofs.Machine.Upheld

/-!
# Functions are not left at their end

`CodeModule.WellFormed E k c`: the code of each function of `c` ends in a return and jumps inside of itself, the string
literals that are named are among the first `k`, initial values lie inside of their objects, and local objects inside of
their frames. A place just behind a frame is taken only if `E`.

A well-formed module is linked unless it is refused (`Machine.keeps_wellFormed`). `Machine.Standing pre m` says that the code
that was linked is complete and that the active functions stand at their instructions. Every run keeps this, and no run
comes upon broken code (`Exec.call_complete`).
-/
namespace IncrementalC
set_option autoImplicit false

variable {η α β : Type} {E : Prop} {k : Nat}

/-! ## Well-formed modules -/

/-- The slot lies in a frame of `n` slots, or just behind it if `E`. -/
def InFrame (E : Prop) (n slot : Nat) : Prop := slot < n ∨ E ∧ slot = n

structure CodeFunction.WellFormed (E : Prop) (k : Nat) (f : CodeFunction) : Prop where
  ends : ∃ last, f.code.back? = some last ∧ last.isReturn
  jumps : ∀ i ∈ f.code, ∀ target, i.target? = some target → target < f.code.size
  literals : ∀ index, .pushStr index ∈ f.code → index < k
  slots : ∀ slot, .localAddr slot ∈ f.code → InFrame E f.frameSlots slot

structure CodeGlobal.WellFormed (k : Nat) (g : CodeGlobal) : Prop where
  slots : ∀ x ∈ g.init, x.1 < g.slots
  literals : ∀ x ∈ g.init, ∀ index, x.2 = .str index → index < k

structure CodeModule.WellFormed (E : Prop) (k : Nat) (c : CodeModule) : Prop where
  functions : ∀ f ∈ c.functions, f.WellFormed E k
  globals : ∀ g ∈ c.globals, g.WellFormed k

theorem CodeModule.WellFormed.mono {k' : Nat} {c : CodeModule} (h : c.WellFormed E k) (le : k ≤ k') :
    c.WellFormed E k' where
  functions f mem :=
    { h.functions f mem with literals := fun i named => Nat.lt_of_lt_of_le ((h.functions f mem).literals i named) le }
  globals g mem :=
    { h.globals g mem with literals := fun x given i same => Nat.lt_of_lt_of_le ((h.globals g mem).literals x given i same) le }

/-! ## Complete code -/

/-- Linked code that ends in a return and jumps inside of itself. -/
structure CodeFunction.Complete (f : CodeFunction) : Prop where
  ends : ∃ last, f.code.back? = some last ∧ last.isReturn
  jumps : ∀ i ∈ f.code, ∀ target, i.target? = some target → target < f.code.size
  literals : ∀ index, .pushStr index ∉ f.code

namespace CodeFunction.Complete

variable {f : CodeFunction}

theorem nonempty (h : f.Complete) : 0 < f.code.size := by
  obtain ⟨last, found, -⟩ := h.ends
  refine Nat.pos_of_ne_zero fun empty => ?_
  rw [Array.eq_empty_of_size_eq_zero empty] at found
  cases found

/-- Behind an instruction other than a return there is another one. -/
theorem next (h : f.Complete) {ip : Nat} {i : Instr} (found : f.code[ip]? = some i) (inside : i.isReturn = false) :
    ip + 1 < f.code.size := by
  obtain ⟨last, ends, returns⟩ := h.ends
  have before : ip < f.code.size := (Array.getElem?_eq_some_iff.mp found).1
  refine Nat.lt_of_le_of_ne before fun same => ?_
  rw [Array.back?, ← same, Nat.add_sub_cancel, found] at ends
  cases ends
  rw [inside] at returns
  cases returns

end CodeFunction.Complete

def TableComplete (functions : NameMap CodeFunction) : Prop := ∀ name f, functions.get? name = some f → f.Complete

namespace TableComplete

variable {functions : NameMap CodeFunction}

theorem empty : TableComplete {} := by
  intro name f found
  cases found

theorem insert {name : String} {f : CodeFunction} (table : TableComplete functions) (hf : f.Complete) :
    TableComplete (functions.insert name f) := by
  intro other g found
  rw [NameMap.get?_insert] at found
  split at found
  · cases found
    exact hf
  · exact table other g found

theorem erase (name : String) (table : TableComplete functions) : TableComplete (functions.erase name) := by
  intro other g found
  rw [NameMap.get?_erase] at found
  split at found
  · cases found
  · exact table other g found

end TableComplete

/-! ## Linking -/

namespace Machine

/-- A filled in address is no jump, no return and no literal. -/
theorem patch_shape {m : Machine} {strings : Array UInt64} {i i' : Instr} (h : m.patch strings i = .ok i') :
    i'.target? = i.target? ∧ i'.isReturn = i.isReturn ∧ ∀ index, i' ≠ .pushStr index := by
  obtain ⟨p, rfl, ⟨n, rfl⟩ | ⟨name, rfl⟩⟩ | ⟨rfl, other⟩ := patch_cases h
  · exact ⟨rfl, rfl, nofun⟩
  · exact ⟨rfl, rfl, nofun⟩
  · exact ⟨rfl, rfl, other⟩

theorem complete_patched {m : Machine} {strings : Array UInt64} {f : CodeFunction} (formed : f.WellFormed E k)
    {code : Array Instr} (h : f.code.mapM (m.patch strings) = .ok code) : CodeFunction.Complete { f with code } := by
  obtain ⟨size, -⟩ := mapM_ok h
  refine ⟨?_, fun i' mem target given => ?_, fun index mem => ?_⟩
  · obtain ⟨last, ends, returns⟩ := formed.ends
    rw [Array.back?_eq_getElem?] at ends ⊢
    obtain ⟨last', found, step⟩ := getElem?_mapM h ends
    exact ⟨last', size ▸ found, (patch_shape step).2.1.trans returns⟩
  · obtain ⟨ip, found⟩ := Array.getElem?_of_mem mem
    obtain ⟨i, there, step⟩ := getElem?_of_mapM h found
    rw [(patch_shape step).1] at given
    exact size ▸ formed.jumps i (Array.mem_of_getElem? there) target given
  · obtain ⟨ip, found⟩ := Array.getElem?_of_mem mem
    obtain ⟨i, -, step⟩ := getElem?_of_mapM h found
    exact (patch_shape step).2.2 index rfl

/-- A well-formed module is linked to complete code, unless it is refused. -/
theorem keeps_wellFormed {T : NameMap CodeFunction → Prop}
    (inserts : ∀ functions name f, T functions → f.Complete → T (functions.insert name f)) {c : CodeModule}
    (formed : c.WellFormed E c.strings.size) : Keeps T (fun f => f.isRefusal) (link c) := by
  have literal {Q : Prop} {n index : Nat} (same : n = c.strings.size) (below : index < c.strings.size) (above : n ≤ index) : Q := by
    omega
  refine keeps_link (keeps_accept (fun _ => rfl) fun _ _ => rfl) (fun strings size g mem => ?_) fun strings size f mem => ?_
  · have formed := formed.globals g mem
    refine keeps_defineObject (fun x given above => ?_) fun x given i same => literal size (formed.literals x given i same)
    exact absurd (formed.slots x given) (Nat.not_lt_of_le above)
  · have formed := formed.functions f mem
    exact keeps_defineFunction (fun i named => literal size (formed.literals i named)) fun m code patched table =>
      inserts _ _ _ table (complete_patched formed patched)

/-- A well-formed module is linked into any machine, unless it is refused. -/
theorem link_wellFormed {c : CodeModule} (formed : c.WellFormed E c.strings.size) {m m' : Machine} {f : Fault}
    (h : link c m = .error f m') : f.isRefusal := by
  have linked : LinkedTo (fun _ => True) (fun f => f.isRefusal) m (link c m) :=
    keeps_wellFormed (fun _ _ _ _ _ => trivial) formed m trivial
  rw [h] at linked
  exact linked.2

end Machine

/-! ## Machines -/

/-- Faults of broken code: a function without an end, a literal that is not linked, an image outside of its object. -/
def Fault.isBroken : Fault → Bool
  | .ranPastEnd _ | .unlinkedString _ | .missingString _ | .initialValueRange _ => true
  | _ => false

theorem Fault.isBroken_of_isStructural {f : Fault} (h : f.isStructural = false) : f.isBroken = false := by
  cases f with
  | ranPastEnd _ | unlinkedString _ | missingString _ | initialValueRange _ => cases h
  | _ => rfl

theorem Fault.isBroken_of_isRefusal {f : Fault} (h : f.isRefusal) : f.isBroken = false := by
  cases f with
  | duplicateFunction _ | globalMemory _ _ => rfl
  | _ => cases h

/-- The function is complete and stands at one of its instructions. -/
structure Frame.Stands (f : Frame) : Prop where
  complete : f.function.Complete
  inside : f.ip < f.function.code.size

/-- All functions are complete, and the active ones above those in `pre` stand at their instructions. -/
structure Machine.Standing (pre : List Frame) (m : Machine) : Prop where
  table : TableComplete m.functions
  frames : ∃ fs, m.frames.toList = pre ++ fs ∧ ∀ f ∈ fs, f.Stands

/-- What a host compiles is well formed, and it finds fault with other things than the machine. -/
structure Host.Sound (host : Host η) : Prop where
  faults : ∀ x handle template addresses,
    FaultsIn (fun f => f.isBroken = false) (host.compile x handle template addresses).1
  code : ∀ x handle template addresses c,
    (host.compile x handle template addresses).1 = .ok c → ∃ E, c.module.WellFormed E c.module.strings.size

/-- An error leaves the functions complete, and is not one of broken code. -/
theorem Machine.upheld_standing (pre : List Frame) :
    Upheld (Standing pre) (fun m => TableComplete m.functions) fun f => f.isBroken = false where
  same _ _ same h := ⟨same.functions ▸ h.table, same.frames ▸ h.frames⟩
  left _ h := h.table
  unwound _ _ functions _ h := functions ▸ h
  mild _ h := Fault.isBroken_of_isStructural (Fault.isMild_iff.mp h).1
  operands := rfl
  noFunction _ _ _ _ := rfl
  noObject _ _ _ _ := rfl

namespace Exec

variable {pre : List Frame}

/-- What a step of a standing machine may come to. -/
abbrev StandsTo (pre : List Frame) (r : EStateM.Result MachineError (World η) α) : Prop :=
  UpholdsTo (Machine.Standing pre) (fun m => TableComplete m.functions) (fun f => f.isBroken = false) r

abbrev Safe (pre : List Frame) (m : Exec η α) : Prop :=
  Upholds (Machine.Standing pre) (fun m => TableComplete m.functions) (fun f => f.isBroken = false) m

/-! ## Instructions -/

section Step

variable {evaluate : List Value → Exec η Value} {l : List Frame} {f : Frame} {w : World η}

theorem standing_of_frames {m : Machine} (table : TableComplete m.functions) (below : ∀ f ∈ l, f.Stands)
    (innermost : f.Stands) (frames : m.frames.toList = pre ++ l ++ [f]) : m.Standing pre := by
  refine ⟨table, l ++ [f], by rw [frames, List.append_assoc], fun g mem => ?_⟩
  rcases List.mem_append.mp mem with mem | mem
  · exact below g mem
  · cases List.mem_singleton.mp mem
    exact innermost

theorem standing_leave {m : Machine} (table : TableComplete m.functions) (below : ∀ f ∈ l, f.Stands)
    (frames : m.frames.toList = pre ++ l ++ [f]) : m.leave.Standing pre := by
  have back : m.frames.back? = some f := by rw [← Array.getLast?_toList, frames, List.getLast?_concat]
  unfold Machine.leave
  rw [back]
  refine ⟨table, l, ?_, below⟩
  show m.frames.pop.toList = _
  rw [Array.toList_pop, frames, List.dropLast_concat]

theorem standing_enter {m : Machine} {g : CodeFunction} (complete : g.Complete) (args : List Value) (h : m.Standing pre) :
    (m.enter g args).Standing pre := by
  obtain ⟨fs, frames, stand⟩ := h.frames
  let callee : Frame := { function := g, ip := 0, base := m.stack.size, operandBase := m.operands.length }
  refine standing_of_frames (f := callee) h.table stand ⟨complete, complete.nonempty⟩ (Array.toList_push.trans ?_)
  rw [frames]

/-- What an instruction does once the frame points behind it. -/
theorem act_stands (evaluates : ∀ args, Safe pre (evaluate args)) (table : TableComplete w.machine.functions)
    (below : ∀ f ∈ l, f.Stands) (complete : f.function.Complete) {ip : Nat} {i : Instr}
    (found : f.function.code[ip]? = some i) (frames : w.machine.frames.toList = pre ++ l ++ [{ f with ip := ip + 1 }]) :
    StandsTo pre (act evaluate f.function.ret f.base i w) := by
  have mem : i ∈ f.function.code := Array.mem_of_getElem? found
  have standing (inside : i.isReturn = false) : w.machine.Standing pre :=
    standing_of_frames (f := { f with ip := ip + 1 }) table below ⟨complete, complete.next found inside⟩ frames
  have goesTo {target : Nat} (given : i.target? = some target) {m : Machine} (functions : m.functions = w.machine.functions)
      (same : m.frames = w.machine.frames) : (m.goto target).Standing pre :=
    standing_of_frames (f := { f with ip := target }) (functions ▸ table : TableComplete m.functions) below
      ⟨complete, complete.jumps i mem target given⟩
      (Machine.goto_frames (f := { f with ip := ip + 1 }) (by rw [same]; exact frames) target)
  have upheld := Machine.upheld_standing pre
  have popped {g : Value → Exec η Unit} (rest : ∀ v w', w.machine.SameCode w'.machine → StandsTo pre (g v w')) :
      StandsTo pre ((pop >>= g) w) := upholdsTo_pop upheld table rest
  by_cases straight : i.isStraight
  · have inside : i.isReturn = false := by cases i <;> first | rfl | cases straight
    refine upholds_act upheld evaluates straight (fun index same => ?_) (fun _ => rfl) _ _ w (standing inside)
    exact absurd (same ▸ mem) (complete.literals index)
  cases i with
  | jump target => exact goesTo rfl rfl rfl
  | jumpIfFalse target =>
    refine popped fun v w' same => ?_
    show StandsTo pre ((if !v.isTruthy then modifyMachine (·.goto target) else Pure.pure () : Exec η Unit) w')
    split
    · exact goesTo rfl same.functions same.frames
    · exact upheld.same _ _ same (standing rfl)
  | jumpIfTrue target =>
    refine popped fun v w' same => ?_
    show StandsTo pre ((if v.isTruthy then modifyMachine (·.goto target) else Pure.pure () : Exec η Unit) w')
    split
    · exact goesTo rfl same.functions same.frames
    · exact upheld.same _ _ same (standing rfl)
  | call name argc =>
    refine upholdsTo_findFunction upheld (standing rfl) fun g found => ?_
    have entered : ∀ m args, Machine.Standing pre m → (m.enter g args).Standing pre :=
      fun _ args => standing_enter (table name g found) args
    exact Upholds.bind (upholds_popList upheld argc) (upholds_enter upheld entered) w (standing rfl)
  | «return» =>
    refine popped fun v w' same => ?_
    exact upheld.same w'.machine.leave _ ⟨rfl, rfl, rfl⟩ (standing_leave (same.functions ▸ table) below (same.frames ▸ frames))
  | returnVoid => exact standing_leave table below frames
  | _ => exact absurd rfl straight

theorem step_stands (evaluates : ∀ args, Safe pre (evaluate args)) (table : TableComplete w.machine.functions)
    (stand : ∀ g ∈ l ++ [f], g.Stands) (frames : w.machine.frames.toList = pre ++ l ++ [f]) :
    StandsTo pre (step evaluate f w) := by
  obtain ⟨complete, inside⟩ := stand f (List.mem_append_right _ List.mem_cons_self)
  rw [step_eq (Array.getElem?_eq_getElem inside)]
  split
  · exact ⟨table, rfl⟩
  · exact act_stands (w := advanced w (f.ip + 1)) evaluates table (fun g mem => stand g (List.mem_append_left _ mem))
      complete (Array.getElem?_eq_getElem inside) (Machine.goto_frames frames (f.ip + 1))

end Step

/-! ## Calls and templates -/

theorem safe_callWith {run : Nat → Exec η Unit} (runs : ∀ depth, pre.length ≤ depth → Safe pre (run depth)) (name : String)
    (args : List Value) : Safe pre (callWith run name args) := by
  refine upholds_callWith (Machine.upheld_standing pre) (fun m h name f found m' args => ?_) (fun w h => runs _ ?_) name args
  · exact standing_enter (h.table name f found) args
  · obtain ⟨fs, frames, -⟩ := h.frames
    rw [← Array.length_toList, frames, List.length_append]
    exact Nat.le_add_right _ _

theorem complete_removeFunctions (names : List String) {m : Machine} (table : TableComplete m.functions) :
    TableComplete (names.foldl Machine.removeFunction m).functions := by
  induction names generalizing m with
  | nil => exact table
  | cons name names ih => exact ih (m := m.removeFunction name) (table.erase name)

theorem safe_runTemplate {call : String → Exec η (Option Value)} (calls : ∀ name, Safe pre (call name)) {c : TemplateCode}
    (formed : c.module.WellFormed E c.module.strings.size) : Safe pre (runTemplate call c) := by
  have linked (m : Machine) (h : m.Standing pre) :
      Machine.LinkedTo TableComplete (fun f => f.isRefusal) m (Machine.link c.module m) :=
    Machine.keeps_wellFormed (fun _ _ _ table => table.insert) formed m h.table
  refine upholds_runTemplate (Machine.upheld_standing pre) calls (fun m names m' run h => ?_) (fun m f m' run h => ?_)
    fun m names m' run h => ⟨fun m h => ?_, fun m table => complete_removeFunctions _ table⟩
  · have linked := linked m h
    rw [run] at linked
    exact ⟨linked.functions, linked.frames ▸ h.frames⟩
  · have linked := linked m h
    rw [run] at linked
    exact ⟨linked.1.functions, Fault.isBroken_of_isRefusal linked.2⟩
  · exact ⟨complete_removeFunctions _ h.table, (removeFunctions_sameRun _ m).frames ▸ h.frames⟩

theorem safe_evaluate {host : Option (Host η)} (sound : ∀ x, host = some x → x.Sound)
    {call : String → Exec η (Option Value)} (calls : ∀ name, Safe pre (call name)) (args : List Value) :
    Safe pre (evaluate host call args) := by
  refine upholds_evaluate (Machine.upheld_standing pre) (fun x given => (sound x given).faults)
    (fun x given state handle template addresses c code => ?_) args
  obtain ⟨E, formed⟩ := (sound x given).code state handle template addresses c code
  exact safe_runTemplate calls formed

/-! ## The loop -/

theorem safe_run {host : Option (Host η)} (sound : ∀ x, host = some x → x.Sound) (fuel depth : Nat)
    (deep : pre.length ≤ depth) : Safe pre (run host fuel depth) := by
  induction fuel generalizing depth with
  | zero => exact .machine fun m => upholds_fail (Machine.upheld_standing pre) rfl
  | succ fuel ih =>
    intro w h
    rw [run_succ]
    split
    · rename_i active
      obtain ⟨fs, frames, stand⟩ := h.frames
      rcases List.eq_nil_or_concat fs with rfl | ⟨l, f, rfl⟩
      · -- there are more functions than those in `pre`
        have size : w.machine.frames.toList.length = pre.length := by rw [frames, List.append_nil]
        rw [Array.length_toList] at size
        exact absurd (size ▸ active : pre.length > depth) (Nat.not_lt_of_le deep)
      · rw [List.concat_eq_append] at frames stand
        rw [← List.append_assoc] at frames
        refine UpholdsTo.bind ?_ fun _ w' _ standing => ih depth deep w' standing
        rw [next_eq frames]
        exact step_stands (fun args => safe_evaluate sound (fun name => safe_callWith ih name []) args) h.table stand frames
    · exact h

/-- Whatever function is called, with all functions complete: no broken code is met, and all functions are complete
afterwards. -/
theorem call_complete {host : Option (Host η)} (sound : ∀ x, host = some x → x.Sound) (name : String) (args : List Value)
    {w : World η} (table : TableComplete w.machine.functions) :
    TableComplete (finalState (call host name args w)).machine.functions ∧
      ∀ e w', call host name args w = .error e w' → e.fault.isBroken = false := by
  have standing : w.machine.Standing w.machine.frames.toList := ⟨table, [], (List.append_nil _).symm, nofun⟩
  have after : StandsTo _ (call host name args w) :=
    safe_callWith (fun depth deep => safe_run sound (w.machine.maxInstructions + 2) depth deep) name args w standing
  cases run : call host name args w with
  | ok v w' =>
    rw [run] at after
    refine ⟨after.table, fun e w'' fails => ?_⟩
    cases fails
  | error e w' =>
    rw [run] at after
    refine ⟨after.1, fun e' w'' same => ?_⟩
    cases same
    exact after.2

end Exec

end IncrementalC
