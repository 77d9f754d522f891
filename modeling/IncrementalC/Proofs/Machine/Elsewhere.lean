import IncrementalC.Proofs.Machine.Fuel
import IncrementalC.Proofs.Machine.Memory
import IncrementalC.Proofs.Machine.Preserved

/-!
# Code that stands elsewhere

`Machine.running` puts other functions on the frames of a machine. Memory is read, values are written and modules are
linked in the same way then (`Machine.Blind`).

A `Twin` is a stretch of code that stands in two functions, jump targets being moved with it. Two worlds in which it
stands at the same instruction, in one function each, are `Beside` one another. A run from there does the same in both of
them, whatever functions and templates the code calls, unless one of them has run out of instructions
(`Twin.runWhile_settled`).
-/
namespace IncrementalC
set_option autoImplicit false

variable {η α β : Type}

namespace Machine

/-- The machine with other active functions and another count of instructions. -/
def running (m : Machine) (frames : List Frame) (count : Nat) : Machine :=
  { m with frames := frames.toArray, instructionCount := count }

variable {m : Machine} {fs l : List Frame} {f : Frame} {n : Nat}

theorem running_sameMemory : m.SameMemory (m.running fs n) := ⟨rfl, rfl⟩

/-! ## What is done to the active functions -/

theorem running_goto (ip : Nat) : (m.running (l ++ [f]) n).goto ip = m.running (l ++ [{ f with ip }]) n := by
  have frames : ((m.running (l ++ [f]) n).goto ip).frames = (l ++ [{ f with ip }]).toArray :=
    Array.toList_inj.mp (goto_frames (f := f) rfl ip)
  show { m.running (l ++ [f]) n with frames := ((m.running (l ++ [f]) n).goto ip).frames } = _
  rw [frames]
  rfl

theorem running_enter (g : CodeFunction) (args : List Value) : (m.running fs n).enter g args =
    running { m with stack := m.stack ++ frameValues g args } (fs ++ [⟨g, 0, m.stack.size, m.operands.length⟩]) n := by
  have frames := List.push_toArray fs (⟨g, 0, m.stack.size, m.operands.length⟩ : Frame)
  exact congrArg (fun frames => { m with stack := m.stack ++ frameValues g args, frames, instructionCount := n }) frames

theorem running_leave : (m.running (l ++ [f]) n).leave =
    running { m with stack := m.stack.shrink f.base, operands := lowest m.operands f.operandBase } l n := by
  unfold leave running
  simp only [List.back?_toArray, List.getLast?_append, List.getLast?_singleton, Option.some_or, List.pop_toArray,
    List.dropLast_concat]

/-! ## Linking -/

/-- The result with other active functions. -/
def resultRunning (fs : List Frame) (n : Nat) : EStateM.Result Fault Machine α → EStateM.Result Fault Machine α
  | .ok x m => .ok x (m.running fs n)
  | .error e m => .error e (m.running fs n)

/-- A step of the linker that the active functions do not matter for. -/
def Blind (x : Linking α) : Prop := ∀ m fs n, x (running m fs n) = resultRunning fs n (x m)

namespace Blind

theorem pure (a : α) : Blind (Pure.pure a : Linking α) := fun _ _ _ => rfl

theorem throw (f : Fault) : Blind (throw f : Linking α) := fun _ _ _ => rfl

theorem liftFault (x : Except Fault α) : Blind (liftFault x) := by
  cases x with
  | ok a => exact pure a
  | error f => exact throw f

theorem bind {x : Linking α} {f : α → Linking β} (hx : Blind x) (hf : ∀ a, Blind (f a)) : Blind (x >>= f) := by
  intro m fs n
  show EStateM.bind x f _ = resultRunning fs n (EStateM.bind x f m)
  unfold EStateM.bind
  rw [hx]
  cases x m with
  | ok a m' => exact hf a m' fs n
  | error e m' => rfl

theorem get {f : Machine → Linking β} (same : ∀ m fs n, f (running m fs n) = f m) (hf : ∀ m, Blind (f m)) :
    Blind (MonadState.get >>= f) := by
  intro m fs n
  show f (running m fs n) (running m fs n) = resultRunning fs n (f m m)
  rw [same, hf]

theorem modifyGet {f : Machine → α × Machine} (same : ∀ m fs n, f (running m fs n) = ((f m).1, (f m).2.running fs n)) :
    Blind (modifyGet f : Linking α) := by
  intro m fs n
  show EStateM.Result.ok (f (running m fs n)).1 (f (running m fs n)).2 = .ok (f m).1 ((f m).2.running fs n)
  rw [same]

theorem modify {f : Machine → Machine} (same : ∀ m fs n, f (running m fs n) = (f m).running fs n) :
    Blind (modify f : Linking Unit) := modifyGet fun m fs n => congrArg (Prod.mk ()) (same m fs n)

theorem forIn {xs : List α} {f : α → Linking (ForInStep PUnit)} (hf : ∀ x, Blind (f x)) :
    Blind (ForIn.forIn xs PUnit.unit fun x _ => f x) := by
  induction xs with
  | nil => exact pure _
  | cons x xs ih =>
    rw [List.forIn_cons]
    refine bind (hf x) fun r => ?_
    cases r with
    | done _ => exact pure _
    | yield _ => exact ih

end Blind

theorem internStrings_running (m : Machine) (fs : List Frame) (n : Nat) (ss : List String) :
    (m.running fs n).internStrings ss = ((m.internStrings ss).1, (m.internStrings ss).2.running fs n) := by
  induction ss generalizing m with
  | nil => rfl
  | cons s ss ih =>
    have first : (m.running fs n).internString s = ((m.internString s).1, (m.internString s).2.running fs n) := by
      have same : (m.running fs n).strings = m.strings := rfl
      unfold internString
      rw [same]
      cases m.strings.get? s <;> rfl
    unfold internStrings
    simp only [first, ih]

theorem placeObject_running (m : Machine) (fs : List Frame) (n : Nat) (g : CodeGlobal) :
    (m.running fs n).placeObject g = ((m.placeObject g).1, (m.placeObject g).2.running fs n) := by
  have same : (m.running fs n).objects = m.objects := rfl
  unfold placeObject
  rw [same]
  dsimp only
  cases m.objects.get? g.name with
  | none => rfl
  | some place =>
    dsimp only
    split <;> rfl

theorem blind_defineObject (strings : Array UInt64) (g : CodeGlobal) : Blind (defineObject strings g) := by
  unfold defineObject
  refine .bind (.modifyGet fun m fs n => m.placeObject_running fs n g) fun base => ?_
  refine .bind (.forIn fun entry => ?_) fun _ => .pure _
  have stored : Blind (do
      let v ← Machine.liftFault (constValue strings entry.2)
      modify fun m => { m with globals := m.globals.set! (base + entry.1) v }
      Pure.pure (.yield PUnit.unit) : Linking (ForInStep PUnit)) :=
    .bind (.liftFault _) fun v => .bind (.modify fun _ _ _ => rfl) fun _ => .pure _
  dsimp only
  split
  · exact .bind (.throw _) fun _ => stored
  · exact stored

theorem blind_defineFunction (strings : Array UInt64) (f : CodeFunction) : Blind (defineFunction strings f) :=
  .get (fun _ _ _ => rfl) fun _ => .bind (.liftFault _) fun _ => .modify fun _ _ _ => rfl

theorem blind_link (c : CodeModule) : Blind (link c) := by
  have accepts : Blind (accept c) := by
    unfold accept
    refine .get (fun _ _ _ => rfl) fun m => ?_
    have room : Blind (if m.maxGlobals < m.globals.size + m.requestedSlots c then
        throw (.globalMemory (m.requestedSlots c) m.maxGlobals) else Pure.pure () : Linking Unit) := by
      split
      · exact .throw _
      · exact .pure _
    dsimp only
    split
    · exact .bind (.throw _) fun _ => room
    · exact room
  unfold link
  refine .bind accepts fun _ => .bind (.modifyGet fun m fs n => m.internStrings_running fs n _) fun strings => ?_
  dsimp only
  rw [← Array.forIn_toList, ← Array.forIn_toList]
  refine .bind (.forIn fun g => ?_) fun _ => .bind (.forIn fun f => ?_) fun _ => .pure _
  · exact .bind (blind_defineObject _ g) fun _ => .pure _
  · exact .bind (blind_defineFunction _ f) fun _ => .pure _

end Machine

/-! ## Two places of one code -/

/-- A function whose code has a stretch from `first` on. -/
structure CodePlace where
  function : CodeFunction
  first : Nat

/-- The other place of an instruction that moves by as much as the code around it. -/
inductive Instr.Moved (first first' length : Nat) : Instr → Instr → Prop
  | same {i : Instr} (straight : i.target? = none) (stays : i.isReturn = false) : Moved first first' length i i
  | jump {k : Nat} (inside : k ≤ length) : Moved first first' length (.jump (first + k)) (.jump (first' + k))
  | jumpIfFalse {k : Nat} (inside : k ≤ length) :
    Moved first first' length (.jumpIfFalse (first + k)) (.jumpIfFalse (first' + k))
  | jumpIfTrue {k : Nat} (inside : k ≤ length) :
    Moved first first' length (.jumpIfTrue (first + k)) (.jumpIfTrue (first' + k))

/-- A stretch of code that stands in two places, above the same functions. -/
structure Twin where
  below : List Frame
  base : Nat
  operandBase : Nat
  length : Nat
  left : CodePlace
  right : CodePlace
  moved : ∀ k < length, ∃ i i', left.function.code[left.first + k]? = some i ∧
    right.function.code[right.first + k]? = some i' ∧ i.Moved left.first right.first length i'

/-- The instructions have run out. -/
def MachineError.IsLimit (e : MachineError) : Prop := ∃ limit, e.fault = .instructionLimit limit

theorem MachineError.IsLimit.withTrace {e : MachineError} (h : e.IsLimit) (trace : List TraceEntry) :
    (e.withTrace trace).IsLimit := by
  unfold MachineError.withTrace
  split <;> exact h

namespace Twin

variable (t : Twin)

def frame (p : CodePlace) (k : Nat) : Frame := ⟨p.function, p.first + k, t.base, t.operandBase⟩

/-- The function at the place has got to the instruction `k` of the stretch, or waits there for those above. -/
def world (p : CodePlace) (k : Nat) (above : List Frame) (m : Machine) (host : η) (n : Nat) : World η :=
  ⟨m.running (t.below ++ t.frame p k :: above) n, host⟩

/-- The worlds are the same but for the place of the code and the count of instructions. -/
inductive Beside : World η → World η → Prop
  | mk (m : Machine) (host : η) (above : List Frame) (k : Nat) (inside : k ≤ t.length) (n n' : Nat) :
    Beside (t.world t.left k above m host n) (t.world t.right k above m host n')

/-- The results are the same, with worlds beside one another, or the instructions have run out. -/
inductive Alike : EStateM.Result MachineError (World η) α → EStateM.Result MachineError (World η) α → Prop
  | ok (x : α) {w w' : World η} (h : t.Beside w w') : Alike (.ok x w) (.ok x w')
  | error (e : MachineError) {w w' : World η} (h : t.Beside w w') : Alike (.error e w) (.error e w')
  | left {e : MachineError} (h : e.IsLimit) (w : World η) (r : EStateM.Result MachineError (World η) α) : Alike (.error e w) r
  | right {e : MachineError} (h : e.IsLimit) (w : World η) (r : EStateM.Result MachineError (World η) α) : Alike r (.error e w)

/-- A computation that does not tell worlds beside one another apart. -/
def Blind (x : Exec η α) : Prop := ∀ w w', t.Beside w w' → t.Alike (x w) (x w')

variable {t}

theorem Alike.bind {x y : Exec η α} {f g : α → Exec η β} {w w' : World η} (h : t.Alike (x w) (y w'))
    (hf : ∀ a v v', x w = .ok a v → y w' = .ok a v' → t.Beside v v' → t.Alike (f a v) (g a v')) :
    t.Alike ((x >>= f) w) ((y >>= g) w') := by
  show t.Alike (EStateM.bind x f w) (EStateM.bind y g w')
  unfold EStateM.bind
  generalize hr : x w = r at h hf
  generalize hr' : y w' = r' at h hf
  cases h with
  | ok a beside => exact hf a _ _ rfl rfl beside
  | error e beside => exact .error e beside
  | left limit v r => exact .left limit v _
  | right limit v r => exact .right limit v _

namespace Blind

theorem pure (x : α) : t.Blind (Pure.pure x : Exec η α) := fun _ _ beside => .ok x beside

theorem fail (f : Fault) : t.Blind (Exec.fail f : Exec η α) := fun _ _ beside => .error _ beside

theorem bind {x : Exec η α} {f : α → Exec η β} (hx : t.Blind x) (hf : ∀ a, t.Blind (f a)) : t.Blind (x >>= f) :=
  fun w w' beside => (hx w w' beside).bind fun a v v' _ _ => hf a v v'

theorem ofExcept (x : Except Fault α) : t.Blind (Exec.ofExcept x : Exec η α) := by
  cases x with
  | ok a => exact pure a
  | error f => exact fail f

theorem ite {c : Prop} [Decidable c] {x y : Exec η α} (hx : t.Blind x) (hy : t.Blind y) : t.Blind (if c then x else y) := by
  split
  · exact hx
  · exact hy

/-- A step that looks at the machine, but not at the active functions. -/
theorem reads {f : Machine → Exec η β} (same : ∀ m fs n, f (Machine.running m fs n) = f m) (hf : ∀ m, t.Blind (f m)) :
    t.Blind (Exec.machine >>= f) := by
  rintro _ _ ⟨m, host, above, k, inside, n, n'⟩
  show t.Alike (f (m.running _ _) _) (f (m.running _ _) _)
  rw [same, same]
  exact hf m _ _ (.mk m host above k inside n n')

theorem modifies {f : Machine → Machine} (same : ∀ m fs n, f (Machine.running m fs n) = (f m).running fs n) :
    t.Blind (Exec.modifyMachine f : Exec η Unit) := by
  rintro _ _ ⟨m, host, above, k, inside, n, n'⟩
  show t.Alike (.ok () ⟨f (m.running _ _), host⟩) (.ok () ⟨f (m.running _ _), host⟩)
  rw [same, same]
  exact .ok () (.mk (f m) host above k inside n n')

/-! ## The operand stack and memory -/

theorem push (v : Value) : t.Blind (Exec.push v : Exec η Unit) := modifies fun _ _ _ => rfl

theorem pop : t.Blind (Exec.pop : Exec η Value) := by
  rintro _ _ ⟨m, host, above, k, inside, n, n'⟩
  cases operands : m.operands with
  | nil =>
    rw [Exec.pop_nil operands, Exec.pop_nil operands]
    exact .error _ (.mk m host above k inside n n')
  | cons v rest =>
    rw [Exec.pop_cons operands, Exec.pop_cons operands]
    exact .ok v (.mk { m with operands := rest } host above k inside n n')

theorem popList (c : Nat) : t.Blind (Exec.popList c : Exec η (List Value)) := by
  rintro _ _ ⟨m, host, above, k, inside, n, n'⟩
  show t.Alike ((if m.operands.length < c then _ else _ : Exec η (List Value)) _)
    ((if m.operands.length < c then _ else _ : Exec η (List Value)) _)
  split
  · exact .error _ (.mk m host above k inside n n')
  · exact .ok _ (.mk { m with operands := m.operands.drop c } host above k inside n n')

theorem load (p : UInt64) : t.Blind (Exec.load p : Exec η Value) := reads (fun _ _ _ => rfl) fun _ => ofExcept _

theorem put_running (m : Machine) (fs : List Frame) (n : Nat) (p : UInt64) (v : Value) :
    (m.running fs n).put p v = (m.put p v).running fs n := by
  unfold Machine.put
  dsimp only
  split <;> rfl

theorem store (p : UInt64) (v : Value) : t.Blind (Exec.store p v : Exec η Unit) :=
  reads (fun _ _ _ => rfl) fun _ => ite (modifies fun m fs n => put_running m fs n p v) (fail _)

theorem storeAll (a : Address) (vs : List Value) : t.Blind (Exec.storeAll a vs : Exec η Unit) := by
  induction vs generalizing a with
  | nil => exact pure _
  | cons v vs ih => exact bind (store _ _) fun _ => ih _

theorem copySlots (count : Nat) : t.Blind (Exec.copySlots count : Exec η Unit) := by
  refine bind pop fun source => bind pop fun target => ?_
  refine reads (fun m fs n => by simp only [Machine.running_sameMemory.slotsFrom]) fun m => ?_
  exact bind (ofExcept _) fun values => bind (storeAll _ _) fun _ => push _

theorem builtin (b : Builtin) (args : List Value) : t.Blind (Exec.builtin b args : Exec η Unit) := by
  by_cases result : b = .setResult
  · subst result
    exact modifies (f := fun m => { m with results := m.results.push (args.headD .void) }) fun _ _ _ => rfl
  · rw [Exec.builtin_library result]
    refine reads (fun m fs n => by simp only [Machine.running_sameMemory.library]) fun m => bind (ofExcept _) fun r => ?_
    exact bind (modifies fun _ _ _ => rfl) fun _ => push _

theorem straight {i : Instr} (straight : i.isStraight) (ret : Option Scalar) (base : Nat) :
    t.Blind (Exec.instr ret base i : Exec η Unit) := by
  cases i with
  | pushInt _ | pushFloat _ | pushPtr _ | localAddr _ => exact push _
  | pushStr _ => exact fail _
  | globalAddr name =>
    refine reads (fun _ _ _ => rfl) fun m => ?_
    split
    · exact push _
    · exact fail _
  | load kind => exact bind pop fun p => bind (load _) fun v => push _
  | store kind => exact bind pop fun v => bind pop fun p => bind (store _ _) fun _ => push _
  | copySlots count => exact copySlots count
  | dup =>
    refine reads (fun _ _ _ => rfl) fun m => ?_
    split
    · exact push _
    · exact fail _
  | pop => exact bind pop fun _ => pure _
  | convert _ _ => exact bind pop fun v => push _
  | binary op kind => exact bind pop fun b => bind pop fun a => bind (ofExcept _) fun v => push _
  | unary op kind => exact bind pop fun a => bind (ofExcept _) fun v => push _
  | ptrAdd stride | ptrDiff stride => exact bind pop fun i => bind pop fun p => push _
  | incDec kind amount post => exact bind pop fun p => bind (load _) fun old => bind (store _ _) fun _ => push _
  | builtin b argc => exact bind (popList argc) fun args => builtin b args
  | printValue shape =>
    refine bind pop fun v => reads (fun m fs n => by simp only [Machine.running_sameMemory.render]) fun m => bind (ofExcept _) fun text => ?_
    exact modifies fun _ _ _ => rfl
  | jump _ | jumpIfFalse _ | jumpIfTrue _ | call _ _ | «return» | returnVoid => cases straight

/-- The same with the evaluation of templates. -/
theorem act {evaluate : List Value → Exec η Value} (evaluates : ∀ args, t.Blind (evaluate args)) {i : Instr}
    (isStraight : i.isStraight) (ret : Option Scalar) (base : Nat) : t.Blind (Exec.act evaluate ret base i) := by
  unfold Exec.act
  split
  · exact bind (popList _) fun args => bind (evaluates args) fun v => push v
  · exact straight isStraight ret base

/-! ## Calls -/

theorem findFunction (name : String) : t.Blind (Exec.findFunction name : Exec η CodeFunction) := by
  refine reads (fun _ _ _ => rfl) fun m => ?_
  split
  · exact pure _
  · exact fail _

theorem size_frames (p : CodePlace) (k : Nat) (above : List Frame) (m : Machine) (host : η) (n : Nat) :
    (t.world p k above m host n).machine.frames.size = t.below.length + 1 + above.length := by
  show (t.below ++ t.frame p k :: above).toArray.size = _
  rw [List.size_toArray, List.length_append, List.length_cons]
  omega

theorem take_frames (p : CodePlace) (k j : Nat) (above : List Frame) :
    (t.below ++ t.frame p k :: above).take (t.below.length + 1 + j) = t.below ++ t.frame p k :: above.take j := by
  rw [Nat.add_assoc, List.take_length_add_append, Nat.add_comm 1, List.take_succ_cons]

theorem drop_frames (p : CodePlace) (k j : Nat) (above : List Frame) :
    (t.below ++ t.frame p k :: above).drop (t.below.length + 1 + j) = above.drop j := by
  rw [Nat.add_assoc, List.drop_length_add_append, Nat.add_comm 1, List.drop_succ_cons]

theorem world_enter (p : CodePlace) (k : Nat) (above : List Frame) (m : Machine) (host : η) (n : Nat) (f : CodeFunction)
    (args : List Value) : (⟨(t.world p k above m host n).machine.enter f args, host⟩ : World η) =
      t.world p k (above ++ [⟨f, 0, m.stack.size, m.operands.length⟩])
        { m with stack := m.stack ++ Machine.frameValues f args } host n := by
  unfold world
  rw [Machine.running_enter, List.append_assoc]
  rfl

theorem enter (f : CodeFunction) (args : List Value) : t.Blind (Exec.enter f args : Exec η Unit) := by
  rintro _ _ ⟨m, host, above, k, inside, n, n'⟩
  have same : (t.world t.right k above m host n').machine.refusal? f args.length =
      (t.world t.left k above m host n).machine.refusal? f args.length := by
    unfold Machine.refusal?
    rw [size_frames, size_frames]
    rfl
  cases refused : (t.world t.left k above m host n).machine.refusal? f args.length with
  | some fault =>
    rw [Exec.enter_refused refused, Exec.enter_refused (same.trans refused)]
    exact .error _ (.mk m host above k inside n n')
  | none =>
    rw [Exec.enter_accepted refused, Exec.enter_accepted (same.trans refused)]
    rw [show (t.world t.left k above m host n).host = host from rfl, show (t.world t.right k above m host n').host = host from rfl,
      world_enter, world_enter]
    exact .ok () (.mk _ host _ k inside n n')

theorem takeResult (f : CodeFunction) : t.Blind (Exec.takeResult f : Exec η (Option Value)) := by
  rintro _ _ ⟨m, host, above, k, inside, n, n'⟩
  cases ret : f.ret with
  | none =>
    rw [Exec.takeResult_void ret, Exec.takeResult_void ret]
    exact .ok _ (.mk m host above k inside n n')
  | some kind =>
    cases operands : m.operands with
    | nil =>
      rw [Exec.takeResult_nil operands, Exec.takeResult_nil operands]
      exact .ok _ (.mk m host above k inside n n')
    | cons v rest =>
      have given : f.ret.isNone = false := by rw [ret]; rfl
      rw [Exec.takeResult_cons given operands, Exec.takeResult_cons given operands]
      exact .ok _ (.mk { m with operands := rest } host above k inside n n')

theorem frames_shrink (p : CodePlace) (k j : Nat) (above : List Frame) (m : Machine) (host : η) (n : Nat) :
    (t.world p k above m host n).machine.frames.shrink (t.below.length + 1 + j) =
      (t.below ++ t.frame p k :: above.take j).toArray := by
  refine Array.toList_inj.mp (Array.toList_shrink.trans ?_)
  rw [← take_frames]
  rfl

theorem trace_eq (p : CodePlace) (k j : Nat) (above : List Frame) (m : Machine) (host : η) (n : Nat) :
    (t.world p k above m host n).machine.trace (t.below.length + 1 + j) =
      (above.drop j).map fun f => ⟨f.function.name, f.ip - 1⟩ :=
  congrArg (List.map _) (drop_frames p k j above)

/-- What is active above the two places is the same, so the errors tell the same. -/
theorem guarded {x : Exec η Unit} (hx : t.Blind x) : t.Blind (Exec.guarded x) := by
  rintro _ _ ⟨m, host, above, k, inside, n, n'⟩
  have beside := hx _ _ (.mk m host above k inside n n')
  unfold Exec.guarded
  dsimp only
  rw [size_frames, size_frames]
  generalize x (t.world t.left k above m host n) = r at beside
  generalize x (t.world t.right k above m host n') = r' at beside
  cases beside with
  | ok u beside => exact .ok () beside
  | left limit w r => exact .left (limit.withTrace _) _ _
  | right limit w r => exact .right (limit.withTrace _) _ _
  | error e beside =>
    obtain ⟨m', host', above', k', inside', c, c'⟩ := beside
    dsimp only
    rw [trace_eq, trace_eq, frames_shrink, frames_shrink]
    exact .error _ (.mk { m' with
      stack := m'.stack.shrink m.stack.size
      operands := Machine.lowest m'.operands m.operands.length } host' (above'.take above.length) k' inside' c c')

theorem callWith {run : Nat → Exec η Unit} (runs : ∀ depth, t.below.length < depth → t.Blind (run depth)) (name : String)
    (args : List Value) : t.Blind (Exec.callWith run name args) := by
  rintro _ _ ⟨m, host, above, k, inside, n, n'⟩
  have active (p : CodePlace) (c : Nat) : 0 < (t.world p k above m host c).machine.frames.size := by
    rw [size_frames]
    omega
  cases found : m.functions.get? name with
  | none =>
    rw [Exec.callWith_none found, Exec.callWith_none found]
    exact .error _ (.mk m host above k inside n n')
  | some f =>
    rw [Exec.callWith_eq (active _ _) found, Exec.callWith_eq (active _ _) found, size_frames, size_frames]
    refine bind (guarded (bind (enter f args) fun _ => runs _ ?_)) (fun _ => takeResult f) _ _ (.mk m host above k inside n n')
    omega

theorem callAll {call : String → Exec η (Option Value)} (calls : ∀ name, t.Blind (call name)) (names : List String) :
    t.Blind (Exec.callAll call names) := by
  induction names with
  | nil => exact pure _
  | cons name names ih => exact bind (calls name) fun _ => ih

/-! ## Templates -/

theorem link (c : CodeModule) : t.Blind (Exec.link c : Exec η (List String)) := by
  rintro _ _ ⟨m, host, above, k, inside, n, n'⟩
  unfold Exec.link world
  rw [Machine.blind_link, Machine.blind_link]
  cases Machine.link c m with
  | ok names m' => exact .ok names (.mk m' host above k inside n n')
  | error f m' => exact .error _ (.mk m' host above k inside n n')

theorem always {x : Exec η Unit} (hx : t.Blind x) {last : Machine → Machine}
    (same : ∀ m fs n, last (Machine.running m fs n) = (last m).running fs n) : t.Blind (Exec.always x last) := by
  have after {w w' : World η} (beside : t.Beside w w') :
      t.Beside { w with machine := last w.machine } { w' with machine := last w'.machine } := by
    obtain ⟨m, host, above, k, inside, n, n'⟩ := beside
    unfold world
    rw [same, same]
    exact .mk (last m) host above k inside n n'
  intro w w' beside
  have results := hx w w' beside
  unfold Exec.always
  generalize x w = r at results
  generalize x w' = r' at results
  cases results with
  | ok u beside => exact .ok () (after beside)
  | error e beside => exact .error e (after beside)
  | left limit w r => exact .left limit _ _
  | right limit w r => exact .right limit _ _

theorem removeFunctions_running (names : List String) (m : Machine) (fs : List Frame) (n : Nat) :
    names.foldl Machine.removeFunction (m.running fs n) = (names.foldl Machine.removeFunction m).running fs n := by
  induction names generalizing m with
  | nil => rfl
  | cons name names ih => exact ih (m.removeFunction name)

variable {call : String → Exec η (Option Value)} (calls : ∀ name, t.Blind (call name))
include calls

theorem runTemplate (c : TemplateCode) : t.Blind (Exec.runTemplate call c) := by
  refine reads (fun _ _ _ => rfl) fun m => bind (link _) fun names => ?_
  refine bind (always (callAll calls _) fun m fs n => removeFunctions_running _ m fs n) fun _ => ?_
  refine reads (fun _ _ _ => rfl) fun m' => ?_
  split
  · exact bind (modifies fun _ _ _ => rfl) fun _ => pure _
  · exact pure _

theorem evaluateText (host : Host η) (handle : UInt64) (template : String) (addresses : List UInt64) :
    t.Blind (Exec.evaluateText host call handle template addresses) := by
  rintro _ _ ⟨m, h, above, k, inside, n, n'⟩
  have compiled : t.Blind (Exec.ofExcept (host.compile h handle template addresses).1 >>= Exec.runTemplate call) :=
    bind (ofExcept _) (runTemplate calls)
  exact compiled _ _ (.mk m (host.compile h handle template addresses).2 above k inside n n')

theorem evaluate (host : Option (Host η)) (args : List Value) : t.Blind (Exec.evaluate host call args) := by
  cases host with
  | none => exact fail _
  | some host =>
    rw [Exec.evaluate_some]
    refine reads (fun m fs n => by simp only [Machine.running_sameMemory.text]) fun m => bind (ofExcept _) fun template => ?_
    exact evaluateText calls host _ _ _

end Blind

/-! ## Steps -/

theorem world_goto (p : CodePlace) (k : Nat) (gs : List Frame) (f : Frame) (m : Machine) (host : η) (n ip : Nat) :
    (⟨(t.world p k (gs ++ [f]) m host n).machine.goto ip, host⟩ : World η) = t.world p k (gs ++ [{ f with ip }]) m host n := by
  unfold world
  rw [← List.cons_append, ← List.append_assoc, Machine.running_goto, List.append_assoc]
  rfl

theorem world_leave (p : CodePlace) (k : Nat) (gs : List Frame) (f : Frame) (m : Machine) (host : η) (n : Nat) :
    (⟨(t.world p k (gs ++ [f]) m host n).machine.leave, host⟩ : World η) = t.world p k gs
      { m with stack := m.stack.shrink f.base, operands := Machine.lowest m.operands f.operandBase } host n := by
  unfold world
  rw [← List.cons_append, ← List.append_assoc, Machine.running_leave]

/-- The function itself moves inside of the stretch. -/
theorem world_goto_place (p : CodePlace) (k k' : Nat) (m : Machine) (host : η) (n : Nat) :
    (⟨(t.world p k [] m host n).machine.goto (p.first + k'), host⟩ : World η) = t.world p k' [] m host n := by
  unfold world
  rw [Machine.running_goto]
  rfl

variable {evaluate : List Value → Exec η Value} {m : Machine} {host : η} {above gs : List Frame} {f : Frame} {k n n' : Nat}

/-- Both go on with the value on top. -/
theorem Alike.pop {g g' : Value → Exec η Unit} (inside : k ≤ t.length)
    (rest : ∀ v os, t.Alike (g v (t.world t.left k above { m with operands := os } host n))
      (g' v (t.world t.right k above { m with operands := os } host n'))) :
    t.Alike ((Exec.pop >>= g) (t.world t.left k above m host n)) ((Exec.pop >>= g') (t.world t.right k above m host n')) := by
  cases operands : m.operands with
  | nil =>
    rw [Exec.run_error (Exec.pop_nil operands), Exec.run_error (Exec.pop_nil operands)]
    exact .error _ (.mk m host above k inside n n')
  | cons v os =>
    rw [Exec.run_ok (Exec.pop_cons operands), Exec.run_ok (Exec.pop_cons operands)]
    exact rest v os

/-- Both jump if the value on top says so. -/
theorem Alike.branch (decides : Value → Bool) {target target' : Nat} (inside : k ≤ t.length)
    (goes : ∀ os, t.Alike (Exec.modifyMachine (·.goto target) (t.world t.left k above { m with operands := os } host n))
      (Exec.modifyMachine (·.goto target') (t.world t.right k above { m with operands := os } host n'))) :
    t.Alike ((do if decides (← Exec.pop) then Exec.modifyMachine (·.goto target)) (t.world t.left k above m host n))
      ((do if decides (← Exec.pop) then Exec.modifyMachine (·.goto target')) (t.world t.right k above m host n')) := by
  refine Alike.pop inside fun v os => ?_
  by_cases jumps : decides v
  · rw [if_pos jumps, if_pos jumps]
    exact goes os
  · rw [if_neg jumps, if_neg jumps]
    exact .ok () (.mk _ host above k inside n n')

/-- An instruction of a function above the two places. -/
theorem act_above (evaluates : ∀ args, t.Blind (evaluate args)) (i : Instr) (ret : Option Scalar) (base : Nat)
    (inside : k ≤ t.length) : t.Alike (Exec.act evaluate ret base i (t.world t.left k (gs ++ [f]) m host n))
      (Exec.act evaluate ret base i (t.world t.right k (gs ++ [f]) m host n')) := by
  have goes (os : List Value) (target : Nat) : t.Alike
      (Exec.modifyMachine (·.goto target) (t.world t.left k (gs ++ [f]) { m with operands := os } host n))
      (Exec.modifyMachine (·.goto target) (t.world t.right k (gs ++ [f]) { m with operands := os } host n')) := by
    show t.Alike (.ok () ⟨(t.world t.left k (gs ++ [f]) _ host n).machine.goto target, host⟩)
      (.ok () ⟨(t.world t.right k (gs ++ [f]) _ host n').machine.goto target, host⟩)
    rw [world_goto, world_goto]
    exact .ok () (.mk _ host _ k inside n n')
  have leaves (os : List Value) : t.Alike
      (Exec.modifyMachine Machine.leave (t.world t.left k (gs ++ [f]) { m with operands := os } host n))
      (Exec.modifyMachine Machine.leave (t.world t.right k (gs ++ [f]) { m with operands := os } host n')) := by
    show t.Alike (.ok () ⟨(t.world t.left k (gs ++ [f]) _ host n).machine.leave, host⟩)
      (.ok () ⟨(t.world t.right k (gs ++ [f]) _ host n').machine.leave, host⟩)
    rw [world_leave, world_leave]
    exact .ok () (.mk _ host _ k inside n n')
  have beside (os : List Value) := Beside.mk (t := t) { m with operands := os } host (gs ++ [f]) k inside n n'
  by_cases straight : i.isStraight
  · exact Blind.act evaluates straight ret base _ _ (beside m.operands)
  cases i with
  | jump target => exact goes m.operands target
  | jumpIfFalse target => exact Alike.branch (fun v => !v.isTruthy) inside fun os => goes os target
  | jumpIfTrue target => exact Alike.branch Value.isTruthy inside fun os => goes os target
  | call name argc =>
    exact Blind.bind (Blind.findFunction name) (fun g => .bind (.popList argc) fun args => .enter g args) _ _ (beside m.operands)
  | «return» =>
    exact Alike.pop inside fun v os => (leaves os).bind fun _ w w' _ _ => Blind.push _ w w'
  | returnVoid => exact leaves m.operands
  | _ => exact absurd rfl straight

/-- What a function returns matters for its return only. -/
theorem act_ret {i : Instr} (straight : i.isStraight) (ret ret' : Option Scalar) (base : Nat) :
    Exec.act evaluate ret base i = Exec.act evaluate ret' base i := by
  cases i with
  | builtin b argc => cases b <;> rfl
  | _ => first | rfl | cases straight

/-- The instruction of the stretch itself. -/
theorem act_moved (evaluates : ∀ args, t.Blind (evaluate args)) {i i' : Instr}
    (moved : i.Moved t.left.first t.right.first t.length i') (ret ret' : Option Scalar) (base : Nat)
    (inside : k ≤ t.length) : t.Alike (Exec.act evaluate ret base i (t.world t.left k [] m host n))
      (Exec.act evaluate ret' base i' (t.world t.right k [] m host n')) := by
  have goes (os : List Value) {target : Nat} (room : target ≤ t.length) : t.Alike
      (Exec.modifyMachine (·.goto (t.left.first + target)) (t.world t.left k [] { m with operands := os } host n))
      (Exec.modifyMachine (·.goto (t.right.first + target)) (t.world t.right k [] { m with operands := os } host n')) := by
    show t.Alike (.ok () ⟨(t.world t.left k [] _ host n).machine.goto _, host⟩)
      (.ok () ⟨(t.world t.right k [] _ host n').machine.goto _, host⟩)
    rw [world_goto_place, world_goto_place]
    exact .ok () (.mk _ host [] target room n n')
  have beside (os : List Value) := Beside.mk (t := t) { m with operands := os } host [] k inside n n'
  cases moved with
  | same noJump stays =>
    by_cases straight : i.isStraight
    · rw [act_ret straight ret' ret]
      exact Blind.act evaluates straight ret base _ _ (beside m.operands)
    · cases i with
      | call name argc =>
        exact Blind.bind (Blind.findFunction name) (fun g => .bind (.popList argc) fun args => .enter g args) _ _ (beside m.operands)
      | jump _ | jumpIfFalse _ | jumpIfTrue _ => cases noJump
      | «return» | returnVoid => cases stays
      | _ => exact absurd rfl straight
  | jump room => exact goes m.operands room
  | jumpIfFalse room => exact Alike.branch (fun v => !v.isTruthy) inside fun os => goes os room
  | jumpIfTrue room => exact Alike.branch Value.isTruthy inside fun os => goes os room

theorem advanced_above (p : CodePlace) (ip : Nat) : Exec.advanced (t.world p k (gs ++ [f]) m host n) ip =
    t.world p k (gs ++ [{ f with ip }]) m host (n + 1) :=
  world_goto p k gs f m host (n + 1) ip

theorem advanced_place (p : CodePlace) : Exec.advanced (t.world p k [] m host n) (p.first + k + 1) =
    t.world p (k + 1) [] m host (n + 1) :=
  world_goto_place p k (k + 1) m host (n + 1)

/-- One instruction is counted in both worlds. -/
theorem Alike.counted {x y : EStateM.Result MachineError (World η) Unit} {limit : Nat} {w w' : World η}
    (h : t.Alike x y) : t.Alike (if limit < n + 1 then .error { fault := .instructionLimit limit } w else x)
      (if limit < n' + 1 then .error { fault := .instructionLimit limit } w' else y) := by
  split
  · exact .left ⟨limit, rfl⟩ w _
  · split
    · exact .right ⟨limit, rfl⟩ w' _
    · exact h

theorem next_above (evaluates : ∀ args, t.Blind (evaluate args)) (inside : k ≤ t.length) :
    t.Alike (Exec.next evaluate (t.world t.left k (gs ++ [f]) m host n))
      (Exec.next evaluate (t.world t.right k (gs ++ [f]) m host n')) := by
  have frames (p : CodePlace) (c : Nat) : (t.world p k (gs ++ [f]) m host c).machine.frames.toList =
      (t.below ++ t.frame p k :: gs) ++ [f] := by
    rw [List.append_assoc]
    rfl
  rw [Exec.next_eq (frames _ _), Exec.next_eq (frames _ _)]
  cases found : f.function.code[f.ip]? with
  | none =>
    rw [Exec.step_none found, Exec.step_none found]
    exact .error _ (.mk m host _ k inside n n')
  | some i =>
    rw [Exec.step_eq found, Exec.step_eq found, advanced_above, advanced_above]
    exact .counted (act_above evaluates i _ _ inside)

theorem next_moved (evaluates : ∀ args, t.Blind (evaluate args)) (inside : k < t.length) :
    t.Alike (Exec.next evaluate (t.world t.left k [] m host n)) (Exec.next evaluate (t.world t.right k [] m host n')) := by
  have frames (p : CodePlace) (c : Nat) : (t.world p k [] m host c).machine.frames.toList = t.below ++ [t.frame p k] := rfl
  obtain ⟨i, i', found, found', moved⟩ := t.moved k inside
  rw [Exec.next_eq (frames _ _), Exec.next_eq (frames _ _), Exec.step_eq (f := t.frame t.left k) found,
    Exec.step_eq (f := t.frame t.right k) found']
  show t.Alike (if _ then _ else Exec.act evaluate t.left.function.ret t.base i (Exec.advanced _ (t.left.first + k + 1)))
    (if _ then _ else Exec.act evaluate t.right.function.ret t.base i' (Exec.advanced _ (t.right.first + k + 1)))
  rw [advanced_place, advanced_place]
  exact .counted (act_moved evaluates moved _ _ _ inside)

/-! ## Runs -/

theorem blind_run (host : Option (Host η)) (fuel : Nat) {depth : Nat} (deep : t.below.length < depth) :
    t.Blind (Exec.run host fuel depth) := by
  induction fuel generalizing depth with
  | zero => exact fun w w' _ => .left ⟨w.machine.maxInstructions, rfl⟩ w _
  | succ fuel ih =>
    rintro _ _ ⟨m, h, above, k, inside, n, n'⟩
    have depths (p : CodePlace) (c : Nat) : (t.world p k above m h c).machine.depth = t.below.length + 1 + above.length :=
      Blind.size_frames p k above m h c
    rw [Exec.run_succ, Exec.run_succ, depths, depths]
    by_cases active : depth < t.below.length + 1 + above.length
    · rw [if_pos active, if_pos active]
      rcases List.eq_nil_or_concat above with rfl | ⟨gs, f, rfl⟩
      · rw [List.length_nil] at active
        omega
      · rw [List.concat_eq_append]
        refine (next_above (fun args => .evaluate (fun name => .callWith (fun d => ih) name []) host args) inside).bind ?_
        exact fun _ w w' _ _ => ih deep w w'
    · rw [if_neg active, if_neg active]
      exact .ok () (.mk m h above k inside n n')

theorem blind_templates (host : Option (Host η)) (args : List Value) : t.Blind (Exec.templates host args) :=
  .evaluate (fun name => .reads (fun _ _ _ => rfl) fun _ => .callWith (fun _ => blind_run host _) name []) host args

variable (t) in
/-- Both runs have come to the end of the stretch, with the same machine but for the place of the code, or to the same
error, or the instructions have run out. -/
inductive Settled : EStateM.Result MachineError (World η) Unit → EStateM.Result MachineError (World η) Unit → Prop
  | ended (m : Machine) (host : η) (n n' : Nat) :
    Settled (.ok () (t.world t.left t.length [] m host n)) (.ok () (t.world t.right t.length [] m host n'))
  | error (e : MachineError) {w w' : World η} (h : t.Beside w w') : Settled (.error e w) (.error e w')
  | left {e : MachineError} (h : e.IsLimit) (w : World η) (r : EStateM.Result MachineError (World η) Unit) : Settled (.error e w) r
  | right {e : MachineError} (h : e.IsLimit) (w : World η) (r : EStateM.Result MachineError (World η) Unit) : Settled r (.error e w)

/-- After steps that are alike the rest of the runs counts. -/
theorem Alike.settled {x y f g : Exec η Unit} {w w' : World η} (h : t.Alike (x w) (y w'))
    (rest : ∀ v v', x w = .ok () v → t.Beside v v' → t.Settled (f v) (g v')) :
    t.Settled ((x >>= fun _ => f) w) ((y >>= fun _ => g) w') := by
  show t.Settled (EStateM.bind x (fun _ => f) w) (EStateM.bind y (fun _ => g) w')
  unfold EStateM.bind
  generalize x w = r at h rest
  generalize y w' = r' at h
  cases h with
  | ok _ beside => exact rest _ _ rfl beside
  | error e beside => exact .error e beside
  | left limit v r => exact .left limit v _
  | right limit v r => exact .right limit v _

/-- Code that stands in two places does the same in both of them, if it is run up to its end. -/
theorem runWhile_settled {c c' : Segment} (first : c.first ≤ t.left.first) (last : c.last = t.left.first + t.length)
    (first' : c'.first ≤ t.right.first) (last' : c'.last = t.right.first + t.length) (host : Option (Host η)) {w w' : World η}
    (beside : t.Beside w w') :
    t.Settled (Exec.runWhile (Exec.templates host) (c.holds t.below.length) w)
      (Exec.runWhile (Exec.templates host) (c'.holds t.below.length) w') := by
  have steady := Exec.steady_templates host
  induction bound : Exec.left w using Nat.strongRecOn generalizing w w' with
  | ind r ih =>
    obtain ⟨m, h, above, k, inside, n, n'⟩ := beside
    have goes (p : CodePlace) (c : Segment) (first : c.first ≤ p.first) (last : c.last = p.first + t.length) (n : Nat) :
        c.holds t.below.length (t.world p k above m h n).machine ↔ above ≠ [] ∨ k < t.length := by
      have frames : (t.world p k above m h n).machine.frames.toList = t.below ++ t.frame p k :: above := rfl
      rw [Exec.holds_iff frames]
      show _ ∨ (c.first ≤ p.first + k ∧ p.first + k < c.last) ↔ _
      refine or_congr_right ⟨fun h => by omega, fun h => by omega⟩
    by_cases more : above ≠ [] ∨ k < t.length
    · have left := (goes t.left c first last n).mpr more
      have right := (goes t.right c' first' last' n').mpr more
      have next : t.Alike (Exec.next (Exec.templates host) (t.world t.left k above m h n))
          (Exec.next (Exec.templates host) (t.world t.right k above m h n')) := by
        rcases List.eq_nil_or_concat above with rfl | ⟨gs, f, rfl⟩
        · exact next_moved (blind_templates host) (more.resolve_left fun h => h rfl)
        · rw [List.concat_eq_append]
          exact next_above (blind_templates host) inside
      rw [Exec.runWhile_eq steady Exec.holds_active, Exec.runWhile_eq steady Exec.holds_active, if_pos left, if_pos right]
      refine next.settled fun v v' ran beside => ih _ ?_ beside rfl
      rw [← bound]
      exact (Exec.left_lt steady (Exec.holds_active _ left) ran).1
    · have left := Bool.eq_false_iff.mpr fun h => more ((goes t.left c first last n).mp h)
      have right := Bool.eq_false_iff.mpr fun h => more ((goes t.right c' first' last' n').mp h)
      rw [Exec.runWhile_stop steady Exec.holds_active left, Exec.runWhile_stop steady Exec.holds_active right]
      rw [not_or, Decidable.not_not] at more
      obtain ⟨rfl, out⟩ := more
      obtain rfl : k = t.length := Nat.le_antisymm inside (Nat.le_of_not_lt out)
      exact .ended m h n n'

end Twin

end IncrementalC
