import IncrementalC.Machine.Display
import IncrementalC.Machine.Library
import IncrementalC.Machine.Link
import IncrementalC.Machine.Operation

/-!
# Running code

One loop runs the instructions of the innermost active function. A call adds a frame, a return drops
one, and the loop ends when the frame that it began with is gone.

Arithmetic on words and addresses wraps around, as it does where overflow is not checked.

Templates are evaluated by a `Host`, which turns a template into code. The machine links that code
and runs it in a loop of its own, on the same memory.

* `World`: a machine and the state of its host.
* `Exec`: steps that change a world; what was done before an error stays.
* `call`: runs a function from its first instruction to its end.
-/
namespace IncrementalC
set_option autoImplicit false

structure World (η : Type) where
  machine : Machine
  host : η

/-- A template as a module, and the function of the module that evaluates it. -/
structure TemplateCode where
  module : CodeModule
  entry : String

/-- Turns templates into code. -/
structure Host (η : Type) where
  /-- The code for a template whose marks stand for the addresses. -/
  compile : η → (handle : UInt64) → (template : String) → (addresses : List UInt64) →
    Except Fault TemplateCode × η

abbrev Exec (η : Type) := EStateM MachineError (World η)

namespace Exec

variable {η : Type}

@[inline] def fail {α : Type} (f : Fault) : Exec η α := throw { fault := f }

@[inline] def ofExcept {α : Type} (x : Except Fault α) : Exec η α :=
  match x with
  | .ok a => return a
  | .error f => fail f

@[inline] def machine : Exec η Machine := return (← get).machine

@[inline] def modifyMachine (f : Machine → Machine) : Exec η Unit :=
  modify fun w => { w with machine := f w.machine }

/-! ## The operand stack -/

def push (v : Value) : Exec η Unit :=
  modifyMachine fun m => { m with operands := v :: m.operands }

def pop : Exec η Value := do
  let w ← get
  match w.machine.operands with
  | v :: rest =>
    set { w with machine := { w.machine with operands := rest } }
    return v
  | [] => fail .operandUnderflow

/-- The top `n` values in the order in which they were pushed. -/
def popList (n : Nat) : Exec η (List Value) := do
  let w ← get
  let all := w.machine.operands
  if all.length < n then fail .operandUnderflow
  else
    set { w with machine := { w.machine with operands := all.drop n } }
    return (all.take n).reverse

end Exec

/-! ## Frames -/

namespace Machine

/-- Slots of a frame: the parameters come first. -/
def frameSize (f : CodeFunction) : Nat := max f.frameSlots f.params.length

/-- The first slots of a frame hold the arguments, the others zeros. -/
def frameValues (f : CodeFunction) (args : List Value) : Array Value :=
  let params := ((args.zip f.params).map fun (v, kind) => v.coerce kind).toArray
  params ++ Array.replicate (frameSize f - params.size) (Value.int 0)

/-- Why a function cannot become active. -/
def refusal? (m : Machine) (f : CodeFunction) (argc : Nat) : Option Fault :=
  if m.maxDepth ≤ m.frames.size then some (.stackOverflow m.maxDepth)
  else if argc ≠ f.params.length then some (.argumentCount f.name f.params.length argc)
  else none

/-- Makes a function active. -/
def enter (m : Machine) (f : CodeFunction) (args : List Value) : Machine :=
  let frame : Frame :=
    { function := f, ip := 0, base := m.stack.size, operandBase := m.operands.length }
  { m with stack := m.stack ++ frameValues f args, frames := m.frames.push frame }

/-- The lowest `height` values of an operand stack. -/
def lowest (operands : List Value) (height : Nat) : List Value :=
  operands.drop (operands.length - height)

/-- Leaves the innermost active function. -/
def leave (m : Machine) : Machine :=
  match m.frames.back? with
  | some f =>
    { m with
      frames := m.frames.pop
      stack := m.stack.shrink f.base
      operands := lowest m.operands f.operandBase }
  | none => m

/-- Moves the innermost active function to an instruction. -/
@[inline] def goto (m : Machine) (ip : Nat) : Machine :=
  { m with frames := m.frames.modify (m.frames.size - 1) fun f => { f with ip } }

/-! What a step reads of a machine is read by calls, so that no part of the machine is shared while
the step changes it. -/

/-- The number of active functions. -/
@[noinline] def depth (m : Machine) : Nat := m.frames.size

@[noinline] def innermost (m : Machine) (active : 0 < m.depth) : Frame :=
  have inside : m.frames.size - 1 < m.frames.size := Nat.sub_one_lt (Nat.ne_of_gt active)
  m.frames[m.frames.size - 1]

/-- Moves the innermost active function to an instruction and counts the one before it. -/
@[noinline] def advance (m : Machine) (ip : Nat) : Machine :=
  { m.goto ip with instructionCount := m.instructionCount + 1 }

/-- Why no instruction may follow. -/
@[noinline] def exhausted? (m : Machine) : Option Fault :=
  if m.maxInstructions < m.instructionCount then some (.instructionLimit m.maxInstructions) else none

/-- The active functions from a depth on. -/
def trace (m : Machine) (depth : Nat) : List TraceEntry :=
  (m.frames.toList.drop depth).map fun f => ⟨f.function.name, f.ip - 1⟩

/-- Writes the text of a value. -/
def print (m : Machine) (v : Value) (text : String) : Machine :=
  { m.emit (text ++ "\n") with printed := m.printed.push ⟨text, v⟩ }

end Machine

namespace Exec

variable {η : Type}

def findFunction (name : String) : Exec η CodeFunction := do
  match (← machine).functions.get? name with
  | some f => return f
  | none => fail (.undefinedFunction name)

@[inline] def load (p : UInt64) : Exec η Value := do ofExcept ((← machine).read p)

@[inline] def store (p : UInt64) (v : Value) : Exec η Unit := do
  if (← machine).isMapped p then modifyMachine (·.put p v) else fail (Machine.badAddress p)

def enter (f : CodeFunction) (args : List Value) : Exec η Unit := do
  match (← machine).refusal? f args.length with
  | some fault => fail fault
  | none => modifyMachine (·.enter f args)

/-! ## Templates -/

/-- Runs a linked step of the machine. -/
def link (c : CodeModule) : Exec η (List String) := fun w =>
  match Machine.link c w.machine with
  | .ok names m => .ok names { w with machine := m }
  | .error f m => .error { fault := f } { w with machine := m }

/-- Runs a step. After an error the machine is as high as before, and the error tells what was
active. -/
def guarded (step : Exec η Unit) : Exec η Unit := fun w =>
  let depth := w.machine.frames.size
  let stackSize := w.machine.stack.size
  let height := w.machine.operands.length
  match step w with
  | .ok _ w => .ok () w
  | .error e w =>
    let m := w.machine
    let m' := { m with
      frames := m.frames.shrink depth
      stack := m.stack.shrink stackSize
      operands := Machine.lowest m.operands height }
    .error (e.withTrace (m.trace depth)) { w with machine := m' }

/-- Takes the value of a function that has returned from the stack, if there is one. -/
def takeResult (f : CodeFunction) : Exec η (Option Value) := do
  if f.ret.isNone then return none
  let w ← get
  match w.machine.operands with
  | v :: rest =>
    set { w with machine := { w.machine with operands := rest } }
    return some v
  | [] => return none

/-- Makes a function active and runs it to its end with `run`, which takes the number of frames to
come back to. -/
def callWith (run : Nat → Exec η Unit) (name : String) (args : List Value) :
    Exec η (Option Value) := do
  let f ← findFunction name
  let depth := (← machine).frames.size
  if depth = 0 then modifyMachine ({ · with instructionCount := 0 })
  guarded do
    enter f args
    run depth
  takeResult f

/-- Calls functions one after the other, up to the first error. -/
def callAll (call : String → Exec η (Option Value)) : List String → Exec η Unit
  | [] => return
  | name :: names => do
    let _ ← call name
    callAll call names

/-- Runs a step and then another one, whether or not the first one fails. -/
def always (step : Exec η Unit) (last : Machine → Machine) : Exec η Unit := fun w =>
  match step w with
  | .ok _ w => .ok () { w with machine := last w.machine }
  | .error e w => .error e { w with machine := last w.machine }

/-- The value that the code of a template hands over. The functions of the code are dropped. -/
def runTemplate (call : String → Exec η (Option Value)) (code : TemplateCode) : Exec η Value := do
  let before := (← machine).results.size
  let names := (← link code.module) ++ [code.entry]
  always (callAll call names) fun m => names.foldl Machine.removeFunction m
  let m ← machine
  if before < m.results.size then
    modifyMachine fun m => { m with results := m.results.pop }
    return (m.results.back?).getD .void
  return .void

/-- The value of a template. -/
def evaluate (host : Option (Host η)) (call : String → Exec η (Option Value)) (args : List Value) :
    Exec η Value := do
  match host with
  | none => fail .noHost
  | some host =>
    let handle := (args.head?.map Value.bits).getD 0
    let template ← ofExcept ((← machine).text ((args[1]?).getD (.ptr 0)))
    let addresses := (args.drop 2).map Value.bits
    let w ← get
    let (result, h) := host.compile w.host handle template addresses
    set { w with host := h }
    runTemplate call (← ofExcept result)

/-! ## Instructions -/

/-- Runs a builtin on its arguments. Templates are left to `step`. -/
def builtin (b : Builtin) (args : List Value) : Exec η Unit := do
  match b with
  | .setResult => modifyMachine fun m => { m with results := m.results.push (args.headD .void) }
  | b =>
    let (v, text) ← ofExcept ((← machine).library b args)
    modifyMachine (·.emit text)
    push v

/-- Writes values to consecutive slots, one by one. -/
def storeAll : Address → List Value → Exec η Unit
  | _, [] => return
  | a, v :: vs => do
    store a.encode v
    storeAll (a.offset 1) vs

/-- All slots are read before the first one is written. -/
def copySlots (count : Nat) : Exec η Unit := do
  let source := Address.decode (← pop).bits
  let target ← pop
  let values ← ofExcept ((← machine).slotsFrom count source [])
  storeAll (Address.decode target.bits) values
  push target

/-- Runs an instruction of a function whose frame begins at slot `base`. The frame points to the
next instruction already. -/
def instr (ret : Option Scalar) (base : Nat) : Instr → Exec η Unit
  | .pushInt v => push (.int v)
  | .pushFloat x => push (.float x)
  | .pushPtr p => push (.ptr p)
  | .pushStr i => fail (.unlinkedString i)
  | .localAddr slot => push (.ptr (Address.stack (base + slot)).encode)
  | .globalAddr name => do
    match (← machine).objectAddress? name with
    | some p => push (.ptr p)
    | none => fail (.undefinedSymbol name)
  | .load kind => do
    let v ← load (← pop).bits
    push (v.coerce kind)
  | .store kind => do
    let v := (← pop).coerce kind
    store (← pop).bits v
    push v
  | .copySlots count => copySlots count
  | .dup => do
    match (← machine).operands with
    | v :: _ => push v
    | [] => fail .operandUnderflow
  | .pop => do let _ ← pop
  | .convert source target => do push ((← pop).convert source target)
  | .binary op kind => do
    let b ← pop
    let a ← pop
    push (← ofExcept (Operation.binary op kind a b))
  | .unary op kind => do push (← ofExcept (Operation.unary op kind (← pop)))
  | .ptrAdd stride => do
    let n := (← pop).word
    let p := Address.decode (← pop).bits
    push (.ptr (p.offset (n * stride)).encode)
  | .ptrDiff stride => do
    let b := Address.decode (← pop).bits
    let a := Address.decode (← pop).bits
    push (.int ((a.index.toInt64 - b.index.toInt64) / (if stride < 1 then 1 else stride)))
  | .incDec kind amount post => do
    let p := (← pop).bits
    let old := (← load p).coerce kind
    let new := Operation.increment kind old amount
    store p new
    push (if post then old else new)
  | .jump target => modifyMachine (·.goto target)
  | .jumpIfFalse target => do
    if !(← pop).isTruthy then modifyMachine (·.goto target)
  | .jumpIfTrue target => do
    if (← pop).isTruthy then modifyMachine (·.goto target)
  | .call name argc => do
    let f ← findFunction name
    enter f (← popList argc)
  | .builtin b argc => do builtin b (← popList argc)
  | .printValue shape => do
    let v ← pop
    let text ← ofExcept ((← machine).render shape v)
    modifyMachine (·.print v text)
  | .return => do
    let v ← pop
    modifyMachine Machine.leave
    push (match ret with
      | some kind => v.coerce kind
      | none => v)
  | .returnVoid => modifyMachine Machine.leave

/-- Runs an instruction, the evaluation of a template included. -/
@[inline] def act (evaluate : List Value → Exec η Value) (ret : Option Scalar) (base : Nat)
    (i : Instr) : Exec η Unit :=
  match i with
  | .builtin .eval argc => do push (← evaluate (← popList argc))
  | i => instr ret base i

/-- Runs the next instruction of a frame. It is counted first, and then the limit is checked. -/
@[inline] def step (evaluate : List Value → Exec η Value) (f : Frame) : Exec η Unit := do
  match f.function.code[f.ip]? with
  | none => fail (.ranPastEnd f.function.name)
  | some i =>
    modifyMachine (·.advance (f.ip + 1))
    if let some fault := (← machine).exhausted? then fail fault
    act evaluate f.function.ret f.base i

/-! ## The loop -/

/-- Runs until `depth` frames are left. Each instruction counts and their number is limited, so that
`fuel` instructions, the limit and one more, are always enough. -/
def run (host : Option (Host η)) : Nat → Nat → Exec η Unit
  | 0, _ => do fail (.instructionLimit (← machine).maxInstructions)
  | fuel + 1, depth => do
    let m ← machine
    if active : depth < m.depth then
      step (evaluate host fun name => callWith (run host fuel) name [])
        (m.innermost (Nat.zero_lt_of_lt active))
      run host fuel depth

/-- Calls a function and runs it to its end. -/
def call (host : Option (Host η)) (name : String) (args : List Value) : Exec η (Option Value) := do
  let m ← machine
  callWith (run host (m.maxInstructions + 2)) name args

end Exec

end IncrementalC
