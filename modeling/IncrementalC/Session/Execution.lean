import IncrementalC.Machine.Run
import IncrementalC.Session.Error
import IncrementalC.Session.History

/-!
# Running a compiled fragment

`Execution.start` links a fragment, records its declarations and runs its initializers, each once
and in order. An initializer is dropped as soon as it has run.
-/
namespace IncrementalC
set_option autoImplicit false

structure CompiledFragment where
  module : CodeModule := {}
  /-- The declarations of the fragment. -/
  decls : List DeclRecord := []
  /-- The function to call, if there is one. -/
  entry : Option String := none

/-- The program as it runs, and what was declared. -/
structure Execution (η : Type) where
  world : World η
  history : History := {}

abbrev Running (η : Type) := EStateM SessionError (Execution η)

namespace Execution

variable {η : Type}

/-- Runs steps of the machine. -/
def ofExec {α : Type} (wrap : MachineError → SessionError) (steps : Exec η α) : Running η α := fun e =>
  match steps e.world with
  | .ok x world => .ok x { e with world }
  | .error m world => .error (wrap m) { e with world }

/-- A function that exists already shows that names went wrong. -/
def linkError (e : MachineError) : SessionError :=
  match e.fault with
  | .duplicateFunction name => .collision name
  | _ => .machine e

/-- Calls a function and drops it. -/
def callOnce (host : Option (Host η)) (name : String) : Running η Unit :=
  ofExec .machine <| Exec.always (do let _ ← Exec.call host name []) (·.removeFunction name)

def callEachOnce (host : Option (Host η)) : List String → Running η Unit
  | [] => return
  | name :: names => do
    callOnce host name
    callEachOnce host names

/-- Links a fragment and runs its initializers. Returns the function to call. -/
def start (host : Option (Host η)) (f : CompiledFragment) : Running η (Option String) := do
  let initializers ← ofExec linkError (Exec.link f.module)
  modify fun e => { e with history := e.history.append f.decls }
  callEachOnce host initializers
  return f.entry

/-- Calls a function without arguments. One that does not exist has nothing to do. -/
def enter (host : Option (Host η)) (name : String) : Running η (Option Value) := do
  if (← get).world.machine.hasFunction name then ofExec .machine (Exec.call host name [])
  else return none

end Execution

end IncrementalC
