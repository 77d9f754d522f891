import IncrementalC.Machine.Display
import IncrementalC.Machine.Library

/-!
# What is read

Reading, formatting and printing look at the two regions of the memory and at nothing else of a machine
(`Machine.SameMemory`).
-/
namespace IncrementalC.Machine
set_option autoImplicit false

structure SameMemory (m m' : Machine) : Prop where
  globals : m'.globals = m.globals
  stack : m'.stack = m.stack

namespace SameMemory

variable {m m' : Machine} (same : m.SameMemory m')
include same

theorem read (p : UInt64) : m'.read p = m.read p := by
  unfold Machine.read read?
  rw [same.globals, same.stack]

theorem slotsFrom (count : Nat) (a : Address) (found : List Value) : m'.slotsFrom count a found = m.slotsFrom count a found := by
  induction count generalizing a found with
  | zero => rfl
  | succ count ih => simp only [Machine.slotsFrom, same.read, ih]

theorem bytesFrom (count : Nat) (a : Address) (found : List UInt8) : m'.bytesFrom count a found = m.bytesFrom count a found := by
  induction count generalizing a found with
  | zero => rfl
  | succ count ih => simp only [Machine.bytesFrom, same.read, ih]

theorem text (p : Value) : m'.text p = m.text p := by
  unfold Machine.text
  rw [same.globals, same.stack, same.bytesFrom]

/-! ## The library -/

theorem format (fmt : String) (args : List Value) : m'.format fmt args = m.format fmt args := by
  have string (l : Format.Layout) (p : Value) : Format.string m' l p = Format.string m l p := by
    unfold Format.string
    rw [same.text]
  have directive (d : Format.Directive) : Format.directive m' d = Format.directive m d := by
    unfold Format.directive
    simp only [string]
  have piece (p : Format.Piece) : Format.piece m' p = Format.piece m p := by
    cases p with
    | text c => rfl
    | directive d => exact directive d
  have all (before : Nat) (ps : List Format.Piece) : Format.all m' before ps = Format.all m before ps := by
    induction ps generalizing before with
    | nil => rfl
    | cons p ps ih => simp only [Format.all, piece, ih]
  unfold Machine.format
  rw [all]

theorem library (b : Builtin) (args : List Value) : m'.library b args = m.library b args := by
  unfold Machine.library
  simp only [same.text, same.format]

/-! ## Printed values -/

theorem part (shape : PrintShape) (a : Address) : Display.part m' shape a = Display.part m shape a := by
  unfold Display.part
  rw [same.read]

theorem characters (count : Nat) (a : Address) (found : List UInt8) :
    Display.characters m' count a found = Display.characters m count a found := by
  induction count generalizing a found with
  | zero => rfl
  | succ count ih => simp only [Display.characters, same.read, ih]

mutual

theorem body (v : Value) : ∀ shape : PrintShape, Display.body m' v shape = Display.body m v shape
  | .scalar .. | .char .. | .pointer _ | .enum _ | .dynamic => rfl
  | .cString _ => by
    unfold Display.body Display.cString
    rw [same.text]
  | .array _ elem length stride => by
    unfold Display.body
    simp only [same.characters, same.part, body _ elem]
  | .record _ fields => by
    unfold Display.body
    rw [fieldTexts _ fields]

theorem fieldTexts (base : Address) : ∀ fields : List (String × Nat × PrintShape),
    Display.fieldTexts m' base fields = Display.fieldTexts m base fields
  | [] => rfl
  | (name, slot, shape) :: fields => by
    unfold Display.fieldTexts
    simp only [same.part, body _ shape, fieldTexts base fields]

end

theorem render (shape : PrintShape) (v : Value) : m'.render shape v = m.render shape v := by
  unfold Machine.render
  rw [same.body]

end SameMemory

end IncrementalC.Machine
