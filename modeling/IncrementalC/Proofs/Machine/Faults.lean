import IncrementalC.Machine.Display
import IncrementalC.Machine.Library
import IncrementalC.Machine.Link
import IncrementalC.Machine.Operation

/-!
# Faults of the machine's own functions

Memory, operators, formatting and the library take values, not operands. Whatever goes wrong in them,
it is nothing that the code lacks (`Ordinary`), in particular no want of operands (`Provided`). Only formatting and
printed values end the process: whatever goes wrong elsewhere is `Mild`.
-/
namespace IncrementalC
set_option autoImplicit false

/-! ## Outcomes -/

/-- What a step gave that went well, and the state after it. -/
def given? {ε σ α : Type} : EStateM.Result ε σ α → Option (α × σ)
  | .ok x s => some (x, s)
  | .error .. => none

theorem given?_eq_some {ε σ α : Type} {r : EStateM.Result ε σ α} {x : α} {s : σ} (h : given? r = some (x, s)) :
    r = .ok x s := by
  cases r <;> cases h
  rfl

/-- The error of a step that failed, and the state after it. -/
def failed? {ε σ α : Type} : EStateM.Result ε σ α → Option (ε × σ)
  | .ok .. => none
  | .error e s => some (e, s)

theorem failed?_eq_some {ε σ α : Type} {r : EStateM.Result ε σ α} {e : ε} {s : σ} (h : failed? r = some (e, s)) :
    r = .error e s := by
  cases r <;> cases h
  rfl

/-! ## Kinds of faults -/

/-- Faults of code that does not fit together or lacks a name, to which values alone do not lead. -/
def Fault.isStructural : Fault → Bool
  | .operandUnderflow | .ranPastEnd _ | .unlinkedString _ | .missingString _ | .initialValueRange _
  | .undefinedFunction _ | .undefinedSymbol _ => true
  | _ => false

theorem Fault.endsProcess_iff {f : Fault} : f.endsProcess = true ↔ f = .capacity := by
  cases f <;> simp [endsProcess]

/-- The code lacks nothing, and the process goes on. -/
def Fault.isMild (f : Fault) : Bool := !f.isStructural && !f.endsProcess

theorem Fault.isMild_iff {f : Fault} : f.isMild = true ↔ f.isStructural = false ∧ f ≠ .capacity := by
  rw [isMild, Bool.and_eq_true, Bool.not_eq_true', Bool.not_eq_true', ← Bool.not_eq_true f.endsProcess, endsProcess_iff]

/-- The faults of a computation are of a certain kind. -/
def FaultsIn {α : Type} (Q : Fault → Prop) (x : Except Fault α) : Prop := ∀ f, x = .error f → Q f

/-- The computation lacks no operands. -/
def Provided {α : Type} (x : Except Fault α) : Prop := ∀ f, x = .error f → f ≠ .operandUnderflow

/-- Whatever goes wrong, the code does not lack anything. -/
def Ordinary {α : Type} (x : Except Fault α) : Prop := FaultsIn (fun f => f.isStructural = false) x

/-- The same, and the process goes on. -/
def Mild {α : Type} (x : Except Fault α) : Prop := FaultsIn (fun f => f.isMild) x

namespace FaultsIn

variable {α β : Type} {Q : Fault → Prop}

theorem ok (x : α) : FaultsIn Q (.ok x) := nofun

theorem pure (x : α) : FaultsIn Q (Pure.pure x : Except Fault α) := ok x

theorem error {f : Fault} (h : Q f) : FaultsIn Q (.error f : Except Fault α) := by
  intro g hg
  cases hg
  exact h

theorem throw {f : Fault} (h : Q f) : FaultsIn Q (throw f : Except Fault α) := error h

theorem bind {x : Except Fault α} {f : α → Except Fault β} (hx : FaultsIn Q x)
    (hf : ∀ a, FaultsIn Q (f a)) : FaultsIn Q (x >>= f) := by
  cases x with
  | error g => exact error (hx g rfl)
  | ok a => exact hf a

theorem map {x : Except Fault α} (f : α → β) (hx : FaultsIn Q x) : FaultsIn Q (f <$> x) := by
  cases x with
  | error g => exact error (hx g rfl)
  | ok a => exact ok _

theorem ite {c : Prop} [Decidable c] {x y : Except Fault α} (hx : FaultsIn Q x) (hy : FaultsIn Q y) :
    FaultsIn Q (if c then x else y) := by
  split
  · exact hx
  · exact hy

end FaultsIn

theorem Fault.ne_operandUnderflow {f : Fault} (h : f.isStructural = false) : f ≠ .operandUnderflow := by
  rintro rfl
  cases h

theorem Ordinary.provided {α : Type} {x : Except Fault α} (h : Ordinary x) : Provided x :=
  fun f fails => Fault.ne_operandUnderflow (h f fails)

theorem Mild.ordinary {α : Type} {x : Except Fault α} (h : Mild x) : Ordinary x :=
  fun f fails => (Fault.isMild_iff.mp (h f fails)).1

namespace Machine

variable (m : Machine)

theorem isMild_badAddress (bits : UInt64) : (badAddress bits).isMild := by
  unfold badAddress
  split <;> rfl

theorem mild_read (bits : UInt64) : Mild (m.read bits) := by
  unfold read
  split
  · exact .ok _
  · exact .error (isMild_badAddress bits)

theorem mild_slotsFrom (count : Nat) (a : Address) (found : List Value) :
    Mild (m.slotsFrom count a found) := by
  induction count generalizing a found with
  | zero => exact .ok _
  | succ count ih => exact .bind (m.mild_read _) fun v => ih _ _

theorem mild_bytesFrom (count : Nat) (a : Address) (found : List UInt8) :
    Mild (m.bytesFrom count a found) := by
  induction count generalizing a found with
  | zero => exact .error (isMild_badAddress _)
  | succ count ih => exact .bind (m.mild_read _) fun v => .ite (.pure _) (ih _ _)

theorem mild_text (p : Value) : Mild (m.text p) := .map _ (m.mild_bytesFrom _ _ _)

theorem faultsIn_reserve {Q : Fault → Prop} {bytes : Nat} (h : bufferLimit < bytes → Q .capacity) :
    FaultsIn Q (reserve bytes) := by
  unfold reserve
  split
  · exact .error (h ‹_›)
  · exact .ok _

theorem ordinary_reserve (bytes : Nat) : Ordinary (reserve bytes) := faultsIn_reserve fun _ => rfl

end Machine

/-! ## Operators -/

namespace Operation

theorem mild_floats (op : Code.BinaryOp) (kind : Scalar) (x y : Double) :
    Mild (floats op kind x y) := by
  unfold floats
  dsimp only
  split <;> first | exact .pure _ | exact .bind (.throw rfl) fun _ => .pure _

theorem mild_pointers (op : Code.BinaryOp) (x y : UInt64) : Mild (pointers op x y) := by
  unfold pointers
  split <;> first | exact .ok _ | exact .error rfl

theorem mild_integers (op : Code.BinaryOp) (kind : Scalar) (x y : Int64) :
    Mild (integers op kind x y) := by
  have divides : Mild (if y = 0 then .error .divisionByZero else .ok () : Except Fault Unit) :=
    .ite (.error rfl) (.ok _)
  unfold integers
  dsimp only
  split
  case h_4 | h_5 => exact .bind divides fun _ => .pure _
  all_goals first | exact .pure _ | exact .bind (.throw rfl) fun _ => .pure _

theorem mild_binary (op : Code.BinaryOp) (kind : Scalar) (a b : Value) :
    Mild (binary op kind a b) := by
  unfold binary
  refine .ite (.ok _) (.ite (mild_floats _ _ _ _) (.ite (mild_pointers _ _ _) ?_))
  exact .map _ (mild_integers _ _ _ _)

theorem mild_unary (op : Code.UnaryOp) (kind : Scalar) (v : Value) :
    Mild (unary op kind v) := by
  unfold unary
  dsimp only
  split
  · exact .ok _
  · exact .ite (.ok _) (.ite (.error rfl) (.ok _))
  · exact .ite (.ok _) (.error rfl)

end Operation

/-! ## Formatted output -/

namespace Format

/-- The same for a computation that takes arguments. -/
def OrdinaryFormatting {α : Type} (m : Formatting α) : Prop := ∀ args, Ordinary (m.run args)

namespace OrdinaryFormatting

variable {α β : Type}

theorem pure (x : α) : OrdinaryFormatting (Pure.pure x : Formatting α) := fun _ => .ok _

theorem bind {m : Formatting α} {f : α → Formatting β} (hm : OrdinaryFormatting m)
    (hf : ∀ x, OrdinaryFormatting (f x)) : OrdinaryFormatting (m >>= f) :=
  fun args => .bind (hm args) fun r => hf r.1 r.2

theorem lift {x : Except Fault α} (hx : Ordinary x) :
    OrdinaryFormatting (liftM x : Formatting α) :=
  fun _ => .bind hx fun _ => .ok _

theorem throw {f : Fault} (h : f.isStructural = false) :
    OrdinaryFormatting (throw f : Formatting α) := lift (.error h)

theorem take : OrdinaryFormatting take := by
  intro args
  cases args with
  | nil => exact .error rfl
  | cons v args => exact .ok _

theorem taken {f : Value → Except Fault α} (hf : ∀ v, Ordinary (f v)) : OrdinaryFormatting (do f (← Format.take)) :=
  bind take fun v => lift (hf v)

theorem layoutPrecision (d : Directive) (left : Bool) (width : Nat) :
    OrdinaryFormatting (do
      let precision ← match d.precision with
        | none => Pure.pure none
        | some (.number n) => Pure.pure (some n)
        | some .argument => do
          let p := (← Format.take).word.toInt
          Pure.pure (if 0 ≤ p then some p.toNat else none)
      return ({ directive := d, left, width, precision } : Layout)) := by
  dsimp only
  split
  · exact bind (pure _) fun _ => pure _
  · exact bind (pure _) fun _ => pure _
  · exact bind take fun _ => bind (pure _) fun _ => pure _

theorem layout (d : Directive) : OrdinaryFormatting (layout d) := by
  unfold Format.layout
  dsimp only
  split
  · exact bind (pure _) fun r => layoutPrecision d r.1 r.2
  · exact bind take fun _ => bind (pure _) fun r => layoutPrecision d r.1 r.2

theorem pad (l : Layout) (lead body : List Char) (zeros : Bool) : Ordinary (l.pad lead body zeros) :=
  .bind (Machine.ordinary_reserve _) fun _ => .pure _

theorem digits (l : Layout) (base n : Nat) : Ordinary (l.digits base n) :=
  .bind (Machine.ordinary_reserve _) fun _ => .pure _

theorem signed (l : Layout) (v : Int64) : Ordinary (l.signed v) := .bind (digits _ _ _) fun _ => pad _ _ _ _

theorem unsigned (l : Layout) (v : UInt64) (base : Nat) (upper : Bool) (mark : Nat → List Char → List Char) :
    Ordinary (l.unsigned v base upper mark) := .bind (digits _ _ _) fun _ => pad _ _ _ _

theorem float (l : Layout) (x : Double) (conversion : Char) : Ordinary (l.float x conversion) := by
  unfold Layout.float
  dsimp only
  split
  · exact .bind (Machine.ordinary_reserve _) fun _ => pad _ _ _ _
  · exact pad _ _ _ _

theorem string (m : Machine) (l : Layout) (p : Value) : Ordinary (string m l p) := by
  unfold Format.string
  dsimp only
  split
  · exact .bind (.pure _) fun _ => pad _ _ _ _
  · exact .bind (m.mild_text p).ordinary fun _ => pad _ _ _ _

theorem directive (m : Machine) (d : Directive) : OrdinaryFormatting (directive m d) := by
  unfold Format.directive
  refine bind (layout d) fun l => ?_
  split
  · exact pure _
  · split
    case h_1 => exact pure _
    case h_2 | h_3 => exact taken fun _ => signed _ _
    case h_4 | h_5 | h_6 | h_7 => exact taken fun _ => unsigned _ _ _ _ _
    case h_8 | h_10 => exact taken fun _ => pad _ _ _ _
    case h_9 => exact taken fun p => string m l p
    case h_17 => exact throw rfl
    all_goals exact taken fun _ => float _ _ _

theorem piece (m : Machine) : ∀ p : Piece, OrdinaryFormatting (piece m p)
  | .text _ => pure _
  | .directive d => directive m d

theorem all (m : Machine) (before : Nat) (ps : List Piece) : OrdinaryFormatting (all m before ps) := by
  induction ps generalizing before with
  | nil => exact pure _
  | cons p ps ih =>
    exact bind (piece m p) fun _ => bind (lift (Machine.ordinary_reserve _)) fun _ => bind (ih _) fun _ => pure _

end OrdinaryFormatting

end Format

theorem Machine.ordinary_format (m : Machine) (fmt : String) (args : List Value) :
    Ordinary (m.format fmt args) :=
  .map _ (Format.OrdinaryFormatting.all m 0 _ args)

/-- All of the library but formatted output leaves the process alone. -/
theorem Machine.mild_library (m : Machine) {b : Builtin} (other : b ≠ .printf) (args : List Value) :
    Mild (m.library b args) := by
  have argument (i : Nat) : Mild (Library.argument b args i) := by
    unfold Library.argument
    split
    · exact .ok _
    · exact .error rfl
  have one {α : Type} (f : Value → α) : Mild (do return f (← Library.argument b args 0)) :=
    .bind (argument 0) fun _ => .pure _
  have text {α : Type} (f : String → α) : Mild (do return f (← m.text (← Library.argument b args 0))) :=
    .bind (argument 0) fun p => .bind (m.mild_text p) fun _ => .pure _
  unfold Machine.library
  dsimp only
  cases b with
  | printf => exact absurd rfl other
  | puts | strlen => exact text _
  | putchar | abs | labs | fabs | sqrt | floor | ceil => exact one _
  | pow => exact .bind (argument 0) fun _ => .bind (argument 1) fun _ => .pure _
  | eval | printValue | setResult => exact .throw rfl

theorem Machine.library_printf (m : Machine) (p : Value) (args : List Value) : m.library .printf (p :: args) = (do
    let text ← m.format (← m.text p) args
    return (.int (Int64.ofNat text.utf8ByteSize), text)) := rfl

theorem Machine.ordinary_library (m : Machine) (b : Builtin) (args : List Value) : Ordinary (m.library b args) := by
  by_cases printf : b = .printf
  · subst printf
    cases args with
    | nil => exact .error rfl
    | cons p args =>
      rw [library_printf]
      exact .bind (m.mild_text p).ordinary fun fmt => .bind (m.ordinary_format fmt args) fun _ => .pure _
  · exact (m.mild_library printf args).ordinary

/-! ## Printed values -/

namespace Display

mutual

/-- An array in the shape has so many elements that there can be no room for their texts. Characters take none. -/
def isLarge : PrintShape → Bool
  | .array _ elem length _ => !isChar elem && (decide (Machine.bufferLimit < length * textSize) || isLarge elem)
  | .record _ fields => anyLarge fields
  | _ => false

def anyLarge : List (String × Nat × PrintShape) → Bool
  | [] => false
  | (_, _, shape) :: fields => isLarge shape || anyLarge fields

end

variable (m : Machine)

theorem mild_part (shape : PrintShape) (a : Address) : Mild (part m shape a) := by
  unfold part
  refine .ite (.pure _) (.bind (m.mild_read _) fun raw => ?_)
  exact .pure _

theorem mild_characters (count : Nat) (a : Address) (found : List UInt8) :
    Mild (characters m count a found) := by
  induction count generalizing a found with
  | zero => exact .ok _
  | succ count ih => exact .bind (m.mild_read _) fun v => .ite (.pure _) (ih _ _)

theorem faultsIn_elements {Q : Fault → Prop} {item : Address → Except Fault String} (hitem : ∀ a, FaultsIn Q (item a))
    (stride : Int64) (count : Nat) (a : Address) (found : List String) :
    FaultsIn Q (elements item stride count a found) := by
  induction count generalizing a found with
  | zero => exact .ok _
  | succ count ih => exact .bind (hitem a) fun s => ih _ _

section

variable {Q : Fault → Prop} (mild : ∀ f : Fault, f.isMild → Q f)
include mild

mutual

/-- Whatever goes wrong is mild, unless an array is too large. -/
theorem faultsIn_body (v : Value) : ∀ {shape : PrintShape}, (isLarge shape → Q .capacity) → FaultsIn Q (body m v shape)
  | .scalar .., _ | .char .., _ | .cString _, _ | .pointer _, _ | .enum _, _ | .dynamic, _ => .ok _
  | .array _ elem length stride, room => by
    unfold body
    dsimp only
    by_cases char : isChar elem
    · rw [if_pos char]
      exact .bind (fun f fails => mild f (mild_characters m _ _ _ f fails)) fun _ => .pure _
    · rw [if_neg char]
      rw [Bool.not_eq_true] at char
      have inner : isLarge elem → Q .capacity := fun large => room (by rw [isLarge, char, large, Bool.or_true]; rfl)
      have reserves : FaultsIn Q (Machine.reserve (length * textSize)) :=
        Machine.faultsIn_reserve fun more => room (by rw [isLarge, char, decide_eq_true more]; rfl)
      refine .bind reserves fun _ => .bind (faultsIn_elements (fun a => ?_) _ _ _ _) fun _ => .pure _
      exact .bind (fun f fails => mild f (mild_part m elem a f fails)) fun v => faultsIn_body v inner
  | .record _ fields, room => by
    unfold body
    exact .bind (faultsIn_fieldTexts _ room) fun _ => .pure _

theorem faultsIn_fieldTexts (base : Address) : ∀ {fields : List (String × Nat × PrintShape)},
    (anyLarge fields → Q .capacity) → FaultsIn Q (fieldTexts m base fields)
  | [], _ => .ok _
  | (name, slot, shape) :: fields, room => by
    have first : isLarge shape → Q .capacity := fun large => room (by rw [anyLarge, large]; rfl)
    have others : anyLarge fields → Q .capacity := fun large => room (by rw [anyLarge, large, Bool.or_true])
    unfold fieldTexts
    exact .bind (fun f fails => mild f (mild_part m shape _ f fails)) fun v => .bind (faultsIn_body v first) fun s =>
      .bind (faultsIn_fieldTexts base others) fun _ => .pure _

end

end

end Display

theorem Machine.ordinary_render (m : Machine) (shape : PrintShape) (v : Value) : Ordinary (m.render shape v) :=
  .bind (Display.faultsIn_body m (fun _ mild => (Fault.isMild_iff.mp mild).1) v fun _ => rfl) fun _ => .pure _

/-- Printing ends the process only if an array is too large. -/
theorem Machine.isLarge_of_render {m : Machine} {shape : PrintShape} {v : Value} (h : m.render shape v = .error .capacity) :
    Display.isLarge shape := by
  refine Decidable.byContradiction fun small => ?_
  have fails : FaultsIn (· ≠ .capacity) (m.render shape v) :=
    .bind (Display.faultsIn_body m (fun _ mild => (Fault.isMild_iff.mp mild).2) v fun large => absurd large small) fun _ => .pure _
  exact fails _ h rfl

end IncrementalC
