import IncrementalC.Proofs.Analysis.Reached
import IncrementalC.Proofs.Lowering.StatementCode
import IncrementalC.Proofs.Machine.Calls
import IncrementalC.Proofs.Syntax.UnitWritten
import IncrementalC.Unit.Basic

/-!
# Accepted programs keep the operand stack in order

`Lowered S c`: the module `c` was made of accepted groups, each of which gives a value wherever one is
taken. `Loaded S host m`: the machine `m` got its functions from such modules. On such a machine a call
gives the operand stack back as high as it found it, with a result exactly if the function has a
return kind, and lowering an accepted group can fail only for a part of the language that has no code
(`calls_keep_operands`).
-/
namespace IncrementalC
set_option autoImplicit false
open Lowering

variable {η : Type} {S : Signatures}

/-! ## Modules and machines -/

/-- An accepted group in a program with the signatures `S`. -/
structure GroupOf (S : Signatures) (a : Analysis) (t : Syntax.TopLevel) (t' : Typed.TopLevel) : Prop where
  reached : a.Reached
  written : t.Written
  noFallback : a.fallback = none
  accepted : (a.analyze t).1 = .ok t'
  declared : ∀ name sig, (a.analyze t).2.signature? name = some sig → S name = some sig
  filled : t'.filled (a.analyze t).2.types

/-- Modules that groups are lowered to, one behind the other. -/
inductive Lowered (S : Signatures) : CodeModule → Prop where
  | empty : Lowered S {}
  | group {c c' : CodeModule} {a : Analysis} {t : Syntax.TopLevel} {t' : Typed.TopLevel}
      (h : Lowered S c) (group : GroupOf S a t t') (code : lower (a.analyze t).2 t' c = .ok c') :
      Lowered S c'

/-- The host compiles templates to modules of the program, and lacks no operands itself. -/
structure Host.Lowers (S : Signatures) (host : Host η) : Prop where
  provided : ∀ x handle template addresses, Provided (host.compile x handle template addresses).1
  code : ∀ x handle template addresses c,
    (host.compile x handle template addresses).1 = .ok c → Lowered S c.module

/-- What a step leaves, whether or not it fails. -/
def EStateM.Result.state {ε σ α : Type} : EStateM.Result ε σ α → σ
  | .ok _ s | .error _ s => s

/-- Linking, calling and removing lead from a machine without functions to this one. -/
inductive Loaded (S : Signatures) (host : Option (Host η)) : Machine → Prop where
  | start {m : Machine} (none : m.functions = {}) : Loaded S host m
  | link {m : Machine} {c : CodeModule} (h : Loaded S host m) (code : Lowered S c) :
      Loaded S host (EStateM.Result.state (Machine.link c m))
  | call {w : World η} (h : Loaded S host w.machine) (name : String) (args : List Value) :
      Loaded S host (EStateM.Result.state (Exec.call host name args w)).machine
  | remove {m : Machine} (h : Loaded S host m) (name : String) : Loaded S host (m.removeFunction name)

/-- No function is declared under the name of one that stores initial values. -/
def Signatures.Unreserved (S : Signatures) : Prop := ∀ name, S (initializerName name) = none

theorem GroupOf.fits {a : Analysis} {t : Syntax.TopLevel} {t' : Typed.TopLevel} (h : GroupOf S a t t')
    (unreserved : S.Unreserved) {c : CodeModule} (fits : c.Fits S) :
    LoweredTo S (lower (a.analyze t).2 t' c) := by
  obtain ⟨sound, accepted⟩ := h.reached.sound.analyze h.written h.accepted
  have noFallback : (a.analyze t).2.fallback = none :=
    ((Analyze.Changes.extends (analyze_changes a t)).fallback).trans h.noFallback
  exact fits_lower ⟨noFallback, h.declared⟩ sound unreserved accepted h.filled fits

theorem Lowered.fits (unreserved : S.Unreserved) {c : CodeModule} (h : Lowered S c) : c.Fits S := by
  induction h with
  | empty => exact fun f hf => absurd hf (Array.not_mem_empty f)
  | group _ group code ih =>
    have lowered := group.fits unreserved ih
    rw [code] at lowered
    exact lowered

theorem Host.Lowers.fits (unreserved : S.Unreserved) {host : Host η} (h : host.Lowers S) : host.Fits S :=
  ⟨h.provided, fun x handle template addresses c code =>
    (h.code x handle template addresses c code).fits unreserved⟩

theorem Loaded.table {host : Option (Host η)} (unreserved : S.Unreserved)
    (lowers : ∀ x, host = some x → x.Lowers S) {m : Machine} (h : Loaded S host m) :
    TableFits S m.functions := by
  induction h with
  | start none =>
    rw [none]
    exact .empty
  | @link m c _ code ih =>
    have linked : Machine.LinkedTo (TableFits S) (· ≠ .operandUnderflow) m (Machine.link c m) :=
      Machine.link_keeps (code.fits unreserved) m ih
    cases run : Machine.link c m with
    | ok _ m' =>
      rw [run] at linked
      exact linked.functions
    | error _ m' =>
      rw [run] at linked
      exact linked.1.functions
  | @call w _ name args ih =>
    have moved := Exec.moves_call (fun x hx => (lowers x hx).fits unreserved) name args _ w ih rfl
    cases run : Exec.call host name args w with
    | ok _ w' =>
      rw [run] at moved
      exact moved.1
    | error _ w' =>
      rw [run] at moved
      exact moved.1
  | remove _ name ih => exact ih.erase name

/-! ## Calls -/

/-- What a call of `f` on `height` operands comes to. -/
def Returned (f : CodeFunction) (height : Nat) :
    EStateM.Result MachineError (World η) (Option Value) → Prop
  | .ok v w' => w'.machine.operands.length = height ∧ v.isSome = f.ret.isSome
  | .error e _ => e.fault ≠ .operandUnderflow

namespace Exec

/-- The result of a function is taken from the stack. -/
theorem returned_takeResult {f : CodeFunction} {n : Nat} {w : World η}
    (height : w.machine.operands.length = n + f.results) : Returned f n (takeResult f w) := by
  unfold CodeFunction.results at height
  cases ret : f.ret with
  | none =>
    rw [ret] at height
    rw [takeResult_void ret]
    exact ⟨height, by rw [ret]; rfl⟩
  | some kind =>
    rw [ret] at height
    cases operands : w.machine.operands with
    | nil =>
      rw [operands] at height
      cases height
    | cons v rest =>
      rw [operands] at height
      rw [takeResult_cons (by rw [ret]; rfl) operands]
      exact ⟨Nat.succ.inj height, by rw [ret]; rfl⟩

theorem returned_call {host : Option (Host η)} (fits : ∀ x, host = some x → x.Fits S) {name : String}
    {f : CodeFunction} (args : List Value) {w : World η} (table : TableFits S w.machine.functions)
    (found : w.machine.functions.get? name = some f) :
    Returned f w.machine.operands.length (call host name args w) := by
  let run' := run host (w.machine.maxInstructions + 2)
  let rest : Exec η (Option Value) := do
    guarded do
      enter f args
      run' w.machine.frames.size
    takeResult f
  have fits' : f.Fits S := (table name f found).2
  have called (w' : World η) (table : TableFits S w'.machine.functions)
      (frames : w'.machine.frames = w.machine.frames)
      (height : w'.machine.operands.length = w.machine.operands.length) :
      Returned f w.machine.operands.length (rest w') := by
    have body := moved_guarded (moved_body (run_running fits (w.machine.maxInstructions + 2))
      fits' args table)
    rw [frames, height] at body
    show Returned f _ (EStateM.bind _ _ w')
    unfold EStateM.bind
    cases run : guarded (do enter f args; run' w.machine.frames.size) w' with
    | ok _ w'' =>
      rw [run] at body
      exact returned_takeResult body.2.2
    | error e w'' =>
      rw [run] at body
      exact body.2
  unfold call callWith
  rw [run_machine, run_ok (findFunction_known found)]
  show Returned f _ ((if w.machine.frames.size = 0
    then modifyMachine ({ · with instructionCount := 0 }) >>= fun _ => rest else rest) w)
  split
  · exact called { w with machine := { w.machine with instructionCount := 0 } } table rfl rfl
  · exact called w table rfl rfl

end Exec

/-! ## The result -/

theorem initializerName_ne {name : String} (h : name.toList.head? ≠ some '_') (linkName : String) :
    Lowering.initializerName linkName ≠ name := by
  rintro rfl
  refine h ?_
  unfold Lowering.initializerName
  show ("__cinder_init_" ++ linkName).toList.head? = some '_'
  rw [String.toList_append]
  rfl

/-- An accepted group that gives a value wherever one is taken is lowered, unless a part of the
language has no code. Once it is linked, each of its functions gives the operand stack back as high as
it found it, with a result exactly if it has a return kind, and never lacks an operand. -/
theorem calls_keep_operands (unreserved : S.Unreserved) {a : Analysis} {t : Syntax.TopLevel}
    {t' : Typed.TopLevel} (group : GroupOf S a t t') {c : CodeModule} (before : Lowered S c) :
    match lower (a.analyze t).2 t' c with
    | .error e => e.problem.unsupported?.isSome
    | .ok c' => ∀ (η : Type) (host : Option (Host η)) (w : World η) (inits : List String) (m : Machine),
      (∀ x, host = some x → x.Lowers S) → Loaded S host w.machine →
      Machine.link c' w.machine = .ok inits m →
      ∀ f ∈ c'.functions, ∃ f', m.functions.get? f.name = some f' ∧ ∀ args,
        Returned f' m.operands.length (Exec.call host f.name args { w with machine := m }) := by
  cases code : lower (a.analyze t).2 t' c with
  | error e =>
    have refused := group.fits unreserved (before.fits unreserved)
    rw [code] at refused
    exact refused
  | ok c' =>
    intro η host w inits m lowers loaded linked f hf
    have later : Loaded S host m := by
      have after := loaded.link (.group before group code)
      rwa [linked] at after
    obtain ⟨f', found⟩ := Option.isSome_iff_exists.mp (Machine.link_finds linked hf)
    exact ⟨f', found, fun args => Exec.returned_call (fun x hx => (lowers x hx).fits unreserved) args
      (later.table unreserved lowers) found⟩

/-- A function that adds its argument to itself. -/
theorem twice_keeps_operands :
    let a : Analysis := {}
    let S : Signatures := fun name =>
      if name = "twice" then some ⟨.signedInt, [.signedInt], false⟩ else none
    ∃ t t' c, Syntax.groupOf? "int twice(int x) { return x + x; }" = some t ∧
      S.Unreserved ∧ GroupOf S a t t' ∧ lower (a.analyze t).2 t' {} = .ok c ∧ ∃ inits m,
        Machine.link c {} = .ok inits m ∧ ∃ f', m.functions.get? "twice" = some f' ∧
          ∀ args, Returned f' m.operands.length
            (Exec.call none "twice" args (⟨m, ()⟩ : World Unit)) := by
  intro a S
  have outcome : (do
      let t ← Syntax.groupOf? "int twice(int x) { return x + x; }"
      let t' ← (a.analyze t).1.toOption
      let c ← (lower (a.analyze t).2 t' {}).toOption
      let _ ← given? (Machine.link c {})
      return ((a.analyze t).2.names.globals.entries, decide (t'.filled (a.analyze t).2.types),
        c.functions.toList.map (·.name)) : Option _) =
      some ([("twice", .function ⟨.signedInt, [.signedInt], false⟩ true)], true, ["twice"]) := by
    decide +kernel
  simp only [Option.bind_eq_bind, Option.bind_eq_some_iff] at outcome
  obtain ⟨t, read, t', accepted, c, code, ⟨inits, m⟩, linkedTo, linked⟩ := outcome
  have linkedTo := given?_eq_some linkedTo
  obtain ⟨globals, rest⟩ := Prod.mk.inj (Option.some.inj linked)
  obtain ⟨filled, names⟩ := Prod.mk.inj rest
  have unreserved : S.Unreserved := fun name => if_neg (initializerName_ne (by decide) name)
  have group : GroupOf S a t t' := {
    reached := .start
    written := Syntax.groupOf?_written read
    noFallback := rfl
    accepted := Syntax.toOption_eq_some accepted
    declared := fun name sig known => by
      unfold Analysis.signature? NameMap.get? at known
      rw [globals, List.lookup_cons] at known
      split at known
      · rename_i given
        split at given
        · cases given
          cases known
          exact if_pos (eq_of_beq ‹_›)
        · cases given
      · cases known
    filled := of_decide_eq_true filled }
  have lowered := Syntax.toOption_eq_some code
  refine ⟨t, t', c, read, unreserved, group, lowered, inits, m, linkedTo, ?_⟩
  have kept := calls_keep_operands unreserved group .empty
  rw [lowered] at kept
  have twice : "twice" ∈ c.functions.toList.map (·.name) := by
    rw [names]
    exact List.mem_singleton_self _
  obtain ⟨f, hf, named⟩ := List.mem_map.mp twice
  rw [← named]
  exact kept Unit none ⟨{}, ()⟩ inits m (by rintro x ⟨⟩) (.start rfl) linkedTo f (Array.mem_toList_iff.mp hf)

/-- What a function without a result returns may be a call without one, and nothing is there to take. -/
theorem void_result_lacks_operand :
    ((compile "void g() {} void f() { return g(); }" {}).toOption.map fun c =>
      match Machine.link c {} with
      | .ok _ m =>
        match Exec.call none "f" [] (⟨m, ()⟩ : World Unit) with
        | .ok _ _ => none
        | .error e _ => some e.fault
      | .error _ _ => none) = some (some .operandUnderflow) := by
  decide +kernel

end IncrementalC
