import IncrementalC.Proofs.Machine.Linked
import IncrementalC.Proofs.Semantics.Simulation
import IncrementalC.Proofs.Syntax.UnitWritten
import IncrementalC.Unit.Basic

/-!
# Lowering keeps the control flow of statements

The body of a lowered function has places in its code, and once the function is linked, the machine runs
it as its structure says: the same expressions are evaluated, conditions decide the same way, and the
function ends the same way, with a value, with an error or at the limit of instructions
(`runs_as_structured`). The one exception is a returned expression without a value.
-/
namespace IncrementalC
set_option autoImplicit false
open Lowering Structured Typed

variable {η : Type}

/-- A run of the machine from `w` until the function `f` is gone does what a structured computation
did: it reads as the same events, and it ends the same way. Where an error ends it, `f` may stand
elsewhere. -/
def Mirrors (host : Option (Host η)) (l : List Frame) (f : Frame) (w : World η) :
    EStateM.Result MachineError (Recorded η) Unit → Prop
  | .ok _ h => Follows (Exec.templates host) l f h.events.reverse w (.ok () h.world) ∧
    ∀ fuel, Exec.left w < fuel → Exec.run host fuel l.length w = .ok () h.world
  | .error e h => ∃ w', Beside h.world w' ∧
    Follows (Exec.templates host) l f h.events.reverse w (.error e w') ∧
    ∀ fuel, Exec.left w < fuel → Exec.run host fuel l.length w = .error e w'

/-! ## Functions in code -/

theorem becomes_of_patch {m : Machine} {strings : Array UInt64} {i i' : Instr}
    (h : m.patch strings i = .ok i') : i.Becomes i' := by
  obtain ⟨p, rfl, ⟨n, rfl⟩ | ⟨name, rfl⟩⟩ | ⟨rfl, -⟩ := Machine.patch_cases h
  · exact ⟨rfl, rfl, nofun⟩
  · exact ⟨rfl, rfl, nofun⟩
  · exact ⟨rfl, rfl, fun _ => rfl⟩

theorem function_code {a : Analysis} {f : FunctionDecl} {body : Stmt} {g g' : CodeModule} {fn : CodeFunction}
    (h : Lowering.function a f body g = .ok (fn, g')) :
    ∃ steps g₁ g₂, statement a f.ret false body 0 g₁ = .ok (steps, g₂) ∧ fn.name = f.name ∧
      fn.code = (resolved 0 0 steps ++ ending fn.ret).toArray := by
  have rest (params : List Scalar) (ret : Option Scalar) {g₁ : CodeModule}
      (h : (do
        let steps ← statement a f.ret false body 0
        let code := steps.map (·.resolve 0 0) ++ ending ret
        return { name := f.name, params, ret, frameSlots := f.frameSlots, code := code.toArray } :
          Gen CodeFunction) g₁ = .ok (fn, g')) :
      ∃ steps g₁ g₂, statement a f.ret false body 0 g₁ = .ok (steps, g₂) ∧ fn.name = f.name ∧
        fn.code = (resolved 0 0 steps ++ ending fn.ret).toArray := by
    obtain ⟨steps, g₂, run, h⟩ := bind_eq_ok h
    cases h
    exact ⟨steps, g₁, _, run, rfl, rfl⟩
  unfold Lowering.function at h
  obtain ⟨params, g₁, -, h⟩ := bind_eq_ok h
  dsimp only at h
  split at h
  · obtain ⟨ret, g₂, -, h⟩ := bind_eq_ok h
    exact rest params ret h
  · obtain ⟨ret, g₂, -, h⟩ := bind_eq_ok h
    exact rest params ret h

/-- The function that a group defines comes last. -/
theorem lower_last {a : Analysis} {t : TopLevel} {c c' : CodeModule} (h : lower a t c = .ok c')
    {f : FunctionDecl} {body : Stmt} (defines : t.function? = some f) (given : t.body = some body) :
    ∃ fn g g', Lowering.function a f body g = .ok (fn, g') ∧ c'.functions = g'.functions.push fn := by
  unfold lower at h
  cases run : (lower.group a t).run c with
  | error e =>
    rw [run] at h
    cases h
  | ok x =>
    rw [run] at h
    cases h
    have run : (lower.group a t) c = .ok (x.1, x.2) := run
    unfold lower.group at run
    obtain ⟨_, g, -, run⟩ := bind_eq_ok run
    rw [defines, given] at run
    obtain ⟨fn, g', code, run⟩ := bind_eq_ok run
    have done : g'.addFunction fn = x.2 := congrArg Prod.snd (Except.ok.inj run)
    refine ⟨fn, g, g', code, ?_⟩
    rw [← done]
    rfl

/-! ## Runs of functions -/

section Runs

variable {l : List Frame} {f : Frame} {w : World η} {R : Instr → Instr → Prop} {a : Analysis} {ret : Ty}

theorem mirrors_body (host : Option (Host η)) (becomes : ∀ i i', R i i' → i.Becomes i') {P : PlacedStmt}
    {q : Nat} (sits : Sits R f.function.code a ret (q, q) P 0 q)
    (shows_ : Shows R f.function.code q (ending f.function.ret)) (valued : Valued P) (stands : Stands l f 0 w) :
    Mirrors host l f w (Structured.body (Exec.templates host) l.length ret f.function.ret P ⟨w, []⟩) := by
  have steady := Exec.steady_templates host
  have whole : Simulates (Exec.templates host) l f
      (perform (Exec.templates host) l.length ret P >>= fun o => result f.function.ret o) (World.goto · 0)
        (fun v w => w.leave f.function.ret v) fun _ => 0 :=
    .bind (c := fun _ _ => 0) (simulates_perform becomes steady P sits valued)
      (fun o => simulates_result becomes shows_) fun _ _ => Nat.zero_le _
  have ended := whole ⟨w, []⟩ ⟨0, stands⟩
  dsimp only at ended
  rw [goto_self stands] at ended
  have runs {τ : List Event} {r : EStateM.Result MachineError (World η) Unit}
      (follows : Follows (Exec.templates host) l f τ w r) (fuel : Nat) (enough : Exec.left w < fuel) :
      Exec.run host fuel l.length w = r := (Exec.run_eq enough).trans (follows.runWhile steady)
  have parts : Structured.body (Exec.templates host) l.length ret f.function.ret P =
      (perform (Exec.templates host) l.length ret P >>= fun o => result f.function.ret o) >>= fun v =>
        silent (leave f.function.ret v) := (bind_assoc _ _ _).symm
  rw [parts]
  show Mirrors host l f w (EStateM.bind _ _ _)
  unfold EStateM.bind
  cases ran : (perform (Exec.templates host) l.length ret P >>= fun o => result f.function.ret o) ⟨w, []⟩ with
  | error e h =>
    rw [ran] at ended
    obtain ⟨τ, w', events, beside, follows⟩ := ended
    have read : h.events.reverse = τ := by
      rw [events, List.append_nil, List.reverse_reverse]
    exact ⟨w', beside, read ▸ follows, fun fuel => runs follows fuel⟩
  | ok v h =>
    rw [ran] at ended
    obtain ⟨own, -, -, τ, events, follows⟩ := ended
    have follows := follows [] _ (.returned (leave_frames own))
    rw [List.append_nil] at follows
    have read : h.events.reverse = τ := by
      rw [events, List.append_nil, List.reverse_reverse]
    unfold silent
    dsimp only
    rw [leave_eq]
    exact ⟨read ▸ follows, fun fuel => runs follows fuel⟩

end Runs

/-- Code shows itself. -/
theorem shows_self (is : List Instr) : Shows Eq is.toArray 0 is := by
  intro k i found
  refine ⟨i, ?_, rfl⟩
  rw [Nat.zero_add, List.getElem?_toArray, found]

/-- Linked code shows the code that was linked. -/
theorem shows_linked {m : Machine} {strings : Array UInt64} {is : List Instr} {code : Array Instr}
    (h : is.toArray.mapM (m.patch strings) = .ok code) :
    Shows (fun i i' => m.patch strings i = .ok i') code 0 is := by
  intro k i found
  obtain ⟨i', found', step⟩ := Machine.getElem?_mapM h (by rwa [List.getElem?_toArray])
  exact ⟨i', by rwa [Nat.zero_add], step⟩

/-! ## The result -/

/-- A function whose body returns no expression without a value is lowered to code in which the parts of
the body have places. Once it is linked, every run of it from its first instruction, on any memory, does
what its body says, whatever limit of instructions is set. -/
theorem runs_as_structured {a : Analysis} {t : TopLevel} {f : FunctionDecl} {body : Stmt} {c c' : CodeModule}
    (code : lower a t c = .ok c') (defines : t.function? = some f) (given : t.body = some body)
    (valued : body.Each (fun _ => True) (fun e => e.ty.isVoid = false) fun _ => True) {m m' : Machine}
    {inits : List String} (linked : Machine.link c' m = .ok inits m') :
    ∃ (fn fn' : CodeFunction) (P : PlacedStmt), fn ∈ c'.functions ∧ fn.name = f.name ∧
      Machine.LinkedAs fn fn' ∧ m'.functions.get? f.name = some fn' ∧ P.map Prod.fst Prod.fst = body ∧
      P.Each (HasCode Eq fn.code a) (HasCode Eq fn.code a) (HasStores Eq fn.code a) ∧
      ∀ (η : Type) (host : Option (Host η)) (w : World η) (l : List Frame) (frame : Frame),
        frame.function = fn' → Stands l frame 0 w → Mirrors host l frame w
          (Structured.body (Exec.templates host) l.length f.ret fn'.ret P ⟨w, []⟩) := by
  obtain ⟨fn, g, g', lowered, last⟩ := lower_last code defines given
  obtain ⟨fn', linkedAs, found⟩ := Machine.link_last linked last
  obtain ⟨steps, g₁, g₂, run, name, fnCode⟩ := function_code lowered
  obtain ⟨P, tree, sits⟩ := places_statement false body 0 g₁ steps g₂ run
  have noMarks {loop : Nat × Nat} : (false = true → ((0, 0) : Nat × Nat) = loop) := nofun
  refine ⟨fn, fn', P, ?_, name, linkedAs, name ▸ found, tree, ?_, fun η host w l frame isFn stands => ?_⟩
  · rw [last]
    exact Array.mem_push_self
  · rw [fnCode]
    exact (sits Eq _ (0, 0) (0, 0) noMarks (shows_self _).left).each
  · obtain ⟨m₀, strings, code', patched, rfl⟩ := linkedAs
    rw [fnCode] at patched
    have shows_ := shows_linked patched
    have behind := shows_.right
    rw [Nat.zero_add, length_resolved] at behind
    subst tree
    have placed : Sits (fun i i' => m₀.patch strings i = .ok i') frame.function.code a f.ret
        (steps.length, steps.length) P 0 steps.length := by
      have placed := sits _ code' (0, 0) (steps.length, steps.length) noMarks shows_.left
      rw [Nat.zero_add] at placed
      rw [isFn]
      exact placed
    have ends : Shows (fun i i' => m₀.patch strings i = .ok i') frame.function.code steps.length
        (ending frame.function.ret) := by
      rw [isFn]
      exact behind
    have mirrors := mirrors_body host (fun _ _ => becomes_of_patch) placed ends (Statement.each_of_map valued) stands
    rwa [isFn] at mirrors

/-- A loop that goes on early and is left early. -/
theorem sum_runs_as_structured :
    let a : Analysis := {}
    ∃ t t' f body c inits m, Syntax.groupOf? "int sum(int n) \x7b int s = 0; for (int i = 0; i < n; i++) \x7b
        if (i == 3) continue; if (i == 5) break; s += i; \x7d return s; \x7d" = some t ∧
      (a.analyze t).1 = .ok t' ∧ lower (a.analyze t).2 t' {} = .ok c ∧ t'.function? = some f ∧
      t'.body = some body ∧ (body.Each (fun _ => True) (fun e => e.ty.isVoid = false) fun _ => True) ∧
      Machine.link c {} = .ok inits m ∧
      ∃ (fn : CodeFunction) (P : PlacedStmt), m.functions.get? f.name = some fn ∧
        P.map Prod.fst Prod.fst = body ∧ ∀ args, Mirrors none [] ⟨fn, 0, m.stack.size, m.operands.length⟩
          (⟨m.enter fn args, ()⟩ : World Unit)
          (Structured.body (Exec.templates none) 0 f.ret fn.ret P ⟨⟨m.enter fn args, ()⟩, []⟩) := by
  intro a
  have outcome : (do
      let t ← Syntax.groupOf? "int sum(int n) \x7b int s = 0; for (int i = 0; i < n; i++) \x7b
        if (i == 3) continue; if (i == 5) break; s += i; \x7d return s; \x7d"
      let t' ← (a.analyze t).1.toOption
      let f ← t'.function?
      let body ← t'.body
      let c ← (lower (a.analyze t).2 t' {}).toOption
      let linked ← given? (Machine.link c {})
      return (decide (body.Each (fun _ => True) (fun e => e.ty.isVoid = false) fun _ => True),
        linked.2.frames.size) : Option _) = some (true, 0) := by
    decide +kernel
  simp only [Option.bind_eq_bind, Option.bind_eq_some_iff] at outcome
  obtain ⟨t, read, t', accepted, f, defines, body, given, c, code, ⟨inits, m⟩, linkedTo, linked⟩ := outcome
  have linkedTo := given?_eq_some linkedTo
  obtain ⟨valued, frames⟩ := Prod.mk.inj (Option.some.inj linked)
  have lowered := Syntax.toOption_eq_some code
  have valued := of_decide_eq_true valued
  refine ⟨t, t', f, body, c, inits, m, read, Syntax.toOption_eq_some accepted, lowered, defines, given, valued,
    linkedTo, ?_⟩
  obtain ⟨fn, fn', P, -, -, -, found, tree, -, mirrors⟩ :=
    runs_as_structured lowered defines given valued linkedTo
  refine ⟨fn', P, found, tree, fun args => mirrors Unit none _ [] _ rfl ?_⟩
  show (m.frames.push _).toList = _
  rw [Array.toList_push, Array.toList_eq_nil_iff.mpr (Array.eq_empty_of_size_eq_zero frames)]

/-- A function without a result may return an expression without a value. Its structure says that it
ends, but the machine lacks a value to return. -/
theorem void_result_ends_otherwise :
    (do
      let a : Analysis := {}
      let t ← Syntax.groupOf? "void g() {}"
      let t' ← (a.analyze t).1.toOption
      let b := (a.analyze t).2
      let u ← Syntax.groupOf? "void f() { return g(); }"
      let u' ← (b.analyze u).1.toOption
      let c ← (lower b t' {}).toOption
      let c' ← (lower (b.analyze u).2 u' c).toOption
      let EStateM.Result.ok _ m := Machine.link c' {} | none
      let f ← m.functions.get? "f"
      let some (.compound n [.return n' (some e)]) := u'.body | none
      let w : World Unit := ⟨m.enter f [], ()⟩
      let P : PlacedStmt := .compound n [.return n' (some (e, ⟨0, 1⟩))]
      let structured := match Structured.body (Exec.templates none) 0 .void f.ret P ⟨w, []⟩ with
        | .ok _ h => (none, h.events)
        | .error e h => (some e.fault, h.events)
      let run := match Exec.run none (m.maxInstructions + 2) 0 w with
        | .ok _ _ => none
        | .error e _ => some e.fault
      return (structured, run)) =
      some ((none, [Event.evaluated ⟨0, 1⟩]), some Fault.operandUnderflow) := by
  decide +kernel

end IncrementalC
