import IncrementalC.Proofs.Lowering.WellFormed
import IncrementalC.Proofs.Syntax.UnitWritten
import IncrementalC.Unit.Basic

/-!
# Accepted programs have an end in every function

`Compiled E c`: the module `c` was made of accepted groups, one behind the other. Such a module is well formed, it is
linked unless it is refused, and what it is linked to never leaves a function at its end or comes upon a literal that is
not there (`compiled_modules_run`).
-/
namespace IncrementalC
set_option autoImplicit false

variable {η : Type} {E : Prop}

/-! ## Modules -/

/-- What is asked of an accepted group and of the state `z` in which it is lowered: all objects are small, those that are
defined although they are declared extern have arrays of known length, and unless `E`, records have slots. -/
structure AcceptedGroup (E : Prop) (a : Analysis) (t : Syntax.TopLevel) (t' : Typed.TopLevel) (z : Analysis) : Prop where
  reached : a.Reached
  written : t.Written
  accepted : (a.analyze t).1 = .ok t'
  small : t'.Small z
  sized : t'.SizedExterns
  solid : t'.body.isSome → E ∨ z.types.NoneEmpty

/-- The state behind a group, with the objects handed out that were made up. -/
def Analysis.behind (a : Analysis) (t : Syntax.TopLevel) : Analysis := { (a.analyze t).2 with synthesized := #[] }

/-- The objects that were made up for a group. -/
def Analysis.madeUpFor (a : Analysis) (t : Syntax.TopLevel) (span : Span) : Typed.TopLevel :=
  { group := { decls := (a.analyze t).2.synthesized.toList, span } }

/-- Modules that groups are lowered to, one behind the other, each with the objects that were made up for it. -/
inductive Compiled (E : Prop) : CodeModule → Prop where
  | empty : Compiled E {}
  | madeUp {c c' : CodeModule} (before : Compiled E c) {a : Analysis} {t : Syntax.TopLevel} {span : Span}
      (reached : a.Reached) (none : a.synthesized = #[]) (small : (a.madeUpFor t span).Small (a.behind t))
      (code : lower (a.behind t) (a.madeUpFor t span) c = .ok c') : Compiled E c'
  | group {c c' : CodeModule} (before : Compiled E c) {a : Analysis} {t : Syntax.TopLevel} {t' : Typed.TopLevel}
      (group : AcceptedGroup E a t t' (a.behind t)) (code : lower (a.behind t) t' c = .ok c') : Compiled E c'

theorem lower_wellFormed {a : Analysis} {t : Typed.TopLevel} {c c' : CodeModule} (before : c.WellFormed E c.strings.size)
    (builds : ∀ k, Lowering.Builds E k True (lower.group a t) fun _ => True) (code : lower a t c = .ok c') :
    c'.WellFormed E c'.strings.size := by
  unfold lower at code
  cases run : (lower.group a t).run c with
  | error e => rw [run] at code; cases code
  | ok r =>
    rw [run] at code
    cases code
    obtain ⟨grows, formed⟩ := builds _ c r.1 r.2 run
    exact (formed trivial (Nat.le_refl _)).2 (before.mono grows)

theorem Compiled.wellFormed {c : CodeModule} (h : Compiled E c) : c.WellFormed E c.strings.size := by
  induction h with
  | empty => exact ⟨fun f mem => absurd mem (Array.not_mem_empty f), fun g mem => absurd mem (Array.not_mem_empty g)⟩
  | @madeUp c c' _ a t span reached none small code ih =>
    have madeUp (d : Typed.Decl) (mem : d ∈ (a.analyze t).2.synthesized.toList) : d.MadeUp :=
      Analysis.analyze_madeUp none t d (Array.mem_toList_iff.mp mem)
    have placed : (a.madeUpFor t span).Placed (a.behind t) := ⟨fun d mem => (madeUp d mem).placed _ 0, nofun⟩
    have layered : (a.behind t).types.Layered := Analysis.layered_analyze reached.layered t
    refine lower_wellFormed ih (fun k => builds_lower layered (fun body => by cases body) placed small ?_) code
    intro d mem v known isExtern
    obtain ⟨name, ty, value, kind⟩ := madeUp d mem
    rw [kind] at known
    cases known
    cases isExtern
  | @group c c' _ a t t' group code ih =>
    obtain ⟨function, scopes⟩ := group.reached.outermost
    have grows : (a.analyze t).2.Extends (a.behind t) := ⟨id, rfl, rfl, fun _ _ h _ => h, fun _ _ h => h⟩
    have placed := Analysis.analyze_placed group.reached.sound group.reached.layered function scopes group.written
      group.accepted grows group.small
    have layered : (a.behind t).types.Layered := Analysis.layered_analyze group.reached.layered t
    exact lower_wellFormed ih (fun k => builds_lower layered group.solid placed group.small group.sized) code

/-! ## Machines -/

/-- The host compiles templates to modules of the program, and finds fault with other things than the machine. -/
structure Host.Compiles (host : Host η) : Prop where
  faults : ∀ x handle template addresses,
    FaultsIn (fun f => f.isBroken = false) (host.compile x handle template addresses).1
  code : ∀ x handle template addresses c,
    (host.compile x handle template addresses).1 = .ok c → ∃ E, Compiled E c.module

/-- Linking, calling and removing lead from a machine without functions to this one. -/
inductive Installed (host : Option (Host η)) : Machine → Prop where
  | start {m : Machine} (none : m.functions = {}) : Installed host m
  | link {m : Machine} {E : Prop} {c : CodeModule} (before : Installed host m) (code : Compiled E c) :
      Installed host (finalState (Machine.link c m))
  | call {w : World η} (before : Installed host w.machine) (name : String) (args : List Value) :
      Installed host (finalState (Exec.call host name args w)).machine
  | remove {m : Machine} (before : Installed host m) (name : String) : Installed host (m.removeFunction name)

theorem Host.Compiles.sound {host : Host η} (h : host.Compiles) : host.Sound := by
  refine ⟨h.faults, fun x handle template addresses c given => ?_⟩
  obtain ⟨E, compiled⟩ := h.code x handle template addresses c given
  exact ⟨E, compiled.wellFormed⟩

theorem Installed.complete {host : Option (Host η)} (compiles : ∀ x, host = some x → x.Compiles) {m : Machine}
    (h : Installed host m) : TableComplete m.functions := by
  induction h with
  | start none =>
    rw [none]
    exact .empty
  | @link m E c _ code ih =>
    have linked : Machine.LinkedTo TableComplete (fun f => f.isRefusal) m (Machine.link c m) :=
      Machine.keeps_wellFormed (fun _ _ _ table => table.insert) code.wellFormed m ih
    cases run : Machine.link c m with
    | ok _ m' =>
      rw [run] at linked
      exact linked.functions
    | error _ m' =>
      rw [run] at linked
      exact linked.1.functions
  | call _ name args ih => exact (Exec.call_complete (fun x hx => (compiles x hx).sound) name args ih).1
  | remove _ name ih => exact ih.erase name

/-- A module of accepted groups is well formed, and it is linked unless it is refused. No run on a machine that such modules
were linked into comes upon broken code. -/
theorem compiled_modules_run {host : Option (Host η)} (compiles : ∀ x, host = some x → x.Compiles) {c : CodeModule}
    (compiled : Compiled E c) :
    c.WellFormed E c.strings.size ∧ (∀ m f m', Machine.link c m = .error f m' → f.isRefusal) ∧
      ∀ w : World η, Installed host w.machine → ∀ name args e w', Exec.call host name args w = .error e w' →
        e.fault.isBroken = false :=
  ⟨compiled.wellFormed, fun _ _ _ => Machine.link_wellFormed compiled.wellFormed, fun _ installed name args =>
    (Exec.call_complete (fun x hx => (compiles x hx).sound) name args (installed.complete compiles)).2⟩

/-- The declaration is of an object. -/
def Typed.Decl.isObject (d : Typed.Decl) : Bool :=
  match d.kind with
  | .var _ => true
  | _ => false

theorem Typed.Decl.isObject_of_var {d : Typed.Decl} {v : Typed.VarDecl} (h : d.kind = .var v) : d.isObject = true := by
  unfold isObject
  rw [h]

/-- What is declared in a body of a declaration, an expression and a return. -/
def Typed.TopLevel.declaredFirst? (t : Typed.TopLevel) : Option Typed.DeclGroup :=
  match t.body with
  | some (.compound _ [.decl _ g, .expr _ _, .return _ _]) => some g
  | _ => none

theorem Typed.TopLevel.declaredFirst?_eq_some {t : Typed.TopLevel} {g : Typed.DeclGroup} (h : t.declaredFirst? = some g) :
    ∃ n₁ n₂ n₃ n₄ call result,
      t.body = some (.compound n₁ [.decl n₂ g, .expr n₃ call, .return n₄ result]) := by
  unfold declaredFirst? at h
  split at h
  · rename_i body
    cases h
    exact ⟨_, _, _, _, _, _, body⟩
  · cases h

/-- A function with an array of its own and a string literal. -/
theorem pick_runs :
    let a : Analysis := {}
    ∃ t t' c, Syntax.groupOf? "int pick(int i) \x7b int a[2] = \x7b3, 4\x7d; puts(\"x\"); return a[i]; \x7d" = some t ∧
      AcceptedGroup False a t t' (a.behind t) ∧ lower (a.behind t) t' {} = .ok c ∧ c.WellFormed False c.strings.size ∧
        c.strings.size = 1 ∧ ∃ m, Machine.link c {} = .ok [] m ∧ ∀ args e w',
          Exec.call none "pick" args (⟨m, ()⟩ : World Unit) = .error e w' → e.fault.isBroken = false := by
  intro a
  have outcome : (do
      let t ← Syntax.groupOf? "int pick(int i) \x7b int a[2] = \x7b3, 4\x7d; puts(\"x\"); return a[i]; \x7d"
      let t' ← (a.analyze t).1.toOption
      let c ← (lower (a.behind t) t' {}).toOption
      let linked ← given? (Machine.link c {})
      let g ← t'.declaredFirst?
      return ((a.behind t).types.size, c.strings.size, decide (∀ d ∈ g.decls, d.Small (a.behind t)),
        t'.group.decls.all fun d => !d.isObject, linked.1) : Option _) =
      some (0, 1, true, true, []) := by
    decide +kernel
  simp only [Option.bind_eq_bind, Option.bind_eq_some_iff] at outcome
  obtain ⟨t, read, t', accepted, c, code, ⟨inits, m⟩, linked, g, inside, outcome⟩ := outcome
  have linked := given?_eq_some linked
  obtain ⟨n₁, n₂, n₃, n₄, call, result, body⟩ := Typed.TopLevel.declaredFirst?_eq_some inside
  simp only [Option.pure_def, Option.some.injEq, Prod.mk.injEq, decide_eq_true_eq, List.all_eq_true] at outcome
  obtain ⟨size, strings, small, functions, rfl⟩ := outcome
  have noObject (d : Typed.Decl) (mem : d ∈ t'.group.decls) (v : Typed.VarDecl) : d.kind ≠ .var v := by
    intro same
    have function := functions d mem
    rw [Typed.Decl.isObject_of_var same] at function
    cases function
  have group : AcceptedGroup False a t t' (a.behind t) := {
    reached := .start
    written := Syntax.groupOf?_written read
    accepted := Syntax.toOption_eq_some accepted
    small := ⟨fun d mem v same => absurd same (noObject d mem v), fun s given => by
      cases body.symm.trans given
      exact ⟨small, trivial, fun _ _ => trivial, trivial⟩⟩
    sized := fun d mem v same => absurd same (noObject d mem v)
    solid := fun _ => .inr fun id complete => by
      obtain ⟨r, found, -⟩ := TypeTable.isComplete_record complete
      exact absurd (size ▸ TypeTable.lt_size found) (Nat.not_lt_zero id) }
  have code := Syntax.toOption_eq_some code
  have noHost (x : Host Unit) (given : none = some x) : x.Compiles := by cases given
  have runs := compiled_modules_run noHost (.group .empty group code)
  refine ⟨t, t', c, read, group, code, runs.1, strings, m, linked, fun args => ?_⟩
  have start : Installed (none : Option (Host Unit)) {} := .start rfl
  have installed := start.link (.group .empty group code)
  rw [linked] at installed
  exact runs.2.2 ⟨m, ()⟩ installed "pick" args

/-- An array of arrays without a length that is declared extern and defined nevertheless has one slot, and more values. -/
theorem unsized_extern_not_linked :
    ((compile "extern int a[2][] = \x7b\x7b1\x7d, \x7b2, 3\x7d\x7d;" {}).toOption.map fun c =>
      match Machine.link c {} with
      | .error f _ => some f
      | .ok .. => none) = some (some (.initialValueRange "a")) := by
  decide +kernel

/-- The copy of a record without fields, to the end of another one. -/
example : ((compile "struct E \x7b\x7d; struct R \x7b int b; struct E e; \x7d;
      void f() \x7b struct E x; struct R r = \x7b1, x\x7d; \x7d" {}).toOption.map fun c =>
    c.functions.toList.map fun f => (f.frameSlots, f.code.any fun | .localAddr 2 => true | _ => false)) = some [(2, true)] := by
  decide +kernel

end IncrementalC
