import IncrementalC.Proofs.Lowering.Retained
import IncrementalC.Proofs.Machine.Placement
import IncrementalC.Proofs.Machine.Upheld

/-!
# What was linked is found

A machine has what a module that was linked into it has, and keeps what it had (`Machine.link_has`). No run takes away an
object or a function, or fails for want of one that is there, if templates drop their own functions only
(`Exec.call_present`).
-/
namespace IncrementalC
set_option autoImplicit false

variable {η α : Type} {d : Definition}

/-- The object has a place, or the function can be called. -/
def Machine.Has (m : Machine) : Definition → Prop
  | .object link => m.objects.contains link
  | .function name => m.hasFunction name

/-- What the fault says is not there. -/
def Fault.missing? : Fault → Option Definition
  | .undefinedFunction name => some (.function name)
  | .undefinedSymbol link => some (.object link)
  | _ => none

theorem Fault.missing?_of_isStructural {f : Fault} (h : f.isStructural = false) : f.missing? = none := by
  cases f with
  | undefinedFunction _ | undefinedSymbol _ => cases h
  | _ => rfl

namespace Machine

variable {m m' : Machine}

theorem has_congr (functions : m'.functions = m.functions) (objects : m'.objects = m.objects) (h : m.Has d) : m'.Has d := by
  cases d with
  | object link => exact (congrArg (NameMap.contains · link) objects).trans h
  | function name => exact (congrArg (NameMap.contains · name) functions).trans h

/-! ## Linking -/

theorem Puts.has {g : CodeGlobal} {base : Nat} (puts : Puts m m' g base) {link : String}
    (known : link = g.name ∨ m.Has (.object link)) : m'.Has (.object link) := by
  show (m'.objects.get? link).isSome
  by_cases same : link = g.name
  · rw [same, puts.objects]
    rfl
  · rw [puts.others link same]
    exact known.resolve_left same

/-- No string and no object takes the place of an object away. -/
theorem linkable_object (link : String) : Linkable fun m => m.Has (.object link) where
  same _ _ h map := (congrArg (NameMap.contains · link) map.objects).trans h
  internString m s h := by
    unfold internString
    split <;> exact h
  placeObject m g h := (placeObject_puts m g).has (.inr h)

/-- Linking adds functions, and misses nothing. -/
theorem keeps_added {T : NameMap CodeFunction → Prop} (added : ∀ functions name f, T functions → T (functions.insert name f))
    (c : CodeModule) : Keeps T (fun f => f.missing? = none) (link c) :=
  keeps_link (keeps_accept (fun _ => rfl) fun _ _ => rfl)
    (fun _ _ _ _ => keeps_defineObject (fun _ _ _ => rfl) fun _ _ _ _ _ => rfl)
    fun _ _ _ _ => keeps_defineFunction (fun _ _ _ => rfl) fun _ _ _ => added _ _ _

theorem link_missing {c : CodeModule} {f : Fault} (h : link c m = .error f m') : f.missing? = none := by
  have after : LinkedTo (fun _ => True) (fun f => f.missing? = none) m (link c m) :=
    keeps_added (fun _ _ _ => id) c m trivial
  rw [h] at after
  exact after.2

/-- Linking takes nothing away, whether or not it goes through. -/
theorem link_keeps_has (c : CodeModule) : Preserves (fun m => m.Has d) (link c) := by
  cases d with
  | object link => exact preserves_link (linkable_object link) c
  | function name =>
    intro m h
    have after : LinkedTo (fun functions => functions.contains name) (fun f => f.missing? = none) m (link c m) := by
      refine keeps_added (fun functions other f known => ?_) c m h
      unfold NameMap.contains at known ⊢
      rw [NameMap.get?_insert]
      split
      · rfl
      · exact known
    cases run : link c m with
    | ok names m' =>
      rw [run] at after
      exact after.functions
    | error f m' =>
      rw [run] at after
      exact after.1.functions

theorem defineObjects_place {strings : Array UInt64} (gs : List CodeGlobal)
    (h : each (defineObject strings) gs m = .ok PUnit.unit m') {link : String}
    (known : (∃ g ∈ gs, g.name = link) ∨ m.Has (.object link)) : m'.Has (.object link) := by
  induction gs generalizing m with
  | nil =>
    cases h
    exact known.resolve_left nofun
  | cons g gs ih =>
    obtain ⟨m₁, first, rest⟩ := each_cons_ok h
    have keeps := preserves_defineObject (linkable_object link) strings g m
    rw [first] at keeps
    refine ih rest ?_
    obtain ⟨g', mem, named⟩ | before := known
    · obtain rfl | later := List.mem_cons.mp mem
      · obtain ⟨place, found, -⟩ := (defineObject_ok first).place
        have found : m₁.objects.get? g'.name = some place := found
        right
        show (m₁.objects.get? link).isSome
        rw [← named, found]
        rfl
      · exact .inl ⟨g', later, named⟩
    · exact .inr (keeps before)

/-- The machine has what the module has, and what it had before. -/
theorem link_has {c : CodeModule} {names : List String} (h : link c m = .ok names m') (known : c.Has d ∨ m.Has d) :
    m'.Has d := by
  rcases known with has | before
  · cases d with
    | function name =>
      obtain ⟨f, mem, rfl⟩ := has
      exact link_finds h mem
    | object link =>
      obtain ⟨g, mem, named⟩ := has
      obtain ⟨_, ps, _, m₁, -, -, placed, defined, -⟩ := link_eq_ok h
      have there := defineObjects_place _ placed (.inl ⟨g, Array.mem_toList_iff.mpr mem, named⟩)
      have keeps : Preserves (fun m => m.Has (.object link)) (each (defineFunction ps.toArray) c.functions.toList) :=
        .forIn fun f _ => .bind (preserves_defineFunction (linkable_object link) _ f) fun _ => .pure _
      have after := keeps m₁ there
      rw [defined] at after
      exact after
  · have after := link_keeps_has c m before
    rw [h] at after
    exact after

/-- A function of a module that was linked was not there before. -/
theorem link_new {c : CodeModule} {names : List String} (h : link c m = .ok names m') {f : CodeFunction}
    (mem : f ∈ c.functions) : ¬m.Has (.function f.name) := by
  intro has
  obtain ⟨_, _, _, _, accepted, -⟩ := link_eq_ok h
  unfold accept at accepted
  obtain ⟨_, _, got, accepted⟩ := bind_eq_ok accepted
  cases got
  cases found : c.functions.find? fun f => m.hasFunction f.name with
  | some f' =>
    rw [found] at accepted
    obtain ⟨_, _, thrown, -⟩ := bind_eq_ok accepted
    cases thrown
  | none => exact Array.find?_eq_none.mp found f mem has

/-- What has to run once is what the module says. -/
theorem link_names {c : CodeModule} {names : List String} (h : link c m = .ok names m') : names = c.initializers.toList := by
  obtain ⟨_, _, _, _, -, -, -, -, same⟩ := link_eq_ok h
  exact same

/-- A name that the module does not define means what it meant before, whether or not the module is linked. -/
theorem link_others (c : CodeModule) (m : Machine) {name : String} (other : ¬c.Has (.function name)) :
    (finalState (link c m)).functions.get? name = m.functions.get? name := by
  have keeps : Keeps (fun functions => functions.get? name = m.functions.get? name) (fun _ => True) (link c) :=
    keeps_link (keeps_accept (fun _ => trivial) fun _ _ => trivial)
      (fun _ _ _ _ => keeps_defineObject (fun _ _ _ => trivial) fun _ _ _ _ _ => trivial)
      fun _ _ f mem => keeps_defineFunction (fun _ _ _ => trivial) fun _ _ _ same => by
        rw [NameMap.get?_insert, if_neg fun named => other ⟨f, mem, named.symm⟩]
        exact same
  have after : LinkedTo _ _ m (link c m) := keeps m rfl
  cases run : link c m with
  | ok names m' =>
    rw [run] at after
    exact after.functions
  | error f m' =>
    rw [run] at after
    exact after.1.functions

/-- Linking fails before it defines a function, if the code names literals of the module only. -/
theorem link_fails_early {c : CodeModule} (literals : ∀ f ∈ c.functions, ∀ index, .pushStr index ∈ f.code → index < c.strings.size)
    {f : Fault} (h : link c m = .error f m') : m'.functions = m.functions := by
  have keeps {α : Type} {l : Linking α} (hl : Keeps (· = m.functions) (fun _ => True) l) {m₁ m₂ : Machine}
      (same : m₁.functions = m.functions) (ends : finalState (l m₁) = m₂) : m₂.functions = m.functions := by
    have after : LinkedTo _ _ m₁ (l m₁) := hl m₁ same
    rw [← ends]
    generalize l m₁ = r at after
    cases r with
    | ok _ _ => exact after.functions
    | error _ _ => exact after.1.functions
  have never {l : Linking PUnit} (hl : Keeps (fun _ => True) (fun _ => False) l) (m₁ m₂ : Machine) (e : Fault) :
      l m₁ ≠ .error e m₂ := by
    intro failed
    have after : LinkedTo _ _ m₁ (l m₁) := hl m₁ trivial
    rw [failed] at after
    exact after.2
  have accepts : Keeps (· = m.functions) (fun _ => True) (accept c) := keeps_accept (fun _ => trivial) fun _ _ => trivial
  have interns : Keeps (· = m.functions) (fun _ => True) (modifyGet (·.internStrings c.strings.toList) : Linking (List UInt64)) :=
    .modifyGet fun _ table => internStrings_linked (T := (· = m.functions)) table _
  have objects (strings : Array UInt64) : Keeps (· = m.functions) (fun _ => True) (each (defineObject strings) c.globals.toList) :=
    .forIn fun g _ => .bind (keeps_defineObject (fun _ _ _ => trivial) fun _ _ _ _ _ => trivial) fun _ => .pure _
  unfold link at h
  obtain failed | ⟨_, m₁, run, h⟩ := Raises.bind_eq_error h
  · exact keeps accepts rfl (congrArg finalState failed)
  have same := keeps accepts rfl (congrArg finalState run)
  obtain failed | ⟨strings, m₂, run, h⟩ := Raises.bind_eq_error h
  · cases failed
  have size : strings.length = c.strings.size := by
    cases run
    rw [length_internStrings, Array.length_toList]
  have same := keeps interns same (congrArg finalState run)
  dsimp only at h
  rw [← Array.forIn_toList, ← Array.forIn_toList] at h
  obtain failed | ⟨_, m₃, -, h⟩ := Raises.bind_eq_error h
  · exact keeps (objects strings.toArray) same (congrArg finalState failed)
  -- with all literals in place every function can be defined
  have defines : Keeps (fun _ => True) (fun _ => False) (each (defineFunction strings.toArray) c.functions.toList) := by
    refine .forIn fun f mem => .bind (keeps_defineFunction (fun index named missing => ?_) fun _ _ _ => id) fun _ => .pure _
    rw [List.size_toArray, size] at missing
    exact absurd (literals f (Array.mem_toList_iff.mp mem) index named) (Nat.not_lt_of_le missing)
  obtain failed | ⟨_, m₄, -, h⟩ := Raises.bind_eq_error h
  · exact absurd failed (never defines _ _ _)
  · cases h

end Machine

namespace Exec

/-! ## Runs -/

/-- A machine keeps what it has, and nothing that it has is missing. -/
theorem upheld_has (d : Definition) : Upheld (fun m => m.Has d) (fun m => m.Has d) fun f => f.missing? ≠ some d where
  same _ _ same := Machine.has_congr same.functions same.objects
  left _ h := h
  unwound _ _ := Machine.has_congr
  mild f h := by
    rw [Fault.missing?_of_isStructural (Fault.isMild_iff.mp h).1]
    nofun
  operands := nofun
  noFunction m name h none same := by
    cases same
    have h : (m.functions.get? name).isSome := h
    rw [none] at h
    cases h
  noObject m name h none same := by
    cases same
    have h : (m.objects.get? name).isSome := h
    unfold Machine.objectAddress? at none
    rw [Option.map_eq_none_iff] at none
    rw [none] at h
    cases h

/-- On a machine that has `d`, the computation keeps it and does not fail for want of it. -/
abbrev Spares (d : Definition) (m : Exec η α) : Prop :=
  Upholds (fun m => m.Has d) (fun m => m.Has d) (fun f => f.missing? ≠ some d) m

theorem spares_step {evaluate : List Value → Exec η Value} (evaluates : ∀ args, Spares d (evaluate args)) (f : Frame) :
    Spares d (step evaluate f) := by
  have upheld := upheld_has d
  refine upholds_step upheld ?_ (fun i _ => ?_) fun limit => ?_
  · nofun
  · exact upholds_anyAct upheld evaluates (fun _ _ => nofun) (fun _ => nofun) _ _
  · nofun

end Exec

/-- What a host compiles has the functions that are run and dropped, and the host misses nothing. -/
structure Host.Tidy (host : Host η) : Prop where
  faults : ∀ x handle template addresses, FaultsIn (fun f => f.missing? = none) (host.compile x handle template addresses).1
  code : ∀ x handle template addresses c, (host.compile x handle template addresses).1 = .ok c →
    ∀ name ∈ c.module.initializers.toList ++ [c.entry], ∃ f ∈ c.module.functions, f.name = name

namespace Exec

theorem has_removeFunctions {names : List String} (others : ∀ name ∈ names, d ≠ .function name) {m : Machine} (h : m.Has d) :
    (names.foldl Machine.removeFunction m).Has d := by
  induction names generalizing m with
  | nil => exact h
  | cons name names ih =>
    obtain ⟨other, others⟩ := List.forall_mem_cons.mp others
    refine ih others (m := m.removeFunction name) ?_
    cases d with
    | object link => exact h
    | function name' =>
      have different : name' ≠ name := fun same => other (congrArg Definition.function same)
      show ((m.functions.erase name).get? name').isSome
      rw [NameMap.get?_erase, if_neg different]
      exact h

theorem spares_runTemplate {call : String → Exec η (Option Value)} (calls : ∀ name, Spares d (call name)) {c : TemplateCode}
    (own : ∀ name ∈ c.module.initializers.toList ++ [c.entry], ∃ f ∈ c.module.functions, f.name = name) :
    Spares d (runTemplate call c) := by
  have drops (m : Machine) (names : List String) (m' : Machine) (run : Machine.link c.module m = .ok names m')
      (has : m.Has d) : ∀ name ∈ names ++ [c.entry], d ≠ .function name := by
    rintro name mem rfl
    rw [Machine.link_names run] at mem
    obtain ⟨f, inside, rfl⟩ := own name mem
    exact Machine.link_new run inside has
  refine upholds_runTemplate (upheld_has d) calls (fun m names m' run has => Machine.link_has run (.inr has))
    (fun m f m' run has => ⟨?_, ?_⟩) fun m names m' run has =>
      ⟨fun _ => has_removeFunctions (drops m names m' run has), fun _ => has_removeFunctions (drops m names m' run has)⟩
  · have after := Machine.link_keeps_has c.module m has
    rw [run] at after
    exact after
  · rw [Machine.link_missing run]
    nofun

theorem spares_run {host : Option (Host η)} (tidy : ∀ x, host = some x → x.Tidy) (fuel depth : Nat) :
    Spares d (run host fuel depth) := by
  have upheld := upheld_has d
  induction fuel generalizing depth with
  | zero => exact .machine fun m => upholds_fail upheld nofun
  | succ fuel ih =>
    have calls (name : String) : Spares d (callWith (run host fuel) name []) :=
      upholds_callWith upheld (fun _ _ _ _ _ _ _ => Machine.has_congr rfl rfl) (fun w _ => ih _) name []
    have evaluates (args : List Value) : Spares d (evaluate host (fun name => callWith (run host fuel) name []) args) := by
      refine upholds_evaluate upheld (fun x given state handle template addresses f fails => ?_)
        (fun x given state handle template addresses c code => ?_) args
      · show f.missing? ≠ some d
        rw [(tidy x given).faults state handle template addresses f fails]
        nofun
      · exact spares_runTemplate calls ((tidy x given).code state handle template addresses c code)
    unfold run
    refine .machine fun m => ?_
    split
    · exact .bind (spares_step evaluates _) fun _ => ih depth
    · exact .pure _

/-- A run keeps what the machine has, and does not fail for want of it. -/
theorem call_present {host : Option (Host η)} (tidy : ∀ x, host = some x → x.Tidy) (name : String) (args : List Value)
    {w : World η} (has : w.machine.Has d) :
    (finalState (call host name args w)).machine.Has d ∧
      ∀ e w', call host name args w = .error e w' → e.fault.missing? ≠ some d := by
  have after : UpholdsTo _ _ _ (call host name args w) :=
    upholds_callWith (upheld_has d) (fun _ _ _ _ _ _ _ => Machine.has_congr rfl rfl)
      (fun _ _ => spares_run tidy (w.machine.maxInstructions + 2) _) name args w has
  cases run : call host name args w with
  | ok v w' =>
    rw [run] at after
    refine ⟨after, fun e w'' fails => ?_⟩
    cases fails
  | error e w' =>
    rw [run] at after
    refine ⟨after.1, fun e' w'' same => ?_⟩
    cases same
    exact after.2

end Exec

end IncrementalC
