import IncrementalC.Proofs.Session.Templates

/-!
# What the evaluation of a template leaves behind

A template is compiled, linked, run and dropped in the middle of a run, and its code may evaluate other templates. All of
them are requests to one host, one after the other (`Host.after`). `Leads host w w'`: the host has answered requests on the
way from `w` to `w'`, and the function table is as it was but for functions that the code of an answer defines and does not
drop. Every run leads from its beginning to its end (`leads_run`).

The code of a session drops all functions that it defines, unless the text of the template closes the function that it is
put into (`Evaluator.names_of_answer`). All else is given back in any case (`Evaluator.evaluation_restores`).
-/
namespace IncrementalC
set_option autoImplicit false

variable {η α β : Type}

/-! ## Requests -/

/-- A template with the addresses for its marks, and the handle that it is evaluated under. -/
structure Request where
  handle : UInt64
  template : String
  addresses : List UInt64

/-- The code defines the function, and does not drop it. -/
def TemplateCode.Leaves (c : TemplateCode) (name : String) : Prop :=
  c.module.Has (.function name) ∧ name ∉ c.module.initializers.toList ++ [c.entry]

namespace Host

variable {host : Host η} {x : η} {rs rs' : List Request} {name : String}

def answer (host : Host η) (x : η) (r : Request) : Except Fault TemplateCode × η :=
  host.compile x r.handle r.template r.addresses

/-- The host when it has answered the requests. -/
def after (host : Host η) (x : η) (rs : List Request) : η := rs.foldl (fun x r => (host.answer x r).2) x

theorem after_append : host.after x (rs ++ rs') = host.after (host.after x rs) rs' := List.foldl_append

/-- The code of an answer leaves the function. -/
def Leaves (host : Host η) (x : η) (rs : List Request) (name : String) : Prop :=
  ∃ before r later code, rs = before ++ r :: later ∧ (host.answer (host.after x before) r).1 = .ok code ∧ code.Leaves name

theorem Leaves.earlier (h : host.Leaves x rs name) : host.Leaves x (rs ++ rs') name := by
  obtain ⟨before, r, later, code, rfl, answered, leaves⟩ := h
  exact ⟨before, r, later ++ rs', code, by simp, answered, leaves⟩

theorem Leaves.later (h : host.Leaves (host.after x rs) rs' name) : host.Leaves x (rs ++ rs') name := by
  obtain ⟨before, r, later, code, rfl, answered, leaves⟩ := h
  exact ⟨rs ++ before, r, later, code, by simp, by rwa [after_append], leaves⟩

end Host

/-! ## The function table -/

theorem Machine.get?_removeFunctions (names : List String) (m : Machine) (name : String) :
    (names.foldl removeFunction m).functions.get? name = if name ∈ names then none else m.functions.get? name := by
  induction names generalizing m with
  | nil => simp
  | cons other names ih =>
    have erased : (m.removeFunction other).functions.get? name = if name = other then none else m.functions.get? name :=
      NameMap.get?_erase m.functions other name
    rw [List.foldl_cons, ih, erased]
    by_cases same : name = other <;> simp [same]

namespace Exec

variable {host : Host η} {w w' w'' : World η}

/-- The host answers requests from one world to the other, and the function table stays as it is but for functions that
answers leave. -/
def Leads (host : Host η) (w w' : World η) : Prop :=
  ∃ rs, w'.host = host.after w.host rs ∧ ∀ name, w'.machine.functions.get? name = w.machine.functions.get? name ∨
    w.machine.functions.get? name = none ∧ host.Leaves w.host rs name

namespace Leads

theorem refl (w : World η) : Leads host w w := ⟨[], rfl, fun _ => .inl rfl⟩

theorem trans (h : Leads host w w') (h' : Leads host w' w'') : Leads host w w'' := by
  obtain ⟨rs, state, table⟩ := h
  obtain ⟨rs', state', table'⟩ := h'
  refine ⟨rs ++ rs', by rw [Host.after_append, ← state, state'], fun name => ?_⟩
  rcases table name with same | ⟨none, leaves⟩
  · rcases table' name with same' | ⟨none, leaves⟩
    · exact .inl (same'.trans same)
    · exact .inr ⟨same ▸ none, (state ▸ leaves : host.Leaves (host.after w.host rs) rs' name).later⟩
  · exact .inr ⟨none, leaves.earlier⟩

theorem lasting (w : World η) : Lasting (Leads host w) := by
  rintro w' m - functions ⟨rs, state, table⟩
  exact ⟨rs, state, fun name => by rw [functions]; exact table name⟩

end Leads

/-- The world behind two steps, if the second one keeps what holds behind the first one. -/
theorem finalState_bind {P : World η → Prop} {x : Exec η α} {f : α → Exec η β} (first : P (finalState (x w)))
    (rest : ∀ a, Preserves P (f a)) : P (finalState ((x >>= f) w)) := by
  show P (finalState (EStateM.bind x f w))
  unfold EStateM.bind
  cases run : x w with
  | error e w' =>
    rw [run] at first
    exact first
  | ok a w' =>
    rw [run] at first
    exact rest a w' first

section

variable (tidy : host.Tidy) (literals : ∀ x r code, (host.answer x r).1 = .ok code →
  ∀ f ∈ code.module.functions, ∀ index, .pushStr index ∈ f.code → index < code.module.strings.size)
include tidy

/-- What the code of an answer adds to the table is dropped behind it, or left. -/
theorem leads_dropped {r : Request} {c : TemplateCode} (answered : (host.answer w.host r).1 = .ok c) {names : List String}
    {m : Machine} (linked : Machine.link c.module w.machine = .ok names m)
    (run : Leads host ⟨m, (host.answer w.host r).2⟩ w') :
    Leads host w { w' with machine := (names ++ [c.entry]).foldl Machine.removeFunction w'.machine } := by
  obtain ⟨rs, state, table⟩ := run
  have names_eq := Machine.link_names linked
  refine ⟨r :: rs, state, fun name => ?_⟩
  rw [Machine.get?_removeFunctions]
  by_cases defined : c.module.Has (.function name)
  · have new : w.machine.functions.get? name = none := by
      obtain ⟨f, mem, rfl⟩ := defined
      exact Option.not_isSome_iff_eq_none.mp (Machine.link_new linked mem)
    by_cases dropped : name ∈ names ++ [c.entry]
    · rw [if_pos dropped]
      exact .inl new.symm
    · exact .inr ⟨new, [], r, rs, c, rfl, answered, defined, names_eq ▸ dropped⟩
  · have kept : name ∉ names ++ [c.entry] := fun mem => defined (tidy.code _ _ _ _ c answered name (names_eq ▸ mem))
    have same := Machine.link_others c.module w.machine defined
    rw [linked] at same
    rw [if_neg kept]
    rcases table name with unchanged | ⟨none, leaves⟩
    · exact .inl (unchanged.trans same)
    · exact .inr ⟨same ▸ none, (leaves.later : host.Leaves w.host ([r] ++ rs) name)⟩

include literals

theorem leads_runTemplate {call : String → Exec η (Option Value)} (calls : ∀ w name, Preserves (Leads host w) (call name))
    (w : World η) (r : Request) {c : TemplateCode} (answered : (host.answer w.host r).1 = .ok c) :
    Leads host w (finalState (runTemplate call c { w with host := (host.answer w.host r).2 })) := by
  have result (before : Nat) : Preserves (Leads host w) (do
      let m ← machine
      if before < m.results.size then
        modifyMachine fun m => { m with results := m.results.pop }
        return (m.results.back?).getD .void
      return .void : Exec η Value) := by
    refine preserves_machine fun m => ?_
    split
    · exact .bind (preserves_modify (Leads.lasting w) (fun _ => ⟨rfl, rfl, rfl⟩) fun _ => rfl) fun _ => .pure _
    · exact .pure _
  unfold runTemplate
  show Leads host w (finalState ((link c.module >>= _) { w with host := (host.answer w.host r).2 }))
  cases linked : Machine.link c.module w.machine with
  | error f m =>
    have failed : link c.module { w with host := (host.answer w.host r).2 } =
        .error { fault := f } ⟨m, (host.answer w.host r).2⟩ := by
      unfold link
      rw [linked]
    rw [run_error failed]
    refine ⟨[r], rfl, fun name => .inl ?_⟩
    rw [show (finalState _ : World η).machine.functions = w.machine.functions from
      Machine.link_fails_early (literals w.host r c answered) linked]
  | ok names m =>
    have done : link c.module { w with host := (host.answer w.host r).2 } = .ok names ⟨m, (host.answer w.host r).2⟩ := by
      unfold link
      rw [linked]
    rw [run_ok done]
    refine finalState_bind ?_ fun _ => result _
    have run := preserves_callAll (calls _) (names ++ [c.entry]) ⟨m, (host.answer w.host r).2⟩ (.refl _)
    unfold always
    cases ended : callAll call (names ++ [c.entry]) ⟨m, (host.answer w.host r).2⟩ with
    | ok u w' =>
      rw [ended] at run
      exact leads_dropped tidy answered linked run
    | error e w' =>
      rw [ended] at run
      exact leads_dropped tidy answered linked run

theorem leads_evaluateText {call : String → Exec η (Option Value)} (calls : ∀ w name, Preserves (Leads host w) (call name))
    (handle : UInt64) (template : String) (addresses : List UInt64) (w₀ : World η) :
    Preserves (Leads host w₀) (evaluateText host call handle template addresses) := by
  intro w before
  let r : Request := ⟨handle, template, addresses⟩
  have asked : evaluateText host call handle template addresses w =
      (ofExcept (host.answer w.host r).1 >>= runTemplate call) { w with host := (host.answer w.host r).2 } := rfl
  rw [asked]
  refine before.trans ?_
  cases answered : (host.answer w.host r).1 with
  | error f => exact ⟨[r], rfl, fun _ => .inl rfl⟩
  | ok c => exact leads_runTemplate tidy literals calls w r answered

/-- The loop of the machine, with the templates that it evaluates. -/
theorem leads_run (w₀ : World η) (fuel depth : Nat) : Preserves (Leads host w₀) (run (some host) fuel depth) := by
  refine preserves_loop (P := fun w₀ : World η => Leads host w₀) Leads.lasting (fun call calls w₀ => ?_) w₀ fuel depth
  refine preserves_evaluate fun x given handle template addresses => ?_
  cases given
  exact leads_evaluateText tidy literals calls handle template addresses w₀

theorem leads_callWith (fuel : Nat) (w₀ : World η) (name : String) :
    Preserves (Leads host w₀) (callWith (run (some host) fuel) name []) :=
  preserves_callWith (Leads.lasting w₀) (leads_run tidy literals w₀ fuel) name []

end

end Exec

/-! ## The templates of a session -/

/-- With its addresses filled in, the template closes the function that it is put into, or it includes a file. -/
def Request.Escapes (r : Request) : Prop :=
  ∃ expr name file base tokens, substitute r.template r.addresses = .ok expr ∧
    tokenize (Evaluator.source name expr) file base = .ok tokens ∧ ¬Syntax.Contained tokens.toList

namespace Evaluator

variable {e e' e'' : Evaluator} {expr : String}

/-- The function that the next expression is compiled as. -/
def nextEntry (e : Evaluator) : String := s!"__cinder_dyn_{e.count + 1}"

/-- The unit that an expression is read into. The application decides on unknown names. -/
def scratch (e : Evaluator) : GrowingUnit :=
  { e.unit with
    analysis := { e.unit.analysis with fallback := some (.bindings (e.client.getD {}).bindings) }
    deferred := { e.unit.deferred with enabled := false }
    inputCount := e.unit.inputCount + 1 }

def reading (e : Evaluator) (expr : String) : (Except Rejection ParsedFragment × CodeModule) × GrowingUnit :=
  e.scratch.parseNamed e.files e.unit.nextName (source e.nextEntry expr) .code {}

/-- The unit behind an expression that was read into it, with the settings that it had before. -/
def settledBack (e : Evaluator) (u : GrowingUnit) : GrowingUnit :=
  { u with
    analysis := { u.analysis with fallback := e.unit.analysis.fallback }
    deferred := { u.deferred with enabled := e.unit.deferred.enabled }
    errorCount := e.unit.errorCount }

theorem compileExpr_eq (e : Evaluator) (expr : String) : e.compileExpr expr =
    (match (e.reading expr).1.1 with
      | .ok _ => .ok { module := (e.reading expr).1.2, entry := e.nextEntry }
      | .error r => .error (.unresolved r.message),
     { e with unit := (e.settledBack (e.reading expr).2).rollback, count := e.count + 1 }) := by
  have same : e.compileExpr expr =
      match (e.reading expr).1.1 with
      | .ok _ => (.ok { module := (e.reading expr).1.2, entry := e.nextEntry },
          { e with unit := (e.settledBack (e.reading expr).2).rollback, count := e.count + 1 })
      | .error r => (.error (.unresolved r.message),
          { e with unit := (e.settledBack (e.reading expr).2).rollback, count := e.count + 1 }) := rfl
  rw [same]
  cases (e.reading expr).1.1 <;> rfl

/-- Only the log changes. -/
theorem note_eq (e : Evaluator) (template : String) (addresses : List UInt64) :
    ∃ log, e.note template addresses = { e with log } := by
  unfold note
  split
  · exact ⟨_, rfl⟩
  · exact ⟨e.log, rfl⟩

theorem substitute_error {template : String} {addresses : List UInt64} {f : Fault}
    (h : substitute template addresses = .error f) : f.missing? = none := by
  unfold substitute at h
  split at h
  · cases h
  · cases h
    rfl
  · cases h
    rfl

/-- A template is refused, or compiled once its addresses are filled in. -/
theorem answer_cases (e : Evaluator) (r : Request) : ∃ log,
    (∃ f, f.missing? = none ∧ host.answer e r = (.error f, { e with log })) ∨
      ∃ expr, substitute r.template r.addresses = .ok expr ∧
        host.answer e r = ({ e with log } : Evaluator).compileExpr expr := by
  have answered : host.answer e r = e.compile r.handle r.template r.addresses := rfl
  rw [answered]
  unfold compile
  by_cases other : r.handle ≠ e.handle
  · rw [if_pos other]
    exact ⟨e.log, .inl ⟨_, rfl, rfl⟩⟩
  · obtain ⟨log, noted⟩ := e.note_eq r.template r.addresses
    rw [if_neg other, noted]
    refine ⟨log, ?_⟩
    cases filled : substitute r.template r.addresses with
    | error f => exact .inl ⟨f, substitute_error filled, rfl⟩
    | ok expr => exact .inr ⟨expr, rfl, rfl⟩

/-- The code of an answer is that of an accepted text. -/
theorem answer_ok {r : Request} {c : TemplateCode} (h : (host.answer e r).1 = .ok c) :
    ∃ expr u files name fragment v entry, substitute r.template r.addresses = .ok expr ∧ IsWord entry ∧ c.entry = entry ∧
      u.deferred.enabled = false ∧
      GrowingUnit.parseNamed u files name (source entry expr) .code {} = ((.ok fragment, c.module), v) := by
  obtain ⟨log, ⟨f, -, refused⟩ | ⟨expr, filled, compiled⟩⟩ := answer_cases e r
  · rw [refused] at h
    cases h
  · rw [compiled, compileExpr_eq] at h
    generalize { e with log := log } = e' at h
    have word : IsWord e'.nextEntry := Syntax.Reads.isWord_numbered "__cinder_dyn_" (e'.count + 1) (by decide) (by decide)
    cases outcome : e'.reading expr with
    | mk read v =>
      obtain ⟨result, m⟩ := read
      rw [outcome] at h
      cases result with
      | error r => cases h
      | ok fragment =>
        cases h
        exact ⟨expr, e'.scratch, e'.files, e'.unit.nextName, fragment, v, _, filled, word, rfl, rfl, outcome⟩

/-- All that the code of an answer refers to is in it, and so is the function that is called. -/
theorem whole_of_answer {r : Request} {c : TemplateCode} (h : (host.answer e r).1 = .ok c) :
    c.module.Closed c.module.strings.size ∧ c.module.Has (.function c.entry) := by
  obtain ⟨expr, u, files, name, fragment, v, entry, -, word, rfl, enabled, read⟩ := answer_ok h
  exact ⟨GrowingUnit.parseNamed_closed enabled read,
    GrowingUnit.parseNamed_opening enabled (fun _ _ _ lexed => source_opening word lexed) read⟩

theorem tidy_host : host.Tidy where
  faults e handle template addresses f failed := by
    obtain ⟨log, ⟨f', known, refused⟩ | ⟨expr, -, compiled⟩⟩ := answer_cases e ⟨handle, template, addresses⟩
    · have failed : (host.answer e ⟨handle, template, addresses⟩).1 = .error f := failed
      rw [refused] at failed
      cases failed
      exact known
    · have failed : (host.answer e ⟨handle, template, addresses⟩).1 = .error f := failed
      rw [compiled, compileExpr_eq] at failed
      dsimp only at failed
      split at failed
      · cases failed
      · cases failed
        rfl
  code e handle template addresses c given name mem := by
    obtain ⟨closed, has⟩ := whole_of_answer (r := ⟨handle, template, addresses⟩) given
    rcases List.mem_append.mp mem with mem | mem
    · exact closed.initializers name (Array.mem_toList_iff.mp mem)
    · rw [List.mem_singleton.mp mem]
      exact has

/-- The code of a template that stays inside of its function drops all functions that it defines. -/
theorem names_of_answer {r : Request} {c : TemplateCode} (h : (host.answer e r).1 = .ok c) {name : String}
    (leaves : c.Leaves name) : r.Escapes := by
  obtain ⟨expr, u, files, fragmentName, fragment, v, entry, filled, word, rfl, enabled, read⟩ := answer_ok h
  by_contra inside
  have contained : ∀ file base tokens, tokenize (source c.entry expr) file base = .ok tokens →
      Syntax.Contained tokens.toList :=
    fun file base tokens lexed => by_contra fun escapes => inside ⟨expr, _, file, base, tokens, filled, lexed, escapes⟩
  obtain ⟨⟨f, mem, rfl⟩, left⟩ := leaves
  have names := GrowingUnit.parseNamed_names enabled (fun _ _ _ lexed => source_opening word lexed) contained read
  rcases names f mem with initializer | called
  · exact left (List.mem_append_left _ (Array.mem_toList_iff.mpr initializer))
  · exact left (List.mem_append_right _ (List.mem_singleton.mpr called))

/-! ## What is given back -/

/-- Names, tags and records, the files that are included, who decides on unknown names, whether anything is left to run time
and the number of errors are as before. Nothing is staged. -/
structure Intact (e e' : Evaluator) : Prop where
  names : e'.unit.analysis.names.Same e.unit.analysis.names
  included : e'.unit.included = e.unit.included
  settled : e'.unit.Settled
  fallback : e'.unit.analysis.fallback = e.unit.analysis.fallback
  enabled : e'.unit.deferred.enabled = e.unit.deferred.enabled
  errors : e'.unit.errorCount = e.unit.errorCount

theorem Intact.refl (settled : e.unit.Settled) : e.Intact e := ⟨.refl _, rfl, settled, rfl, rfl, rfl⟩

theorem Intact.trans (h : e.Intact e') (h' : e'.Intact e'') : e.Intact e'' where
  names := h'.names.trans h.names
  included := h'.included.trans h.included
  settled := h'.settled
  fallback := h'.fallback.trans h.fallback
  enabled := h'.enabled.trans h.enabled
  errors := h'.errors.trans h.errors

/-- An expression is taken back once it has been read, whether or not it is accepted. -/
theorem intact_compileExpr (settled : e.unit.Settled) (expr : String) : e.Intact (e.compileExpr expr).2 := by
  have begun : e.scratch.Holds e.unit.program := ⟨settled.holds.restores.of_eq rfl rfl rfl, settled.holds.included⟩
  have read : (e.reading expr).2.Holds e.unit.program :=
    begun.parseNamed e.files e.unit.nextName (source e.nextEntry expr) .code {}
  rw [compileExpr_eq]
  generalize (e.reading expr).2 = u at read
  have back : (e.settledBack u).Holds e.unit.program := ⟨read.restores.of_eq rfl rfl rfl, read.included⟩
  have clean := back.clean_rollback
  exact ⟨clean.names, clean.included, clean.settled, rfl, rfl, rfl⟩

theorem intact_answer (settled : e.unit.Settled) (r : Request) : e.Intact (host.answer e r).2 := by
  obtain ⟨log, ⟨f, -, refused⟩ | ⟨expr, -, compiled⟩⟩ := answer_cases e r
  · rw [refused]
    exact ⟨.refl _, rfl, settled, rfl, rfl, rfl⟩
  · rw [compiled]
    have noted : e.Intact { e with log } := ⟨.refl _, rfl, settled, rfl, rfl, rfl⟩
    exact noted.trans (intact_compileExpr noted.settled expr)

theorem intact_after (settled : e.unit.Settled) (rs : List Request) : e.Intact (host.after e rs) := by
  induction rs generalizing e with
  | nil => exact .refl settled
  | cons r rs ih =>
    have first := intact_answer settled r
    exact first.trans (ih first.settled)

/-- The text of a program has been committed, and templates have been evaluated since. So it is whenever a program runs. -/
def Running (e : Evaluator) : Prop :=
  ∃ (e₀ : Evaluator) (u : GrowingUnit) (rs : List Request), e = host.after { e₀ with unit := u.commit } rs

theorem Running.settled (running : e.Running) : e.unit.Settled := by
  obtain ⟨e₀, u, rs, rfl⟩ := running
  have committed : ({ e₀ with unit := u.commit } : Evaluator).unit.Settled := GrowingUnit.settled_commit u
  exact (intact_after committed rs).settled

/-- The evaluation of a template in the middle of a run gives everything back, whether or not it fails and whatever else is
evaluated on the way: the active functions, the height of the stack, and the unit that texts are read into. The function
table is as before, but for functions of a template that closes the function that it is put into. -/
theorem evaluation_restores (fuel : Nat) (handle : UInt64) (template : String) (addresses : List UInt64) (w : World Evaluator)
    (running : w.host.Running) :
    let w' := finalState (Exec.evaluateText host (fun name => Exec.callWith (Exec.run (some host) fuel) name [])
      handle template addresses w)
    w.machine.SameControl w'.machine ∧ w.host.Intact w'.host ∧
      ∃ rs, w'.host = host.after w.host rs ∧ ∀ name,
        w'.machine.functions.get? name = w.machine.functions.get? name ∨
          w.machine.functions.get? name = none ∧ ∃ before r later c, rs = before ++ r :: later ∧
            (host.answer (host.after w.host before) r).1 = .ok c ∧ c.Leaves name ∧ r.Escapes := by
  intro w'
  have literals (x : Evaluator) (r : Request) (c : TemplateCode) (answered : (host.answer x r).1 = .ok c) :
      ∀ f ∈ c.module.functions, ∀ index, .pushStr index ∈ f.code → index < c.module.strings.size :=
    (whole_of_answer answered).1.literals
  have calls (w₀ : World Evaluator) (name : String) :
      Preserves (Exec.Leads host w₀) (Exec.callWith (Exec.run (some host) fuel) name []) :=
    Exec.leads_callWith tidy_host literals fuel w₀ name
  obtain ⟨rs, state, table⟩ : Exec.Leads host w w' :=
    Exec.leads_evaluateText tidy_host literals calls handle template addresses w w (.refl w)
  have neutral := (Exec.confined_evaluateText host handle template addresses).neutral (Exec.neutral_callWith (some host) fuel)
  refine ⟨neutral.same w, state ▸ intact_after running.settled rs, rs, state, fun name => ?_⟩
  rcases table name with same | ⟨absent, before, r, later, c, split, answered, leaves⟩
  · exact .inl same
  · exact .inr ⟨absent, before, r, later, c, split, answered, leaves, names_of_answer answered leaves⟩

/-- A session whose program has no declarations. -/
def bare : Evaluator := { unit := ({} : GrowingUnit).installHooks.commit, handle := 1 }

/-- The world behind a template that the program of the bare session evaluates. -/
def evaluated (template : String) (addresses : List UInt64) : EStateM.Result MachineError (World Evaluator) Value :=
  Exec.evaluateText host (fun name => Exec.callWith (Exec.run (some host) 20) name []) 1 template addresses ⟨{}, bare⟩

theorem address_evaluation_restores :
    (match evaluated "@ + 2" [5] with
      | .ok v _ => some v.word
      | .error .. => none) = some 7 ∧
    (finalState (evaluated "@ + 2" [5])).machine.frames = #[] ∧
    bare.Intact (finalState (evaluated "@ + 2" [5])).host := by
  have running : bare.Running := ⟨{ handle := 1 }, ({} : GrowingUnit).installHooks, [], rfl⟩
  obtain ⟨control, intact, -⟩ := evaluation_restores 20 1 "@ + 2" [5] ⟨{}, bare⟩ running
  exact ⟨by decide +kernel, control.frames, intact⟩

/-- A template that closes its function defines two more, which stay. -/
theorem escaping_template_stays :
    let template := "1); \x7d int extra() \x7b return 2; \x7d void more() \x7b __cinder_set_result(3"
    bare.Running ∧
    (match evaluated template [] with
      | .ok v _ => some v.word
      | .error .. => none) = some 1 ∧
    ({} : Machine).hasFunction "extra" = false ∧ (finalState (evaluated template [])).machine.hasFunction "extra" := by
  refine ⟨⟨{ handle := 1 }, ({} : GrowingUnit).installHooks, [], rfl⟩, ?_, rfl, ?_⟩
  · decide +kernel
  · decide +kernel

end Evaluator

end IncrementalC
