import IncrementalC.Proofs.Machine.Preserved
import IncrementalC.Proofs.Unit.Rollback
import IncrementalC.Session.Basic

/-!
# Between two inputs nothing is staged

Every input of a session either commits what it declares or takes it back, and so do the templates that are
evaluated while it runs. So the unit of a session is settled whenever an input begins
(`Session.Reached.settled`).
-/
namespace IncrementalC
set_option autoImplicit false

namespace GrowingUnit

/-- Nothing is staged. -/
structure Settled (u : GrowingUnit) : Prop where
  names : u.analysis.staged = false
  includes : u.stagedIncludes = []

/-- What a commit has kept, if nothing was staged since. -/
def program (u : GrowingUnit) : Kept := ⟨u.analysis.names, u.included⟩

variable {u v : GrowingUnit} {k : Kept} {σ : Type}

theorem Clean.settled (h : u.Clean k) : u.Settled := ⟨h.names_staged, h.includes_staged⟩

theorem settled_rollback (u : GrowingUnit) : u.rollback.Settled := ⟨rfl, rfl⟩

theorem settled_commit (u : GrowingUnit) : u.commit.Settled := ⟨rfl, rfl⟩

theorem Settled.congr (h : u.Settled) (journal : v.analysis.journal = u.analysis.journal)
    (mark : v.analysis.recordMark = u.analysis.recordMark) (includes : v.stagedIncludes = u.stagedIncludes) :
    v.Settled := by
  refine ⟨?_, includes.trans h.includes⟩
  have names := h.names
  unfold Analysis.staged at names ⊢
  rw [journal, mark, names]

theorem Settled.holds (h : u.Settled) : u.Holds u.program := by
  have names := h.names
  unfold Analysis.staged at names
  have journal : u.analysis.journal = [] := by simpa using (Bool.or_eq_false_iff.mp names).1
  have mark : u.analysis.recordMark = none := by simpa using (Bool.or_eq_false_iff.mp names).2
  have same : u.analysis.commit = u.analysis := by
    unfold Analysis.commit
    rw [← journal, ← mark]
  refine ⟨?_, rfl⟩
  have restores := Analysis.restores_commit u.analysis
  rwa [same] at restores

theorem Settled.addIncludePath (h : u.Settled) (path : String) : (u.addIncludePath path).Settled := by
  unfold GrowingUnit.addIncludePath
  split
  · exact h
  · exact ⟨h.names, h.includes⟩

end GrowingUnit

/-! ## Templates -/

theorem Evaluator.settled_compile {e : Evaluator} (h : e.unit.Settled) (handle : UInt64) (template : String)
    (addresses : List UInt64) : (e.compile handle template addresses).2.unit.Settled := by
  have noted : (e.note template addresses).unit = e.unit := by
    unfold note
    split <;> rfl
  unfold compile
  split
  · exact h
  · dsimp only
    split
    · unfold compileExpr
      dsimp only
      split <;> exact GrowingUnit.settled_rollback _
    · exact noted ▸ h

namespace Session

/-- Templates leave nothing staged. -/
theorem kept_settled : Exec.Kept (some Evaluator.host) fun w => w.host.unit.Settled where
  same _ _ _ h := h
  link _ _ h := h
  compile host found w handle template addresses h := by
    cases found
    exact Evaluator.settled_compile h handle template addresses

variable {α : Type} {s : Session}

/-- The property holds at the end of a computation on the execution. -/
theorem preserves_ofExec {η : Type} {P : World η → Prop} {x : Exec η α} {wrap : MachineError → SessionError}
    (h : Preserves P x) : Preserves (fun e => P e.world) (Execution.ofExec wrap x) := by
  intro e before
  have after := h e.world before
  unfold Execution.ofExec
  cases run : x e.world with
  | ok y w =>
    rw [run] at after
    exact after
  | error m w =>
    rw [run] at after
    exact after

theorem preserves_execute (f : CompiledFragment) :
    Preserves (fun e : Execution Evaluator => e.world.host.unit.Settled) (execute f) := by
  have calls (name : String) : Preserves (fun e : Execution Evaluator => e.world.host.unit.Settled)
      (Execution.ofExec .machine (Exec.call (some Evaluator.host) name [])) :=
    preserves_ofExec (Exec.preserves_call kept_settled name [])
  have once (name : String) : Preserves (fun e : Execution Evaluator => e.world.host.unit.Settled)
      (Execution.callOnce (some Evaluator.host) name) := by
    have drops (m : Machine) : m.SameMap (m.removeFunction name) := ⟨rfl, rfl, rfl⟩
    refine preserves_ofExec (Exec.preserves_always kept_settled ?_ drops)
    exact .bind (Exec.preserves_call kept_settled name []) fun _ => .pure _
  have each (names : List String) : Preserves (fun e : Execution Evaluator => e.world.host.unit.Settled)
      (Execution.callEachOnce (some Evaluator.host) names) := by
    induction names with
    | nil => exact .pure _
    | cons name names ih => exact .bind (once name) fun _ => ih
  have starts : Preserves (fun e : Execution Evaluator => e.world.host.unit.Settled)
      (Execution.start (some Evaluator.host) f) :=
    .bind (preserves_ofExec (Exec.preserves_link kept_settled _)) fun names =>
      .bind (.modify fun _ h => h) fun _ => .bind (each names) fun _ => .pure _
  refine .bind starts fun entry => ?_
  dsimp only
  split
  · refine .bind (.get fun e => ?_) fun _ => .pure _
    split
    · exact calls _
    · exact .pure _
  · exact .pure _

theorem preserves_run (f : CompiledFragment) : Preserves (fun s : Session => s.unit.Settled) (run f) := by
  intro s h
  have after := preserves_execute f s.execution h
  unfold run
  cases run : execute f s.execution with
  | ok entry e =>
    rw [run] at after
    exact after
  | error m e =>
    rw [run] at after
    exact after

/-! ## Inputs -/

/-- The text as a fragment, with its code if it is asked for. -/
def parseText (u : GrowingUnit) (files : FileTree) (text : String) (codegen : Bool) :
    (Except Rejection ParsedFragment × CodeModule) × GrowingUnit :=
  if codegen then u.parse files text .code {}
  else
    let ((result, _), unit) := u.parse files text .none ()
    ((result, {}), unit)

/-- What becomes of a session when a text was parsed. -/
def afterParse (s : Session) (entry : Option String) (codegen : Bool)
    (parsed : (Except Rejection ParsedFragment × CodeModule) × GrowingUnit) :
    EStateM.Result SessionError Session CompiledFragment :=
  match parsed.1.1 with
  | .error r => .error (.ofRejection r parsed.2.sources) (s.mapUnit fun _ => parsed.2)
  | .ok p => .ok
      { module := parsed.1.2, decls := declRecords p parsed.2.sources entry, entry := if codegen then entry else none }
      (s.mapUnit fun _ => parsed.2.commit)

theorem compile_parsed (text : String) (entry : Option String) (codegen : Bool) (s : Session) :
    compile text entry codegen s = (do
      let ((result, module), unit) := parseText s.unit s.evaluator.files text codegen
      modify (·.mapUnit fun _ => unit)
      match result with
      | .error r => throw (.ofRejection r unit.sources)
      | .ok p =>
        modify (·.mapUnit (·.commit))
        return { module, decls := declRecords p unit.sources entry,
                 entry := if codegen then entry else none } : Steps CompiledFragment) s :=
  rfl

theorem compile_eq (text : String) (entry : Option String) (codegen : Bool) (s : Session) :
    compile text entry codegen s = afterParse s entry codegen (parseText s.unit s.evaluator.files text codegen) := by
  rw [compile_parsed]
  obtain ⟨⟨result, module⟩, unit⟩ := parseText s.unit s.evaluator.files text codegen
  cases result <;> rfl

/-- The program and what was declared are as before, and nothing is staged. -/
structure Unchanged (s s' : Session) : Prop where
  names : s'.unit.analysis.names.Same s.unit.analysis.names
  included : s'.unit.included = s.unit.included
  settled : s'.unit.Settled
  machine : s'.machine = s.machine
  history : s'.history = s.history

variable {s' s'' : Session}

theorem Unchanged.refl (h : s.unit.Settled) : Unchanged s s := ⟨.refl _, rfl, h, rfl, rfl⟩

theorem Unchanged.trans (h : Unchanged s s') (h' : Unchanged s' s'') : Unchanged s s'' where
  names := h'.names.trans h.names
  included := h'.included.trans h.included
  settled := h'.settled
  machine := h'.machine.trans h.machine
  history := h'.history.trans h.history

theorem Unchanged.of_clean {unit : GrowingUnit} (h : unit.Clean s.unit.program) :
    Unchanged s (s.mapUnit fun _ => unit) := ⟨h.names, h.included, h.settled, rfl, rfl⟩

/-- Settings that have nothing to do with the program. -/
theorem Unchanged.of_eq (h : s.unit.Settled) (analysis : s'.unit.analysis = s.unit.analysis)
    (included : s'.unit.included = s.unit.included) (includes : s'.unit.stagedIncludes = s.unit.stagedIncludes)
    (machine : s'.machine = s.machine) (history : s'.history = s.history) : Unchanged s s' :=
  ⟨analysis ▸ .refl _, included, h.congr (by rw [analysis]) (by rw [analysis]) includes, machine, history⟩

theorem parseText_error (settled : s.unit.Settled) {files : FileTree} {text : String} {codegen : Bool} {r : Rejection}
    (h : (parseText s.unit files text codegen).1.1 = .error r) :
    (parseText s.unit files text codegen).2.Clean s.unit.program := by
  unfold parseText at h ⊢
  have holds := settled.holds.counted (s.unit.inputCount + 1)
  cases codegen with
  | true => exact holds.clean_rejected files s.unit.nextName text .code {} h
  | false => exact holds.clean_rejected files s.unit.nextName text .none () h

/-- A text is committed as a whole or taken back as a whole. -/
theorem compile_cases (settled : s.unit.Settled) (text : String) (entry : Option String) (codegen : Bool) :
    (∃ e s', compile text entry codegen s = .error e s' ∧ Unchanged s s') ∨
      ∃ f s', compile text entry codegen s = .ok f s' ∧ s'.unit.Settled ∧ s'.machine = s.machine ∧
        s'.history = s.history := by
  rw [compile_eq]
  unfold afterParse
  cases outcome : (parseText s.unit s.evaluator.files text codegen).1.1 with
  | error r => exact .inl ⟨_, _, rfl, .of_clean (parseText_error settled outcome)⟩
  | ok p => exact .inr ⟨_, _, rfl, GrowingUnit.settled_commit _, rfl, rfl⟩

/-- Statements are parsed for their structure only. -/
theorem wrapInput_parsed (input : String) (id : Nat) (entry : String) (printing : ValuePrinting) (s : Session) :
    wrapInput input id entry printing s =
      (let name := s!"__cinder_stmt_vs_decl_{id}"
      let parsed := s.unit.parse s.evaluator.files (scaffold name input) (Consumer.body name) none
      let unit : GrowingUnit := { parsed.2 with errorCount := s.unit.errorCount }
      do
        modify (·.mapUnit fun _ => unit)
        match parsed.1.1 with
        | .error r => if definesFunction r then return none else throw (.ofRejection r unit.sources)
        | .ok p =>
          let context : Wrapping.Context :=
            { sources := unit.sources, types := unit.analysis.types, dirty := p.dirty, printing
              hasSemicolon := (Text.trimEnd input.toList).getLast? == some ';', entryName := entry }
          modify (·.mapUnit (·.rollback))
          match wrap context (parsed.1.2.getD []) with
          | .ok w => return some w
          | .error span => throw (.missingSource span) : Steps (Option WrappedInput)) s :=
  rfl

theorem wrapInput_unchanged (settled : s.unit.Settled) (input : String) (id : Nat) (entry : String)
    (printing : ValuePrinting) : Unchanged s (finalState (wrapInput input id entry printing s)) := by
  have holds := settled.holds.counted (s.unit.inputCount + 1)
  rw [wrapInput_parsed]
  extract_lets name parsed grown unit
  generalize outcome : parsed.1.1 = result
  cases result with
  | error r =>
    have clean : parsed.2.Clean s.unit.program := holds.clean_rejected _ _ _ _ _ outcome
    have unchanged : Unchanged s (s.mapUnit fun _ => unit) :=
      .of_clean ⟨clean.names, clean.included, clean.names_staged, clean.includes_staged⟩
    show Unchanged s (finalState ((if definesFunction r then return none
      else throw (.ofRejection r unit.sources) : Steps (Option WrappedInput)) (s.mapUnit fun _ => unit)))
    split <;> exact unchanged
  | ok p =>
    have after : parsed.2.Holds s.unit.program := holds.parseNamed _ _ _ _ _
    have holds' : unit.Holds s.unit.program := ⟨after.restores, after.included⟩
    have unchanged : Unchanged s (s.mapUnit fun _ => unit.rollback) := .of_clean holds'.clean_rollback
    dsimp only
    generalize wrap _ (parsed.1.2.getD []) = wrapped
    cases wrapped with
    | ok w => exact unchanged
    | error span => exact unchanged

/-! ## Reached sessions -/

/-- Steps that end settled if they begin so. -/
abbrev Settles (x : Steps α) : Prop := Preserves (fun s : Session => s.unit.Settled) x

theorem settles_compile (text : String) (entry : Option String) (codegen : Bool) :
    Settles (compile text entry codegen) := by
  intro s h
  obtain ⟨e, s', run, unchanged⟩ | ⟨f, s', run, settled, -, -⟩ := compile_cases h text entry codegen
  · rw [run]
    exact unchanged.settled
  · rw [run]
    exact settled

theorem settles_compileText (text : String) : Settles (compileText text) :=
  .get fun _ => .bind (settles_compile _ _ _) fun f => preserves_run f

theorem settles_evaluateStatements (input : String) : Settles (evaluateStatements input) := by
  refine .get fun s => .bind (.modifyGet fun s h => h) fun id => ?_
  extract_lets entry run
  have runs (wrapped : Option WrappedInput) : Settles (run wrapped) := by
    cases wrapped with
    | none => exact settles_compileText input
    | some w => exact .bind (settles_compile _ _ _) fun f => preserves_run f
  split
  · exact .bind (fun s h => (wrapInput_unchanged h _ _ _ _).settled) runs
  · exact .bind (.pure _) runs

theorem settles_evaluateInput (input : String) : Settles (evaluateInput input) := by
  unfold evaluateInput
  dsimp only
  split
  · exact .pure _
  · split
    · exact settles_compileText input
    · split
      · exact .throw _
      · exact settles_evaluateStatements input

theorem settles_loadPath (path : String) : Settles (loadPath path) := by
  have loads : Settles (do
      let e := (← get).evaluator
      let onSearchPath := !Path.isAbsolute path &&
        e.unit.includePaths.any fun dir => e.files.isFile (Path.join dir path)
      if e.files.isFile path || onSearchPath then compileText (includeText path)
      else throw (.load path .notFound) : Steps Evaluation) :=
    .get fun s => .ite (settles_compileText _) (.throw _)
  unfold loadPath
  split
  · exact .bind (.throw _) fun _ => loads
  · exact loads

theorem settles_guarded {steps : Steps Evaluation} (h : Settles steps) : Settles (guarded steps) := by
  intro s settled
  have after := h s settled
  unfold guarded
  cases s.poisoned with
  | some e => exact settled
  | none =>
    cases run : steps s with
    | ok r s' =>
      rw [run] at after
      exact ⟨after.names, after.includes⟩
    | error e s' =>
      rw [run] at after
      dsimp only
      split <;> exact ⟨after.names, after.includes⟩

theorem settles_executeFile (spec : String) : Settles (executeFile spec) := by
  unfold executeFile
  split
  · exact .throw _
  · split
    · exact .throw _
    · exact settles_guarded (.bind (settles_loadPath _) fun _ => .bind (settles_evaluateInput _) fun _ => .pure _)

/-- A session that inputs and settings have led to. -/
inductive Reached : Session → Prop where
  | created (options : SessionOptions) (handle : UInt64) (files : FileTree) {s : Session}
    (started : create options handle files = .ok s) : Reached s
  | evaluated {s : Session} (before : Reached s) (input : String) : Reached (finalState (evaluate input s))
  | compiled {s : Session} (before : Reached s) (text : String) : Reached (finalState (evaluateText text s))
  | loaded {s : Session} (before : Reached s) (path : String) : Reached (finalState (loadFile path s))
  | executed {s : Session} (before : Reached s) (spec : String) : Reached (finalState (executeFile spec s))
  | files {s : Session} (before : Reached s) (files : FileTree) : Reached (s.withFiles files)
  | dynamic {s : Session} (before : Reached s) (on : Bool) : Reached (s.setDynamic on)
  | options {s : Session} (before : Reached s) (options : CompilationOptions) : Reached (s.setOptions options)
  | client {s : Session} (before : Reached s) (client : Option Client) : Reached (s.setClient client)
  | log {s : Session} (before : Reached s) : Reached s.takeLog.2
  | includePath {s : Session} (before : Reached s) (path : String) : Reached (s.addIncludePath path)
  | dumped {s : Session} (before : Reached s) (range : DumpRange) : Reached (s.decls range).2

theorem settled_initial (options : SessionOptions) (handle : UInt64) (files : FileTree) :
    (initial options handle files).unit.Settled := by
  have paths (ps : List String) (u : GrowingUnit) (h : u.Settled) : (ps.foldl GrowingUnit.addIncludePath u).Settled := by
    induction ps generalizing u with
    | nil => exact h
    | cons p ps ih => exact ih _ (h.addIncludePath p)
  exact paths options.includePaths _ ⟨rfl, rfl⟩

/-- Between two inputs nothing is staged. -/
theorem Reached.settled (h : Reached s) : s.unit.Settled := by
  induction h with
  | created options handle files started =>
    have begun := settles_guarded (settles_compileText s!"void *{sessionGlobal} = (void *){hexText handle};") _
      (settled_initial options handle files)
    unfold create at started
    dsimp only at started
    split at started
    · rename_i run
      have run : guarded _ _ = _ := run
      rw [run] at begun
      cases started
      exact ⟨begun.names, begun.includes⟩
    · cases started
  | evaluated _ input ih => exact settles_guarded (settles_evaluateInput input) _ ih
  | compiled _ text ih => exact settles_guarded (settles_compileText text) _ ih
  | loaded _ path ih => exact settles_guarded (settles_loadPath path) _ ih
  | executed _ spec ih => exact settles_executeFile spec _ ih
  | files _ files ih => exact ih
  | dynamic _ on ih => exact ⟨ih.names, ih.includes⟩
  | options _ options ih => exact ⟨ih.names, ih.includes⟩
  | client _ client ih => exact ih
  | log _ ih => exact ih
  | includePath _ path ih => exact ih.addIncludePath path
  | dumped _ range ih => exact ih

end Session

end IncrementalC
