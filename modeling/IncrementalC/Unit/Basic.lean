import IncrementalC.Analysis.Unit
import IncrementalC.Deferred.Transform
import IncrementalC.Lowering.Unit
import IncrementalC.Syntax.Unit
import IncrementalC.Unit.Include

/-!
# A unit of source that grows

A `GrowingUnit` takes source text in fragments. `parse` reads a fragment, includes files,
analyses each top-level group and hands it to a consumer. What a fragment declares is staged until
`commit`; a rejected fragment is rolled back.

* `Consumer`: what is made of the groups, one after the other.
* `ParsedFragment`, `Rejection`: the two outcomes.
* `compile`: the code of a program that is given at once.
-/
namespace IncrementalC
set_option autoImplicit false

structure GrowingUnit where
  sources : SourceMap := {}
  analysis : Analysis := {}
  deferred : DeferredState := {}
  includePaths : List String := []
  /-- Files that committed fragments include. -/
  included : List String := []
  stagedIncludes : List String := []
  inputCount : Nat := 0
  nextId : Nat := 0
  /-- The number of errors of the last fragment. -/
  errorCount : Nat := 0

structure ParsedFragment where
  name : String
  /-- The number of the fragment among the sources. -/
  id : Nat
  groups : List Typed.TopLevel
  /-- What this fragment leaves to run time. -/
  records : List Deferral
  /-- Numbers of statements that no longer match their text. -/
  dirty : List Nat

def ParsedFragment.decls (p : ParsedFragment) : List Typed.Decl :=
  p.groups.flatMap (·.group.decls)

/-- Why a fragment is no part of the program. -/
structure Rejection where
  errors : List CompileError
  /-- The function whose definition the error cuts short. -/
  neutralized : Option String := none
deriving Repr

def Rejection.message (r : Rejection) : String :=
  match r.errors with
  | e :: _ => e.message
  | [] => "parse failed"

/-- Makes a `σ` out of the groups of a fragment. -/
structure Consumer (σ : Type) where
  step : Analysis → Typed.TopLevel → σ → Except CompileError σ

namespace Consumer

/-- Checks only. -/
def none : Consumer Unit where
  step _ _ s := .ok s

def code : Consumer CodeModule where
  step a t m := (lower a t m).mapError .lowering

/-- The statements of the function called `name`. -/
def body (name : String) : Consumer (Option (List Typed.Stmt)) where
  step _ t seen := .ok <|
    match t.function?, t.statements? with
    | some f, some stmts => if f.name = name then some stmts else seen
    | _, _ => seen

end Consumer

namespace GrowingUnit

/-! ## Settings -/

/-- Adds a directory to look in, unless it is among them already. -/
def addIncludePath (u : GrowingUnit) (path : String) : GrowingUnit :=
  if u.includePaths.any (Path.isSame · path) then u
  else { u with includePaths := u.includePaths ++ [path] }

/-- Makes the builtins of interactive sessions visible. -/
def installHooks (u : GrowingUnit) : GrowingUnit :=
  { u with analysis := { u.analysis with hasHooks := true } }

/-- Leaves unknown names to run time, or no longer. -/
def setDynamic (u : GrowingUnit) (on : Bool) : GrowingUnit :=
  { u with
    analysis := { u.analysis with fallback := if on then some .deferAll else none }
    deferred := { u.deferred with enabled := on } }

def isDynamic (u : GrowingUnit) : Bool := u.deferred.enabled

/-- Runs a step in which `fallback` decides on unknown names and nothing is left to run time. -/
def withFallback {α : Type} (u : GrowingUnit) (fallback : Option Fallback)
    (step : GrowingUnit → α × GrowingUnit) : α × GrowingUnit :=
  let (x, v) := step
    { u with
      analysis := { u.analysis with fallback }
      deferred := { u.deferred with enabled := false } }
  (x, { v with
        analysis := { v.analysis with fallback := u.analysis.fallback }
        deferred := { v.deferred with enabled := u.deferred.enabled } })

/-- Forgets what was left to run time. -/
def clearDeferrals (u : GrowingUnit) : GrowingUnit :=
  { u with deferred := u.deferred.clear }

/-! ## Keeping and dropping -/

def commit (u : GrowingUnit) : GrowingUnit :=
  { u with
    analysis := u.analysis.commit
    included := u.included ++ u.stagedIncludes
    stagedIncludes := [] }

def rollback (u : GrowingUnit) : GrowingUnit :=
  { u with analysis := u.analysis.rollback, stagedIncludes := [] }

/-! ## Reading a fragment -/

/-- A fragment while it is read. -/
structure Progress (σ : Type) where
  unit : GrowingUnit
  seen : σ
  groups : Array Typed.TopLevel := #[]

/-- What was done before a rejection stays in the state. -/
abbrev Read (σ : Type) := ExceptT Rejection (StateM (Progress σ))

variable {σ : Type}

def reject {α : Type} (e : CompileError) : Read σ α := throw { errors := [e] }

def readUnit : Read σ GrowingUnit := return (← get).unit

/-- The tokens of a fragment, with those of the files that it includes. -/
def readTokens (files : FileTree) (name text : String) : Read σ (List Token) := do
  let u ← readUnit
  let search : Include.Search := { files, paths := u.includePaths, included := u.included }
  let steps : Include.Expand (List Token) := do
    Include.expand search (← Include.addText name text)
  let (result, st) := steps.run { sources := u.sources, staged := u.stagedIncludes }
  modify ({ · with unit := { u with sources := st.sources, stagedIncludes := st.staged } })
  match result with
  | .ok tokens => return tokens
  | .error e => reject e

/-- The analysed group, with what is left to run time replaced. -/
def analyzeGroup (t : Syntax.TopLevel) : Read σ Typed.TopLevel := do
  let u ← readUnit
  let (result, analysis) := u.analysis.analyze t
  modify ({ · with unit := { u with analysis } })
  match result with
  | .error es => reject (.analysis es)
  | .ok group =>
    if !u.deferred.enabled then return group
    let (result, deferred) := u.deferred.transform analysis group
    modify ({ · with unit := { u with analysis, deferred } })
    match result with
    | .error es => reject (.analysis es)
    | .ok group => return group

def consume (c : Consumer σ) (t : Typed.TopLevel) : Read σ Unit := do
  let p ← get
  match c.step p.unit.analysis t p.seen with
  | .ok seen => set { p with seen }
  | .error e => reject e

/-- Objects that were made up for known names come before the group that uses them. -/
def consumeMadeUp (c : Consumer σ) (span : Span) : Read σ Unit := do
  let u ← readUnit
  let decls := u.analysis.synthesized.toList
  if !decls.isEmpty then
    modify ({ · with unit := { u with analysis := { u.analysis with synthesized := #[] } } })
    consume c { group := { decls, span } }

def readGroup (c : Consumer σ) (t : Syntax.TopLevel) : Read σ Unit := do
  let group ← analyzeGroup t
  consumeMadeUp c group.group.span
  consume c group
  modify fun p => { p with groups := p.groups.push group }

/-- Reads at most `count` groups, and returns where the next one begins. -/
def readGroups (c : Consumer σ) : Nat → Syntax.Cursor → Read σ Syntax.Cursor
  | 0, cursor => return cursor
  | count + 1, cursor => do
    match Syntax.topLevel? cursor with
    | .error e => throw { errors := [.grammar e.error], neutralized := e.function }
    | .ok (none, cursor) => return cursor
    | .ok (some t, cursor) =>
      readGroup c t
      readGroups c count cursor

def readFragment (files : FileTree) (name text : String) (c : Consumer σ) :
    Read σ ParsedFragment := do
  let before ← readUnit
  let tokens ← readTokens files name text
  let cursor := Syntax.Cursor.ofTokens tokens before.analysis.names.typeNames before.nextId
  -- a group is at least one token long
  let cursor ← readGroups c (tokens.length + 1) cursor
  modify fun p => { p with unit := { p.unit with nextId := cursor.nextId } }
  let p ← get
  return {
    name
    id := before.sources.fragments.size
    groups := p.groups.toList
    records := p.unit.deferred.records.toList.drop before.deferred.records.size
    dirty := p.unit.deferred.dirty }

/-- Reads a fragment called `name`. A rejected one leaves what the consumer has made so far. -/
def parseNamed (u : GrowingUnit) (files : FileTree) (name text : String) (c : Consumer σ)
    (start : σ) : (Except Rejection ParsedFragment × σ) × GrowingUnit :=
  let (result, p) := (readFragment files name text c).run { unit := u, seen := start }
  match result with
  | .ok fragment => ((.ok fragment, p.seen), { p.unit with errorCount := 0 })
  | .error r => ((.error r, p.seen), { p.unit.rollback with errorCount := r.errors.length })

/-- The name of the next fragment without a name of its own. -/
def nextName (u : GrowingUnit) : String := s!"input_line_{u.inputCount}"

def parse (u : GrowingUnit) (files : FileTree) (text : String) (c : Consumer σ) (start : σ) :
    (Except Rejection ParsedFragment × σ) × GrowingUnit :=
  { u with inputCount := u.inputCount + 1 }.parseNamed files u.nextName text c start

/-- Runs a step whose errors do not count. -/
def quietly {α : Type} (u : GrowingUnit) (step : GrowingUnit → α × GrowingUnit) :
    α × GrowingUnit :=
  let (x, v) := step u
  (x, { v with errorCount := u.errorCount })

end GrowingUnit

/-- The code of a whole program. -/
def compile (text : String) (files : FileTree) : Except (List CompileError) CodeModule :=
  match (({} : GrowingUnit).parse files text .code {}).1 with
  | (.ok _, m) => .ok m
  | (.error r, _) => .error r.errors

end IncrementalC
