import IncrementalC.Analysis.Problem
import IncrementalC.NameMap
import IncrementalC.Typed.Folding

/-!
# Names, scopes and the state of the analysis

* `Names`: what is declared outside of functions: records, objects, functions, types, tags.
* `Undo`: how one change of the names is taken back.
* `Analysis`: the names as they stand now with the journal of their changes, the scopes of the
  function at hand, and the errors found. `Analysis.commit` forgets the journal,
  `Analysis.rollback` takes the changes back, the last one first.
* `Fallback`: what becomes of names that nobody declared.
-/
namespace IncrementalC
set_option autoImplicit false
open Typed

/-! ## Declared names -/

structure FunctionSig where
  ret : Ty
  params : List Ty
  variadic : Bool
deriving DecidableEq, Repr

inductive Symbol where
  | var (ty : Ty) (linkName : String) (defined : Bool)
  | function (sig : FunctionSig) (defined : Bool)
  | typedef (ty : Ty)
  | enumConst (value : Int64) (ty : Ty)
deriving DecidableEq, Repr

inductive Tag where
  | record (id : RecordId)
  | enum
deriving DecidableEq, Repr

/-- A name declared inside a function. -/
inductive LocalSymbol where
  | var (ty : Ty) (binding : Binding)
  | typedef (ty : Ty)
  | enumConst (value : Int64) (ty : Ty)
deriving DecidableEq, Repr

structure Names where
  types : TypeTable := {}
  globals : NameMap Symbol := {}
  tags : NameMap Tag := {}

/-- The identifiers that name types. -/
def Names.typeNames (n : Names) : List String :=
  (n.globals.entries.filterMap fun (name, s) => match s with
    | .typedef _ => some name
    | _ => none) ++ n.tags.names

/-! ## Changes of the names -/

/-- What stood in the place of something new. -/
inductive Undo where
  | global (name : String) (old : Option Symbol)
  | tag (name : String) (old : Option Tag)
  | record (id : RecordId) (old : RecordDef)

def Undo.apply (u : Undo) (n : Names) : Names :=
  match u with
  | .global name old => { n with globals := n.globals.restore name old }
  | .tag name old => { n with tags := n.tags.restore name old }
  | .record id old => { n with types := n.types.set id old }

/-- Takes changes back in the order of the list, then drops the records from `mark` on. -/
def Names.undo (n : Names) (journal : List Undo) (mark : Option Nat) : Names :=
  let n := journal.foldl (fun n u => u.apply n) n
  match mark with
  | some size => { n with types := n.types.truncate size }
  | none => n

/-- The signature of a builtin. Two builtins take one argument of any type and have none. -/
def Builtin.signature? : Builtin → Option FunctionSig
  | .printf => some ⟨.signedInt, [.charPtr], true⟩
  | .puts => some ⟨.signedInt, [.charPtr], false⟩
  | .putchar | .abs => some ⟨.signedInt, [.signedInt], false⟩
  | .labs => some ⟨.long, [.long], false⟩
  | .fabs | .sqrt | .floor | .ceil => some ⟨.double, [.double], false⟩
  | .pow => some ⟨.double, [.double, .double], false⟩
  | .strlen => some ⟨.unsignedLong, [.charPtr], false⟩
  | .eval => some ⟨.dynamic, [.voidPtr, .charPtr], true⟩
  | .printValue | .setResult => none

/-! ## Names that nobody declared -/

inductive Recovery where
  /-- The name is looked up at run time. -/
  | dependent
  /-- The name is a global object that holds a value. -/
  | bind (ty : Ty) (value : Constant)

/-- Decides on names that nobody declared. -/
inductive Fallback where
  | deferAll
  /-- The host knows some names. The map stands for a host that has an answer for finitely many of
  them, and gives the same one whenever it is asked. -/
  | bindings (known : NameMap Recovery)

def Fallback.lookup? : Fallback → String → Option Recovery
  | .deferAll, _ => some .dependent
  | .bindings known, name => known.get? name

/-! ## The state -/

/-- The function whose body is analysed. -/
structure FunctionContext where
  name : String
  ret : Ty
  nextSlot : Nat

structure Analysis where
  names : Names := {}
  /-- The changes of the names since the last commit, the last one first. -/
  journal : List Undo := []
  /-- The number of records at the last commit, once a record was added. -/
  recordMark : Option Nat := none
  /-- The scopes inside the function, innermost first. -/
  scopes : List (NameMap LocalSymbol) := []
  function : Option FunctionContext := none
  fallback : Option Fallback := none
  /-- The builtins of interactive sessions can be called. -/
  hasHooks : Bool := false
  errors : Array AnalysisError := #[]
  /-- Objects made up for names that the fallback knows. -/
  synthesized : Array Decl := #[]

namespace Analysis

def types (a : Analysis) : TypeTable := a.names.types

/-- Something was declared since the last commit. -/
def staged (a : Analysis) : Bool := !a.journal.isEmpty || a.recordMark.isSome

def commit (a : Analysis) : Analysis := { a with journal := [], recordMark := none }

def rollback (a : Analysis) : Analysis :=
  { a with
    names := a.names.undo a.journal a.recordMark
    journal := []
    recordMark := none
    scopes := []
    function := none
    synthesized := #[] }

def lookupLocal? (a : Analysis) (name : String) : Option LocalSymbol :=
  a.scopes.findSome? (·.get? name)

/-- The type of a global object. -/
def globalType? (a : Analysis) (name : String) : Option Ty :=
  match a.names.globals.get? name with
  | some (.var ty ..) => some ty
  | _ => none

def signature? (a : Analysis) (name : String) : Option FunctionSig :=
  match a.names.globals.get? name with
  | some (.function sig _) => some sig
  | _ => none

/-- The type that an identifier names. -/
def namedType? (a : Analysis) (name : String) : Option Ty :=
  let local? := a.scopes.findSome? fun scope => match scope.get? name with
    | some (.typedef ty) => some ty
    | _ => none
  match local?, a.names.globals.get? name, a.names.tags.get? name with
  | some ty, _, _ => some ty
  | none, some (.typedef ty), _ => some ty
  | none, _, some (.record id) => some (.record id)
  | none, _, some .enum => some (.enum name)
  | none, _, none => none

def builtin? (a : Analysis) (name : String) : Option Builtin :=
  (Builtin.ofName? name).filter fun b => !b.isHook || a.hasHooks

end Analysis

/-! ## Steps -/

abbrev Analyze := StateM Analysis

namespace Analyze

def report (problem : Problem) (span : Span) : Analyze Unit :=
  modify fun a => { a with errors := a.errors.push ⟨problem, span⟩ }

/-- Reports a problem in an expression whose type is then dependent, so that it is reported once. -/
def fail (problem : Problem) (span : Span) : Analyze Ty := do
  report problem span
  return .dependent

def typeName (ty : Ty) : Analyze String := return (← get).types.name ty

def setGlobal (name : String) (s : Symbol) : Analyze Unit :=
  modify fun a =>
    { a with
      names := { a.names with globals := a.names.globals.insert name s }
      journal := .global name (a.names.globals.get? name) :: a.journal }

def setTag (name : String) (t : Tag) : Analyze Unit :=
  modify fun a =>
    { a with
      names := { a.names with tags := a.names.tags.insert name t }
      journal := .tag name (a.names.tags.get? name) :: a.journal }

/-- Adds a record to the table. -/
def addRecord (r : RecordDef) : Analyze RecordId :=
  modifyGet fun a =>
    (a.types.size,
      { a with
        names := { a.names with types := a.types.add r }
        recordMark := a.recordMark <|> some a.types.size })

/-- Declares a record without fields. -/
def newRecord (name : String) : Analyze RecordId := do
  let id ← addRecord ⟨name, [], false⟩
  setTag name (.record id)
  return id

/-- Completes a record, if there is one of this number. -/
def defineRecord (id : RecordId) (r : RecordDef) : Analyze Unit :=
  modify fun a =>
    match a.types.record? id with
    | some old =>
      { a with
        names := { a.names with types := a.types.set id r }
        journal := .record id old :: a.journal }
    | none => a

/-- Declares a name in the innermost scope. -/
def setLocal (name : String) (s : LocalSymbol) : Analyze Unit :=
  modify fun a => match a.scopes with
    | scope :: scopes => { a with scopes := scope.insert name s :: scopes }
    | [] => a

/-- Runs a step inside a scope of its own. -/
def inScope {α : Type} (scope : NameMap LocalSymbol) (step : Analyze α) : Analyze α := do
  modify fun a => { a with scopes := scope :: a.scopes }
  let x ← step
  modify fun a => { a with scopes := a.scopes.tail }
  return x

/-- Declares a global object for a value that the fallback knows. -/
def bindValue (name : String) (ty : Ty) (value : Constant) (span : Span) : Analyze Binding := do
  let v : VarDecl :=
    { name, ty, init := none, storage := .global, linkName := name, isExtern := false,
      constantInit := some [(0, value)] }
  setGlobal name (.var ty name true)
  modify fun a => { a with synthesized := a.synthesized.push ⟨.var v, span⟩ }
  return .global name

/-- Asks the fallback about a name. -/
def recover? (name : String) (span : Span) : Analyze (Option (Binding × Ty)) := do
  match (← get).fallback.bind (·.lookup? name) with
  | none => return none
  | some .dependent => return some (.placeholder, .dependent)
  | some (.bind ty value) => return some (← bindValue name ty value span, ty)

end Analyze

end IncrementalC
