import IncrementalC.Source.SourceMap
import IncrementalC.Typed.Printer

/-!
# Statements as a unit of their own

`wrap` turns the statements of one input into declarations and a function. Declarations move to the
top so that they outlive the input; what has to run goes into the function. The last expression may
be wrapped so that its value is printed.

A statement is copied from its source text, or printed from its tree if the two no longer agree.
-/
namespace IncrementalC
set_option autoImplicit false
open Typed

/-- When the value of the last expression is printed. -/
inductive ValuePrinting where
  | disabled | enabled
  /-- Unless the input ends with a semicolon. -/
  | auto
deriving DecidableEq, Repr

namespace ValuePrinting

def name : ValuePrinting → String
  | .disabled => "disabled"
  | .enabled => "enabled"
  | .auto => "auto"

def ofName? : String → Option ValuePrinting
  | "disabled" | "off" => some .disabled
  | "enabled" | "on" => some .enabled
  | "auto" => some .auto
  | _ => none

/-- The complaint about a name that `ofName?` does not know. -/
def unknownMessage (name : String) : String := s!"unknown value printing mode '{name}'"

end ValuePrinting

structure WrappedInput where
  globals : List String := []
  body : List String := []
  /-- The last thing that runs. -/
  final : Option String := none
  /-- The function to call, if anything has to run. -/
  entry : Option String := none
deriving DecidableEq, Repr

/-- The unit as text. -/
def WrappedInput.source (w : WrappedInput) : String :=
  let lines := match w.entry with
    | some entry =>
      w.globals ++ s!"extern \"C\" void {entry}() \x7b" :: w.body ++ w.final.toList ++ ["\x7d"]
    | none => w.globals
  String.join (lines.map (· ++ "\n"))

namespace Wrapping

structure Context where
  sources : SourceMap
  types : TypeTable
  /-- Numbers of statements that no longer match their text. -/
  dirty : List Nat
  printing : ValuePrinting
  hasSemicolon : Bool
  entryName : String

def Context.prints (c : Context) : Bool :=
  match c.printing with
  | .enabled => true
  | .disabled => false
  | .auto => !c.hasSemicolon

/-- What may turn out to be the last thing that runs. -/
inductive Candidate where
  /-- An expression without its semicolon. -/
  | expr (text : String) (printable : Bool)
  | stmt (text : String)

def Candidate.text : Candidate → String
  | .expr text _ => text ++ ";"
  | .stmt text => text

/-- The text of the last candidate, with its value printed if that is wanted. -/
def Candidate.finalText (prints : Bool) : Candidate → String
  | .expr text true => if prints then s!"{Builtin.name .printValue}({text});" else text ++ ";"
  | c => c.text

structure State where
  globals : Array String := #[]
  body : Array String := #[]
  candidate : Option Candidate := none

/-- A statement without text is the only thing that can go wrong. -/
abbrev Wrap := StateT State (Except Span)

def slice (c : Context) (span : Span) : Wrap String :=
  match c.sources.slice? span with
  | some text => return text
  | none => throw span

/-- The text of something: from the sources, or printed if the statement has changed. -/
def textOf (c : Context) (dirty : Bool) (span : Span) (printed : Printer → String) : Wrap String :=
  if dirty then return printed { types := c.types } else slice c span

def addGlobal (text : String) : Wrap Unit := modify fun s => { s with globals := s.globals.push text }

/-- The candidate, if there is one, is not the last thing that runs. -/
def flush : Wrap Unit := modify fun s =>
  match s.candidate with
  | some x => { s with body := s.body.push x.text, candidate := none }
  | none => s

def setCandidate (x : Candidate) : Wrap Unit := do
  flush
  modify ({ · with candidate := some x })

/-! ## Declarations -/

def assign (target value : String) : Wrap Unit := setCandidate (.expr s!"{target} = {value}" true)

def exprText (c : Context) (dirty : Bool) (e : Expr) : Wrap String :=
  textOf c dirty e.span (·.expr e)

mutual

/-- Assigns the values of a list one by one. -/
def assignInitial (c : Context) (dirty : Bool) (target : String) (ty : Ty) :
    Initializer → Wrap Unit
  | .expr e => do assign target (← exprText c dirty e)
  | .list items _ =>
    match ty with
    | .array elem _ => assignElements c dirty target elem 0 items
    | .record id => assignFields c dirty target (((c.types.record? id).map (·.fields)).getD []) items
    | ty =>
      match items with
      | [] => return
      | item :: _ => assignInitial c dirty target ty item
  | .construct args _ =>
    match args with
    | [] => return
    | e :: _ => do assign target (← exprText c dirty e)

def assignElements (c : Context) (dirty : Bool) (target : String) (elem : Ty) (index : Nat) :
    List Initializer → Wrap Unit
  | [] => return
  | item :: items => do
    assignInitial c dirty s!"{target}[{index}]" elem item
    assignElements c dirty target elem (index + 1) items

def assignFields (c : Context) (dirty : Bool) (target : String) (fields : List Field) :
    List Initializer → Wrap Unit
  | [] => return
  | item :: items => do
    match fields with
    | [] => return
    | f :: fields =>
      assignInitial c dirty s!"{target}.{f.name}" f.ty item
      assignFields c dirty target fields items

end

/-- Declares an object at the top. A value that needs code is assigned where the object was
declared. -/
def var (c : Context) (dirty : Bool) (v : VarDecl) : Wrap Unit := do
  let declared := c.types.declare v.ty v.name
  let head := if v.isExtern then "extern " ++ declared else declared
  match v.init with
  | none => addGlobal (head ++ ";")
  | some (.construct args span) =>
    if args.isEmpty then addGlobal (head ++ ";")
    else
      let args ← textOf c dirty span (·.initializer (.construct args span))
      addGlobal s!"{head}{args};"
  | some (.expr e) =>
    let value ← exprText c dirty e
    if v.constantInit.isSome && !dirty then addGlobal s!"{head} = {value};"
    else
      addGlobal (head ++ ";")
      assign v.name value
  | some init =>
    addGlobal (head ++ ";")
    assignInitial c dirty v.name v.ty init

/-- A declaration of a group that declares several things, or an object. -/
def decl (c : Context) (dirty : Bool) (d : Decl) : Wrap Unit := do
  match d.kind with
  | .var v => var c dirty v
  | .record .. | .enum .. => addGlobal ((← textOf c dirty d.span (·.decl d)) ++ ";")
  | .function _ | .typedef .. => addGlobal (Printer.decl { types := c.types } d ++ ";")

def declGroup (c : Context) (dirty : Bool) (g : DeclGroup) : Wrap Unit := do
  match g.decls with
  | [d] =>
    match d.kind with
    | .var v => var c dirty v
    | _ => addGlobal (← textOf c dirty g.span (·.group g))
  | ds => ds.forM (decl c dirty)

/-! ## Statements -/

def stmt (c : Context) (s : Stmt) : Wrap Unit := do
  let dirty := c.dirty.contains s.node.id
  match s with
  | .null _ => return
  | .expr _ e => setCandidate (.expr (← exprText c dirty e) (!e.ty.isVoid))
  | .decl _ g =>
    flush
    declGroup c dirty g
  | s => setCandidate (.stmt (← textOf c dirty s.node.span (·.stmt 0 s)))

/-- What the statements come to. -/
def State.finish (c : Context) (s : State) : WrappedInput :=
  let final := s.candidate.map (·.finalText c.prints)
  { globals := s.globals.toList
    body := s.body.toList
    final
    entry := if final.isNone && s.body.isEmpty then none else some c.entryName }

end Wrapping

/-- Transforms the statements of an input, or finds one without source text. -/
def wrap (c : Wrapping.Context) (stmts : List Stmt) : Except Span WrappedInput :=
  match (stmts.forM (Wrapping.stmt c)).run {} with
  | .ok (_, s) => .ok (s.finish c)
  | .error span => .error span

end IncrementalC
