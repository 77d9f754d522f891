import IncrementalC.Session.Execution

/-!
# Templates at run time

A template is the text of an expression with `@` in the place of addresses. `substitute` fills the
addresses in; the `Evaluator` compiles the result against the program as it is, with names that the
embedding application knows. Nothing that a template declares stays.
-/
namespace IncrementalC
set_option autoImplicit false

/-! ## Filling in addresses -/

/-- Where a character of a template stands. -/
inductive TemplatePlace where
  | code
  /-- Inside a literal that the character delimits. -/
  | literal (quote : Char)
  /-- Behind a backslash inside a literal. -/
  | escaped (quote : Char)
deriving DecidableEq, Repr

def TemplatePlace.next (p : TemplatePlace) (c : Char) : TemplatePlace :=
  match p with
  | .code => if c = '"' ∨ c = '\'' then .literal c else .code
  | .literal q => if c = '\\' then .escaped q else if c = q then .code else .literal q
  | .escaped q => .literal q

inductive SubstitutionFault where
  | tooFew | tooMany
deriving DecidableEq, Repr

/-- Puts the addresses, in order, in the places of the marks. There have to be as many. -/
def substituteFrom : TemplatePlace → List UInt64 → List Char → Except SubstitutionFault (List Char)
  | _, [], [] => .ok []
  | _, _ :: _, [] => .error .tooMany
  | p, addresses, c :: s =>
    if p = .code ∧ c = '@' then
      match addresses with
      | [] => .error .tooFew
      | a :: addresses => return (hexText a).toList ++ (← substituteFrom .code addresses s)
    else return c :: (← substituteFrom (p.next c) addresses s)

def substitute (template : String) (addresses : List UInt64) : Except Fault String :=
  match substituteFrom .code addresses template.toList with
  | .ok s => .ok (String.ofList s)
  | .error .tooFew => .error (.tooFewAddresses template)
  | .error .tooMany => .error (.tooManyAddresses template)

/-! ## Compiling -/

/-- What an application gives to a session. -/
structure Client where
  /-- The names that it knows. -/
  bindings : NameMap Recovery := {}
  /-- It wants to be told of every template. -/
  observes : Bool := true

structure Evaluator where
  unit : GrowingUnit := {}
  files : FileTree := {}
  /-- The number that the program knows the session by. -/
  handle : UInt64
  /-- Templates compiled so far. -/
  count : Nat := 0
  /-- The application, if it wants to be asked. -/
  client : Option Client := none
  /-- The templates that the client was told of, with their addresses. -/
  log : Array (String × List UInt64) := #[]

namespace Evaluator

/-- Tells the client of a template. -/
def note (e : Evaluator) (template : String) (addresses : List UInt64) : Evaluator :=
  if e.client.any (·.observes) then { e with log := e.log.push (template, addresses) } else e

/-- The function that evaluates an expression and hands its value over. -/
def source (name expr : String) : String :=
  s!"void {name}() \x7b {Builtin.name .setResult}({expr}); \x7d"

/-- Compiles an expression and takes back what it declares. -/
def compileExpr (e : Evaluator) (expr : String) : Except Fault TemplateCode × Evaluator :=
  let count := e.count + 1
  let name := s!"__cinder_dyn_{count}"
  let known := (e.client.getD {}).bindings
  let ((result, module), unit) := e.unit.withFallback (some (.bindings known)) fun u =>
    u.quietly (·.parse e.files (source name expr) .code {})
  let e := { e with unit := unit.rollback, count }
  match result with
  | .ok _ => (.ok { module, entry := name }, e)
  | .error r => (.error (.unresolved r.message), e)

def compile (e : Evaluator) (handle : UInt64) (template : String) (addresses : List UInt64) :
    Except Fault TemplateCode × Evaluator :=
  if handle ≠ e.handle then (.error (.unknownHandle handle), e)
  else
    let e := e.note template addresses
    match substitute template addresses with
    | .ok expr => e.compileExpr expr
    | .error f => (.error f, e)

def host : Host Evaluator where
  compile := compile

end Evaluator

end IncrementalC
