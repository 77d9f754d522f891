import IncrementalC.Session.Basic
import IncrementalC.Text.CharClass
import IncrementalC.Text.Document
import IncrementalC.Toml.Basic

/-!
# Configuration

A configuration sets defaults for sessions and for the prompt. It is read from the file `cinder.toml`
in the working directory or the nearest directory above, else from the home directory.

* `Config.find?`, `Config.load`: the file that applies, and what it says.
* `Config.sessionOptions`, `Config.historyPath?`: what follows from it.

A record in a document is an object of named fields, or the list of their values from the front. A `Format` says
what a document format leaves open.
-/
namespace IncrementalC.Config
set_option autoImplicit false

/-! ## Records in documents -/

structure Format where
  /-- A record written as a list may hold more than its fields. -/
  allowsSurplus : Bool
  /-- A value that says nothing. -/
  isUnit : Document → Bool

def Format.json : Format where
  allowsSurplus := false
  isUnit
    | .null => true
    | _ => false

def Format.toml : Format where
  allowsSurplus := true
  isUnit
    | .list items => items.isEmpty
    | .object fields => fields.isEmpty
    | _ => false

abbrev Fields := List (String × Document)

/-- The fields of a record with these names, of which a list holds at least `least`. -/
def Format.record? (f : Format) (names : List String) (least : Nat) : Document → Option Fields
  | .object fields => some fields
  | .list items =>
    if items.length < least || (!f.allowsSurplus && names.length < items.length) then none
    else some (names.zip items)
  | _ => none

namespace Fields

variable {α : Type}

/-- A field that may be missing or null. -/
def optional (fields : Fields) (name : String) (read : Document → Option α) : Option (Option α) :=
  match fields.lookup name with
  | none | some .null => some none
  | some d => (read d).map some

/-- A field with a default. -/
def withDefault (fields : Fields) (name : String) (default : α) (read : Document → Option α) :
    Option α :=
  match fields.lookup name with
  | none => some default
  | some d => read d

end Fields

/-! ## Values -/

def bool? : Document → Option Bool
  | .bool b => some b
  | _ => none

/-- A count of 64 bits. -/
def count? : Document → Option Nat
  | .int n => if 0 ≤ n ∧ n.toNat < UInt64.size then some n.toNat else none
  | _ => none

def text? : Document → Option String
  | .str s => some s
  | _ => none

def texts? : Document → Option (List String)
  | .list items => items.mapM text?
  | _ => none

/-- A name out of a choice, alone or as the one field of an object. -/
def choice? {α : Type} (f : Format) (choices : List (String × α)) : Document → Option α
  | .str name => choices.lookup name
  | .object [(name, d)] => if f.isUnit d then choices.lookup name else none
  | _ => none

end IncrementalC.Config

namespace IncrementalC
set_option autoImplicit false

/-! ## Settings -/

/-- Defaults for sessions. -/
structure SessionSettings where
  includePaths : List String := []
  dynamicLookup : Option Bool := none
  valuePrinting : Option ValuePrinting := none
  debug : Option Bool := none
  instructionLimit : Option Nat := none
  globalMemoryLimit : Option Nat := none
deriving DecidableEq, Repr

/-- Settings of the prompt. -/
structure PromptSettings where
  historyPath : Option String := none
  /-- Inputs that are evaluated before the first prompt. -/
  startup : List String := []
deriving DecidableEq, Repr

structure Config where
  session : SessionSettings := {}
  prompt : PromptSettings := {}
deriving DecidableEq, Repr

namespace Config

/-! ## As a document -/

def printingNames : List (String × ValuePrinting) :=
  [ValuePrinting.disabled, .enabled, .auto].map fun mode => (mode.name, mode)

def SessionSettings.names : List String :=
  ["include_paths", "dynamic_lookup", "value_printing", "debug", "instruction_limit",
   "global_memory_limit"]

def sessionSettings? (f : Format) (d : Document) : Option SessionSettings := do
  let fields ← f.record? SessionSettings.names 6 d
  return {
    includePaths := ← fields.withDefault "include_paths" [] texts?
    dynamicLookup := ← fields.optional "dynamic_lookup" bool?
    valuePrinting := ← fields.optional "value_printing" (choice? f printingNames)
    debug := ← fields.optional "debug" bool?
    instructionLimit := ← fields.optional "instruction_limit" count?
    globalMemoryLimit := ← fields.optional "global_memory_limit" count? }

def promptSettings? (f : Format) (d : Document) : Option PromptSettings := do
  let fields ← f.record? ["history_path", "startup"] 1 d
  return {
    historyPath := ← fields.optional "history_path" text?
    startup := ← fields.withDefault "startup" [] texts? }

def ofDocument? (f : Format) (d : Document) : Option Config := do
  let fields ← f.record? ["session", "repl"] 0 d
  return {
    session := ← fields.withDefault "session" {} (sessionSettings? f)
    prompt := ← fields.withDefault "repl" {} (promptSettings? f) }

def document (c : Config) : Document :=
  let s := c.session
  let count := Document.ofOption fun n : Nat => .int n
  .object
    [("session", .object
      [("include_paths", .strings s.includePaths),
       ("dynamic_lookup", .ofOption .bool s.dynamicLookup),
       ("value_printing", .ofOption (.str ·.name) s.valuePrinting),
       ("debug", .ofOption .bool s.debug),
       ("instruction_limit", count s.instructionLimit),
       ("global_memory_limit", count s.globalMemoryLimit)]),
     ("repl", .object
      [("history_path", .ofOption .str c.prompt.historyPath), ("startup", .strings c.prompt.startup)])]

/-! ## Files -/

def fileName : String := "cinder.toml"

/-- The file that applies in a directory. -/
def find? (files : FileTree) (start : String) (home : Option String) : Option String :=
  let nearest := ((Path.chain start).map (Path.join · fileName)).find? files.isFile
  nearest.or <| home.bind fun home =>
    some ([".config", "cinder", fileName].foldl Path.join home) |>.filter files.isFile

inductive LoadError where
  | unreadable (path : String) (e : FileError)
  | malformed (path : String)
deriving DecidableEq, Repr

def LoadError.message : LoadError → String
  | .unreadable path e => s!"cannot read '{path}': {e.message}"
  | .malformed path => s!"invalid toml in '{path}': TOML parse error"

def load (files : FileTree) (path : String) : Except LoadError Config :=
  match files.readText path with
  | .error e => .error (.unreadable path e)
  | .ok text =>
    match (Toml.parse? text).bind (ofDocument? .toml) with
    | some c => .ok c
    | none => .error (.malformed path)

/-! ## Consequences -/

/-- The options of a session. Relative search paths are relative to `base`. -/
def sessionOptions (c : Config) (base : Option String) : SessionOptions :=
  let s := c.session
  let defaults : CompilationOptions := {}
  { compilation := { defaults with
      dynamicScoping := s.dynamicLookup.getD defaults.dynamicScoping
      valuePrinting := s.valuePrinting.getD defaults.valuePrinting
      debug := s.debug.getD defaults.debug }
    includePaths := s.includePaths.map fun path =>
      match base with
      | some base => Path.join base path
      | none => path
    instructionLimit := s.instructionLimit
    globalMemoryLimit := s.globalMemoryLimit }

/-- The variable of the environment that names another history file. -/
def historyVariable : String := "CINDER_REPL_HISTORY_PATH"

/-- A text without blanks around it, unless nothing is left. -/
def nonBlank? (s : Option String) : Option String :=
  (s.map Text.trimString).filter (!·.isEmpty)

/-- The history file of the prompt. The environment comes first. A tilde stands for the home
directory, and relative paths begin there. -/
def historyPath? (c : Config) (home override : Option String) : Option String :=
  match (nonBlank? override).or (nonBlank? c.prompt.historyPath) with
  | none => home.map fun home => Path.join (Path.join home ".cinder") "repl_history"
  | some raw =>
    if raw = "~" then home
    else match raw.toList with
      | '~' :: '/' :: rest => home.map (Path.join · (String.ofList rest))
      | _ => if Path.isAbsolute raw then some raw else home.map (Path.join · raw)

/-- A configuration to begin with. -/
def template : String :=
  "# Cinder configuration\n" ++
  "\n" ++
  "[session]\n" ++
  "# Directories searched by #include \"...\" and .L\n" ++
  "include_paths = []\n" ++
  "# Resolve unknown identifiers at run time\n" ++
  "dynamic_lookup = true\n" ++
  "# \"auto\" prints the value of inputs without a trailing semicolon\n" ++
  "value_printing = \"auto\"\n" ++
  "# Log the rewritten source of every input\n" ++
  "debug = false\n" ++
  "# Value slots available to globals and string literals\n" ++
  "# global_memory_limit = 16777216\n" ++
  "\n" ++
  "[repl]\n" ++
  "# history_path = \"~/.cinder/repl_history\"\n" ++
  "# Inputs evaluated before the first prompt\n" ++
  "startup = []\n"

end Config

end IncrementalC
