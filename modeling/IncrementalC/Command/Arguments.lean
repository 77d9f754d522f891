import IncrementalC.Decimal.Reading

/-!
# Arguments of the command line

`Arguments.parse` reads the words behind the program name. Options may stand before the subcommand or
behind it. The search paths behind it replace those before it.
-/
namespace IncrementalC
set_option autoImplicit false

inductive Subcommand where
  | prompt
  | evaluate (inputs : List String) (json : Bool)
  | run (file : String)
  | check (file : String) (emit : Bool) (output : Option String)
deriving DecidableEq, Repr

structure Arguments where
  includePaths : List String := []
  /-- Unknown names are errors. -/
  noDynamic : Bool := false
  subcommand : Subcommand := .prompt
deriving DecidableEq, Repr

namespace Arguments

/-- What a command line asks for. -/
inductive Request where
  | run (arguments : Arguments)
  | version
  | misuse (message : String)
deriving DecidableEq, Repr

/-! ## Options -/

inductive Opt where
  | includePath | noDynamic | verbose | version | json | emit | output
deriving DecidableEq, Repr

namespace Opt

def takesValue : Opt → Bool
  | .includePath | .output => true
  | _ => false

/-- Options that may be given more than once. -/
def repeats : Opt → Bool
  | .includePath | .verbose => true
  | _ => false

def short? : Char → Option Opt
  | 'I' => some .includePath
  | 'v' => some .verbose
  | 'V' => some .version
  | 'o' => some .output
  | _ => none

def long? : String → Option Opt
  | "no-dynamic" => some .noDynamic
  | "verbose" => some .verbose
  | "version" => some .version
  | "json" => some .json
  | "emit" => some .emit
  | "output" => some .output
  | _ => none

end Opt

/-- Where options are read: before the subcommand, or behind a subcommand. -/
inductive Place where
  | front | prompt | evaluate | run | check
deriving DecidableEq, Repr

def Place.ofName? : String → Option Place
  | "repl" => some .prompt
  | "eval" => some .evaluate
  | "run" => some .run
  | "check" => some .check
  | _ => none

/-- Some options belong to one place, the others are known everywhere. -/
def Place.knows (p : Place) : Opt → Bool
  | .version => p = .front
  | .json => p = .evaluate
  | .emit | .output => p = .check
  | _ => true

/-- The most words that are no options. -/
def Place.maxWords : Place → Option Nat
  | .evaluate => none
  | .run | .check => some 1
  | .front | .prompt => some 0

/-! ## Words -/

/-- What was read at one place. -/
structure Reading where
  place : Place
  options : List (Opt × String) := []
  words : List String := []
deriving DecidableEq, Repr

namespace Reading

def has (r : Reading) (o : Opt) : Bool := r.options.any (·.1 = o)

def values (r : Reading) (o : Opt) : List String := r.options.filter (·.1 = o) |>.map (·.2)

/-- Adds an option. Paths may not be empty. -/
def add (r : Reading) (o : Opt) (value : String) : Except String Reading :=
  if r.has o && !o.repeats then .error "an option cannot be used multiple times"
  else if o.takesValue && value.isEmpty then .error "a value is required for an option"
  else .ok { r with options := r.options ++ [(o, value)] }

def addWord (r : Reading) (word : String) : Except String Reading :=
  match r.place.maxWords with
  | some n =>
    if r.words.length < n then .ok { r with words := r.words ++ [word] }
    else .error s!"unexpected argument '{word}' found"
  | none => .ok { r with words := r.words ++ [word] }

/-- A word that is no option. A single minus is one. -/
def isPlain (word : String) : Bool :=
  match word.toList with
  | '-' :: _ :: _ => false
  | _ => true

/-- What is left of a word of short options. -/
inductive Short where
  | done (r : Reading)
  /-- The value of the option is the next word. -/
  | open (r : Reading) (o : Opt)

/-- Short options in one word. The first one with a value takes the rest, and one for the version ends
the reading. -/
def shorts (r : Reading) : List Char → Except String Short
  | [] => .ok (.done r)
  | c :: rest =>
    match (Opt.short? c).filter r.place.knows with
    | none => .error s!"unexpected argument '-{c}' found"
    | some o =>
      if o.takesValue then
        if rest.isEmpty then .ok (.open r o)
        else do
          let value := match rest with
            | '=' :: value => value
            | value => value
          return .done (← r.add o (String.ofList value))
      else do
        let r ← r.add o ""
        if o = .version then return .done r else shorts r rest

/-- A long option, with its value behind an equals sign if it has one. -/
def long (r : Reading) (text : String) : Except String Short := do
  let name := text.toList.takeWhile (· ≠ '=')
  let value? := match text.toList.dropWhile (· ≠ '=') with
    | [] => none
    | _ :: value => some (String.ofList value)
  match (Opt.long? (String.ofList name)).filter r.place.knows, value? with
  | none, _ => throw s!"unexpected argument '--{String.ofList name}' found"
  | some o, some value =>
    if o.takesValue then return .done (← r.add o value)
    else throw s!"unexpected value for '--{String.ofList name}' found"
  | some o, none => if o.takesValue then return .open r o else return .done (← r.add o "")

/-- One word that looks like an option. -/
def option (r : Reading) (word : String) : Except String Short :=
  match word.toList with
  | '-' :: '-' :: text => r.long (String.ofList text)
  | _ :: cs => r.shorts cs
  | [] => .ok (.done r)

end Reading

/-! ## Command lines -/

/-- The options of the command line before the subcommand, and what was read behind it. -/
structure Line where
  front : Reading
  behind : Option Reading := none
deriving DecidableEq, Repr

namespace Line

def current (l : Line) : Reading := l.behind.getD l.front

def withCurrent (l : Line) (r : Reading) : Line :=
  match l.behind with
  | some _ => { l with behind := some r }
  | none => { l with front := r }

/-- A word that is no option. The first one names the subcommand. -/
def word (l : Line) (text : String) : Except String Line :=
  match l.behind, Place.ofName? text with
  | some r, _ => (r.addWord text).map fun r => { l with behind := some r }
  | none, some place => .ok { l with behind := some { place } }
  | none, none => .error s!"unrecognized subcommand '{text}'"

/-- Words that cannot be options any more. -/
def plainWords (l : Line) : List String → Except String Line
  | [] => .ok l
  | text :: rest =>
    match l.behind with
    | some r => do plainWords { l with behind := some (← r.addWord text) } rest
    | none => .error s!"unexpected argument '{text}' found"

/-- Reads words. An option for the version ends the reading. -/
def read (l : Line) : List String → Except String Line
  | [] => .ok l
  | text :: rest =>
    if text = "--" then l.plainWords rest
    else if Reading.isPlain text then do read (← l.word text) rest
    else do
      match ← l.current.option text, rest with
      | .done r, rest => if r.has .version then return l.withCurrent r else read (l.withCurrent r) rest
      | .open .., [] => throw "a value is required for an option"
      | .open r o, value :: rest =>
        if Reading.isPlain value then read (l.withCurrent (← r.add o value)) rest
        else throw "a value is required for an option"

def subcommand (r : Reading) : Except String Subcommand :=
  match r.place, r.words with
  | .evaluate, w :: ws => .ok (.evaluate (w :: ws) (r.has .json))
  | .run, [file] => .ok (.run file)
  | .check, [file] =>
    if file.isEmpty then .error "a value is required for a file"
    else if r.has .output && !r.has .emit then .error "an output needs something to emit"
    else .ok (.check file (r.has .emit) (r.values .output).head?)
  | .prompt, [] | .front, [] => .ok .prompt
  | _, _ => .error "the following required arguments were not provided"

def arguments (l : Line) : Except String Arguments := do
  let behind := (l.behind.map (·.values .includePath)).getD []
  return {
    includePaths := if behind.isEmpty then l.front.values .includePath else behind
    noDynamic := l.front.has .noDynamic || l.current.has .noDynamic
    subcommand := ← subcommand l.current }

end Line

def parse (words : List String) : Request :=
  match Line.read { front := { place := .front } } words with
  | .error message => .misuse message
  | .ok l =>
    if l.front.has .version then .version
    else match l.arguments with
      | .ok arguments => .run arguments
      | .error message => .misuse message

end Arguments

end IncrementalC
