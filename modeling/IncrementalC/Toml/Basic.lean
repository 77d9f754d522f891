import IncrementalC.Text.Document
import IncrementalC.Toml.Scalar

/-!
# TOML documents

`Toml.parse?` reads a text as a document, which is always an object.

Headers and dotted keys make tables piece by piece. A `Node` remembers how a table came to be, since
that decides what may still be added to it: nothing is defined twice.
-/
namespace IncrementalC.Toml
set_option autoImplicit false

/-! ## Tables that grow -/

/-- How a table came to be. -/
inductive Origin where
  /-- By its own header. -/
  | header
  /-- By the header of a table below it. -/
  | implied
  /-- By a dotted key. -/
  | dotted
deriving DecidableEq, Repr

inductive Node where
  | value (d : Document)
  | table (origin : Origin) (entries : List (String × Node))
  /-- Tables under one name. The last one is open. -/
  | tables (items : List (List (String × Node)))

abbrev Entries := List (String × Node)

mutual

def Node.document : Node → Document
  | .value d => d
  | .table _ entries => .object (fields entries)
  | .tables items => .list (records items)

def fields : List (String × Node) → List (String × Document)
  | [] => []
  | (name, node) :: rest => (name, node.document) :: fields rest

def records : List (List (String × Node)) → List Document
  | [] => []
  | entries :: rest => .object (fields entries) :: records rest

end

namespace Entries

/-- Replaces the entry of a name, or adds one. -/
def alter (name : String) (f : Option Node → Option Node) : Entries → Option Entries
  | [] => (f none).map fun node => [(name, node)]
  | (other, node) :: rest =>
    if other = name then (f (some node)).map fun node => (name, node) :: rest
    else (alter name f rest).map ((other, node) :: ·)

/-- Changes the last of some tables. -/
def alterLast (f : Entries → Option Entries) : List Entries → Option (List Entries)
  | [] => none
  | [last] => (f last).map fun entries => [entries]
  | first :: rest => (alterLast f rest).map (first :: ·)

/-- Changes the entries of a node on the way of a header. A table that is missing is implied. -/
def within (f : Entries → Option Entries) : Option Node → Option Node
  | none => (f []).map (.table .implied)
  | some (.value _) => none
  | some (.table origin entries) => (f entries).map (.table origin)
  | some (.tables items) => (alterLast f items).map .tables

/-- Changes the table at a path of header names. -/
def inside : List String → (Entries → Option Entries) → Entries → Option Entries
  | [], f => f
  | name :: path, f => alter name (within (inside path f))

/-- Opens the table that a header names. -/
def openTable : Option Node → Option Node
  | none => some (.table .header [])
  | some (.table .implied entries) => some (.table .header entries)
  | some _ => none

/-- Adds a table under a name. -/
def appendTable : Option Node → Option Node
  | none => some (.tables [[]])
  | some (.tables items) => some (.tables (items ++ [[]]))
  | some _ => none

/-- Applies `f` to the node that a header names. -/
def header (f : Option Node → Option Node) : List String → Entries → Option Entries
  | [], _ => none
  | [name], entries => alter name f entries
  | name :: path, entries => alter name (within (header f path)) entries

/-- Gives a dotted key its value. The table that takes the value was made by a dotted key; those above
it have no header of their own. -/
def assign (d : Document) : List String → Entries → Option Entries
  | [], _ => none
  | [name], entries => alter name (fun node => if node.isSome then none else some (.value d)) entries
  | name :: path, entries => alter name (fun node =>
      match node with
      | none => (assign d path []).map (.table .dotted)
      | some (.value _) => none
      | some (.table origin inner) =>
        if origin = .dotted || (origin = .implied && 1 < path.length) then
          (assign d path inner).map (.table origin)
        else none
      | some (.tables items) =>
        if 1 < path.length then (alterLast (assign d path) items).map .tables else none) entries

end Entries

open Reader

/-! ## Values -/

/-- Items between brackets. A comma may stand behind the last one. The items so far are in
reverse. -/
def list (value : Reader Document) : Reader Document := do
  expect ['[']
  skipSpace
  steps (fun items => do
    if ← accept [']'] then return .inr (.list items.reverse)
    let items := (← value) :: items
    skipSpace
    if ← accept [','] then
      skipSpace
      return .inl items
    expect [']']
    return .inr (.list items.reverse)) []

/-- A key and its value. -/
def pair (value : Reader Document) : Reader (List String × Document) := do
  let path ← key
  expect ['=']
  skipBlanks
  let d ← value
  skipBlanks
  return (path, d)

/-- Pairs between braces, all on one line. -/
def inlineTable (value : Reader Document) : Reader Document := do
  expect ['\x7b']
  skipBlanks
  if ← accept ['\x7d'] then return .object []
  steps (fun entries => do
    let (path, d) ← pair value
    let entries ← (Entries.assign d path entries : Option Entries)
    if ← accept [','] then return .inl entries
    expect ['\x7d']
    return .inr (.object (fields entries))) []

/-- A value. Lists and inline tables take their items from `inner`. -/
def valueOver (inner : Option (Reader Document)) : Reader Document := do
  match ← peek?, inner with
  | some '"', _ => return .str (← quoted '"')
  | some '\'', _ => return .str (← quoted '\'')
  | some '[', some value => list value
  | some '\x7b', some value => inlineTable value
  | _, _ => scalar

/-- A value that nests at most `depth` lists and inline tables. -/
def value : Nat → Reader Document
  | 0 => valueOver none
  | depth + 1 => valueOver (some (value depth))

/-! ## Documents -/

/-- What was read, and the path of the header above the current line. -/
structure State where
  entries : Entries := []
  path : List String := []

/-- A header with its closing brackets, and what it does to the table that it names. -/
def headerLine (closing : List Char) (f : Option Node → Option Node) (s : State) : Reader State := do
  let path ← key
  expect closing
  endOfLine
  let entries ← (Entries.header f path s.entries : Option Entries)
  return { entries, path }

def pairLine (s : State) : Reader State := do
  let (path, d) ← pair (value depthLimit)
  endOfLine
  let entries ← (Entries.inside s.path (Entries.assign d path) s.entries : Option Entries)
  return { s with entries }

/-- One line, or the end of the text. -/
def line (s : State) : Reader (State ⊕ State) := do
  skipBlanks
  match ← peek? with
  | none => return .inr s
  | some '#' | some '\n' | some '\r' =>
    endOfLine
    return .inl s
  | some '[' =>
    if ← accept ['[', '['] then return .inl (← headerLine [']', ']'] Entries.appendTable s)
    expect ['[']
    return .inl (← headerLine [']'] Entries.openTable s)
  | some _ => return .inl (← pairLine s)

def document : Reader Document := do
  let _ ← accept ['\ufeff']
  let s ← steps line {}
  return .object (fields s.entries)

def parse? (text : String) : Option Document := (document.run text.toList).map (·.1)

end IncrementalC.Toml
