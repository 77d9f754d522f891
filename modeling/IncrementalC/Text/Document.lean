import IncrementalC.Decimal.Shortest

/-!
# JSON documents

`Document.compact` writes a document on one line, `Document.pretty` with an indent of two blanks.
Fields keep their order.
-/
namespace IncrementalC
set_option autoImplicit false

inductive Document where
  | null
  | bool (b : Bool)
  | int (n : Int)
  | float (x : Double)
  | str (s : String)
  | list (items : List Document)
  | object (fields : List (String × Document))
deriving Inhabited

namespace Document

def strings (items : List String) : Document := .list (items.map .str)

def ofOption {α : Type} (f : α → Document) : Option α → Document
  | none => .null
  | some x => f x

/-- One field whose name says what the value is. -/
def tagged (tag : String) (value : Document) : Document := .object [(tag, value)]

/-! ## Text -/

def hexDigit (n : Nat) : Char := (Nat.toDigits 16 n).headD '0'

/-- A character inside quotes. -/
def escape (c : Char) : List Char :=
  if c = '"' then ['\\', '"']
  else if c = '\\' then ['\\', '\\']
  else if c = '\n' then ['\\', 'n']
  else if c = '\r' then ['\\', 'r']
  else if c = '\t' then ['\\', 't']
  else if c = '\x08' then ['\\', 'b']
  else if c = '\x0c' then ['\\', 'f']
  else if c.toNat < 0x20 then ['\\', 'u', '0', '0', hexDigit (c.toNat / 16), hexDigit (c.toNat % 16)]
  else [c]

def quoted (s : String) : String := String.ofList ('"' :: (s.toList.flatMap escape ++ ['"']))

/-- Numbers that are not finite have no JSON form. -/
def floatText (x : Double) : String :=
  if x.isFinite then Decimal.render Decimal.jsonNotation x else "null"

mutual

def compact : Document → String
  | .null => "null"
  | .bool b => toString b
  | .int n => toString n
  | .float x => floatText x
  | .str s => quoted s
  | .list items => "[" ++ ",".intercalate (compactItems items) ++ "]"
  | .object fields => "\x7b" ++ ",".intercalate (compactFields fields) ++ "\x7d"

def compactItems : List Document → List String
  | [] => []
  | d :: ds => d.compact :: compactItems ds

def compactFields : List (String × Document) → List String
  | [] => []
  | (name, d) :: fields => s!"{quoted name}:{d.compact}" :: compactFields fields

end

/-- Items between brackets, one on a line. -/
def block (opening closing : String) (depth : Nat) (items : List String) : String :=
  if items.isEmpty then opening ++ closing else
  let indent (n : Nat) := String.ofList (List.replicate (2 * n) ' ')
  let lines := items.map (indent (depth + 1) ++ ·)
  opening ++ "\n" ++ ",\n".intercalate lines ++ "\n" ++ indent depth ++ closing

mutual

def prettyAt (depth : Nat) : Document → String
  | .list items => block "[" "]" depth (prettyItems (depth + 1) items)
  | .object fields => block "\x7b" "\x7d" depth (prettyFields (depth + 1) fields)
  | d => d.compact

def prettyItems (depth : Nat) : List Document → List String
  | [] => []
  | d :: ds => d.prettyAt depth :: prettyItems depth ds

def prettyFields (depth : Nat) : List (String × Document) → List String
  | [] => []
  | (name, d) :: fields => s!"{quoted name}: {d.prettyAt depth}" :: prettyFields depth fields

end

def pretty (d : Document) : String := d.prettyAt 0

end Document

end IncrementalC
