import IncrementalC.Decimal.Reading

/-!
# Reading TOML text

A `Reader` takes characters from the front of a text or fails. This module holds what lines are made
of: blanks, comments, line ends, quoted text and keys.
-/
namespace IncrementalC.Toml
set_option autoImplicit false

abbrev Reader := StateT (List Char) Option

namespace Reader

def next : Reader Char := do
  match ← get with
  | [] => failure
  | c :: rest =>
    set rest
    return c

def peek? : Reader (Option Char) := return (← get).head?

/-- Takes a text if it stands in front. -/
def accept (text : List Char) : Reader Bool := do
  if text.isPrefixOf (← get) then
    modify (·.drop text.length)
    return true
  else return false

def expect (text : List Char) : Reader Unit := do
  unless ← accept text do failure

def takeWhile (p : Char → Bool) : Reader (List Char) := modifyGet fun s => (s.takeWhile p, s.dropWhile p)

/-- Takes steps until one ends with a result. -/
def stepsWithin {σ α : Type} (step : σ → Reader (σ ⊕ α)) : Nat → σ → Reader α
  | 0, _ => failure
  | n + 1, s => do
    match ← step s with
    | .inl s => stepsWithin step n s
    | .inr result => return result

/-- Takes steps until one ends with a result. Each step but the last takes a character. -/
def steps {σ α : Type} (step : σ → Reader (σ ⊕ α)) (start : σ) : Reader α := do
  stepsWithin step ((← get).length + 1) start

end Reader

open Reader

/-! ## Lines -/

/-- A character that quotes and comments may hold. -/
def isPlain (c : Char) : Bool := c = '\t' || (0x20 ≤ c.toNat && c.toNat ≠ 0x7F)

def isBlank (c : Char) : Bool := c = ' ' || c = '\t'

def skipBlanks : Reader Unit := do
  let _ ← takeWhile isBlank

def acceptNewline : Reader Bool := do
  if ← accept ['\n'] then return true
  else accept ['\r', '\n']

def skipComment : Reader Unit := do
  if ← accept ['#'] then
    let _ ← takeWhile isPlain

/-- The end of a line or of the text, possibly behind blanks and a comment. -/
def endOfLine : Reader Unit := do
  skipBlanks
  skipComment
  unless ← acceptNewline do
    unless (← get).isEmpty do failure

/-- Drops blanks, line ends and comments in front. -/
def dropSpace (inComment : Bool) : List Char → List Char
  | [] => []
  | '\r' :: '\n' :: rest => dropSpace false rest
  | c :: rest =>
    if c = '\n' then dropSpace false rest
    else if inComment && isPlain c then dropSpace true rest
    else if inComment then c :: rest
    else if isBlank c then dropSpace false rest
    else if c = '#' then dropSpace true rest
    else c :: rest

def skipSpace : Reader Unit := modify (dropSpace false)

/-! ## Quoted text -/

/-- The value of a hexadecimal digit. -/
def hexDigit (c : Char) : Nat := if c.isDigit then c.toNat - 48 else c.toLower.toNat - 87

def isHexDigit (c : Char) : Bool := c.isDigit || ('a' ≤ c.toLower && c.toLower ≤ 'f')

/-- A character by its number, in `width` hexadecimal digits. -/
def codePoint (width : Nat) : Reader Char := do
  let ds := (← get).take width
  if ds.length < width || !ds.all isHexDigit then failure
  modify (·.drop width)
  let n := Text.numeralValue 16 hexDigit ds
  if n.isValidChar then return Char.ofNat n else failure

/-- What stands behind a backslash. -/
def escaped : Reader Char := do
  match ← next with
  | 'b' => return '\x08'
  | 't' => return '\t'
  | 'n' => return '\n'
  | 'f' => return '\x0c'
  | 'r' => return '\r'
  | '"' => return '"'
  | '\\' => return '\\'
  | 'u' => codePoint 4
  | 'U' => codePoint 8
  | _ => failure

/-- Text up to the closing quote. Double quotes know escapes. The text so far is in reverse. -/
def lineText (quote : Char) (read : List Char) : Reader (List Char ⊕ String) := do
  let c ← next
  if c = quote then return .inr (String.ofList read.reverse)
  else if c = '\\' && quote = '"' then return .inl ((← escaped) :: read)
  else if isPlain c then return .inl (c :: read)
  else failure

/-- Drops blanks and line ends in front. -/
def dropLines : List Char → List Char
  | [] => []
  | '\r' :: '\n' :: rest => dropLines rest
  | c :: rest => if c = '\n' || isBlank c then dropLines rest else c :: rest

/-- Skips a line end behind a backslash and all blanks and line ends that follow. -/
def skipContinuation : Reader Bool := do
  let start ← get
  skipBlanks
  if ← acceptNewline then
    modify dropLines
    return true
  else
    set start
    return false

/-- Text that may run over lines, up to three quotes. Two more may stand before those. -/
def blockText (quote : Char) (read : List Char) : Reader (List Char ⊕ String) := do
  let quotes ← takeWhile (· = quote)
  if 5 < quotes.length then failure
  else if 3 ≤ quotes.length then return .inr (String.ofList (quotes.drop 3 ++ read).reverse)
  else if !quotes.isEmpty then return .inl (quotes ++ read)
  else if ← acceptNewline then return .inl ('\n' :: read)
  else
    let c ← next
    if c = '\\' && quote = '"' then
      if ← skipContinuation then return .inl read else return .inl ((← escaped) :: read)
    else if isPlain c then return .inl (c :: read)
    else failure

/-- Text between two quotes on one line. -/
def quotedLine (quote : Char) : Reader String := do
  expect [quote]
  steps (lineText quote) []

/-- Quoted text. A line end right behind three opening quotes does not count. -/
def quoted (quote : Char) : Reader String := do
  if ← accept [quote, quote, quote] then
    let _ ← acceptNewline
    steps (blockText quote) []
  else quotedLine quote

/-! ## Keys -/

def isBare (c : Char) : Bool := c.isAlphanum || c = '_' || c = '-'

def keyPart : Reader String := do
  match ← peek? with
  | some '"' => quotedLine '"'
  | some '\'' => quotedLine '\''
  | _ =>
    let name ← takeWhile isBare
    if name.isEmpty then failure else return String.ofList name

/-- How deep keys and values may go. -/
def depthLimit : Nat := 79

/-- The parts of a key, which points divide. The parts so far are in reverse. -/
def key : Reader (List String) := do
  let parts ← steps (fun parts => do
    skipBlanks
    let parts := (← keyPart) :: parts
    skipBlanks
    if ← accept ['.'] then return .inl parts else return .inr parts) []
  if depthLimit < parts.length then failure else return parts.reverse

end IncrementalC.Toml
