import IncrementalC.Decimal.Reading
import IncrementalC.Text.CharClass
import IncrementalC.Token.Basic

/-!
# From text to tokens

`scan` reads one lexeme at the head of the text: trivia (blanks, comments, line splices) or a
token. It says how many characters belong to the lexeme and knows nothing of positions; `tokenize`
adds those, and joins adjacent string literals.

A lexeme is never empty, so the scanners count the characters *behind the first one*. What remains
is then shorter by construction, and the loop of `tokenize` ends.
-/
namespace IncrementalC
set_option autoImplicit false

/-- Why a text is no sequence of tokens. -/
inductive LexFault where
  | unexpectedChar (c : Char)
  | unterminatedString
  | unterminatedChar
  | unterminatedComment
  | invalidNumber (text : String)
  | invalidEscape (c : Char)
  | unsupportedDirective (name : String)
  | malformedInclude
deriving DecidableEq, Repr

def LexFault.message : LexFault → String
  | .unexpectedChar c => s!"unexpected character '{c}'"
  | .unterminatedString => "missing terminating '\"' character"
  | .unterminatedChar => "missing terminating ' character"
  | .unterminatedComment => "unterminated /* comment"
  | .invalidNumber text => s!"invalid numeric literal '{text}'"
  | .invalidEscape c => s!"unknown escape sequence '\\{c}'"
  | .unsupportedDirective name => s!"preprocessor directive '#{name}' is not supported"
  | .malformedInclude => "expected \"FILENAME\" or <FILENAME>"

structure LexError where
  fault : LexFault
  span : Span
deriving Repr

def LexError.message (e : LexError) : String := e.fault.message

namespace Lexer
open Text

/-- A fault and the characters that it concerns, counted from the start of the lexeme. -/
structure ScanFault where
  fault : LexFault
  start : Nat
  stop : Nat
deriving DecidableEq, Repr

/-- What a lexeme is, `none` for trivia, and the number of characters behind its first one. -/
abbrev Scan := Except ScanFault (Option TokenKind × Nat)

/-! ## Comments -/

/-- The number of characters up to the end of a block comment, the closing mark included. -/
def commentLength? : List Char → Option Nat
  | '*' :: '/' :: _ => some 2
  | _ :: r => (commentLength? r).map (· + 1)
  | [] => none

def lineLength (s : List Char) : Nat := (s.takeWhile (· != '\n')).length

/-! ## Numbers -/

def isHexDigit (c : Char) : Bool :=
  c.isDigit || ('a' ≤ c && c ≤ 'f') || ('A' ≤ c && c ≤ 'F')

/-- The value of a hexadecimal digit. -/
def hexValue (c : Char) : Nat :=
  if c.isDigit then c.toNat - '0'.toNat
  else if c.isLower then c.toNat - 'a'.toNat + 10
  else c.toNat - 'A'.toNat + 10

def isOctalDigit (c : Char) : Bool := '0' ≤ c && c ≤ '7'

/-- The value of `ds` in `base`, if there are digits and it fits 64 bits. -/
def digitsIn? (base : Nat) (isDigit : Char → Bool) (ds : List Char) : Option Nat :=
  if ds.isEmpty || !ds.all isDigit then none else
  let v := Text.numeralValue base hexValue ds
  if v < UInt64.size then some v else none

/-- The characters of a decimal numeral, with the number of source characters read. A sign belongs
to the numeral behind an exponent mark only; an apostrophe separates digits and is dropped. -/
def decimalChars (last : Char) : List Char → List Char × Nat
  | [] => ([], 0)
  | c :: r =>
    let signOfExponent := (c == '+' || c == '-') && (last == 'e' || last == 'E')
    if c.isDigit || c == '.' || c == 'e' || c == 'E' || signOfExponent then
      let (text, n) := decimalChars c r
      (c :: text, n + 1)
    else if c == '\'' then
      let (text, n) := decimalChars last r
      (text, n + 1)
    else ([], 0)

def intSuffix? : String → Option IntSuffix
  | "" => some .none
  | "u" => some .u
  | "l" => some .l
  | "ul" | "lu" => some .ul
  | "ll" => some .ll
  | "ull" | "llu" => some .ull
  | _ => none

def floatSuffix? : String → Option Bool
  | "" | "l" => some false
  | "f" => some true
  | _ => none

/-- The text is in hexadecimal if it begins with `0x`. -/
def isHexNumeral : List Char → Bool
  | '0' :: 'x' :: _ | '0' :: 'X' :: _ => true
  | _ => false

/-- The characters of a numeral without its mark and separators, with the number of source
characters read. -/
def numeralChars (s : List Char) : List Char × Nat :=
  if isHexNumeral s then
    let ds := (s.drop 2).takeWhile fun c => isHexDigit c || c == '\''
    (ds.filter (· != '\''), ds.length + 2)
  else decimalChars ' ' s

/-- The value of a numeral without point and exponent: octal if a zero leads. -/
def integerValue? (isHex : Bool) (text : List Char) : Option Nat :=
  if isHex then digitsIn? 16 isHexDigit text
  else match text with
    | '0' :: d :: ds => digitsIn? 8 isOctalDigit (d :: ds)
    | ds => digitsIn? 10 Char.isDigit ds

/-- The literal that a numeral and the letters behind it make up. -/
def numberKind? (isHex : Bool) (text : List Char) (suffix : String) : Option TokenKind :=
  if !isHex && text.any fun c => c == '.' || c == 'e' || c == 'E' then
    do return .float (← Decimal.parse? text) (← floatSuffix? suffix)
  else do return .int (← integerValue? isHex text) (← intSuffix? suffix)

/-- Reads a number: hexadecimal with `0x`, octal with a leading zero, decimal or floating. -/
def scanNumber (s : List Char) : Scan :=
  let (text, n) := numeralChars s
  let letters := (s.drop n).takeWhile Char.isAlpha
  let suffix := String.ofList (letters.map Char.toLower)
  let stop := n + letters.length
  match numberKind? (isHexNumeral s) text suffix with
  | some k => .ok (some k, stop - 1)
  | none => .error ⟨.invalidNumber (String.ofList text ++ suffix), 0, stop⟩

/-! ## Strings and characters -/

/-- Reads an escape sequence behind its backslash, which stands just before character `i` of the
lexeme. Also gives the number of characters read. -/
def scanEscape (i : Nat) : List Char → Except ScanFault (Char × Nat)
  | [] => .error ⟨.unterminatedString, i, i⟩
  | c :: r =>
    match c with
    | 'n' => .ok ('\n', 1)
    | 't' => .ok ('\t', 1)
    | 'r' => .ok ('\r', 1)
    | 'a' => .ok ('\x07', 1)
    | 'b' => .ok ('\x08', 1)
    | 'f' => .ok ('\x0c', 1)
    | 'v' => .ok ('\x0b', 1)
    | 'x' =>
      let ds := r.takeWhile isHexDigit
      .ok (Char.ofNat (ds.foldl (fun n d => (16 * n + hexValue d) % 256) 0), ds.length + 1)
    | _ =>
      if isOctalDigit c then
        let ds := c :: (r.take 2).takeWhile isOctalDigit
        .ok (Char.ofNat (ds.foldl (fun n d => 8 * n + hexValue d) 0), ds.length)
      else if c == '\\' || c == '\'' || c == '"' || c == '?' then .ok (c, 1)
      else .error ⟨.invalidEscape c, i, i⟩

/-- Reads the inside of a string literal and its closing quote. `i` characters of the lexeme stand
before the text; `skip` of the next ones belong to an escape already read. -/
def scanStringFrom (i skip : Nat) (acc : List Char) : List Char → Except ScanFault (String × Nat)
  | [] => .error ⟨.unterminatedString, 0, i⟩
  | c :: r =>
    match skip with
    | skip + 1 => scanStringFrom (i + 1) skip acc r
    | 0 =>
      if c == '\n' then .error ⟨.unterminatedString, 0, i⟩
      else if c == '"' then .ok (String.ofList acc.reverse, i + 1)
      else if c == '\\' then
        match scanEscape (i + 1) r with
        | .ok (e, n) => scanStringFrom (i + 1) n (e :: acc) r
        | .error f => .error f
      else scanStringFrom (i + 1) 0 (c :: acc) r

/-- Reads a string literal behind its opening quote. -/
def scanString (r : List Char) : Scan := do
  let (text, n) ← scanStringFrom 1 0 [] r
  return (some (.str text), n - 1)

/-- Reads the inside of a character literal, with the number of characters read. -/
def scanCharInside : List Char → Except ScanFault (Char × Nat)
  | [] | '\n' :: _ | '\'' :: _ => .error ⟨.unterminatedChar, 0, 1⟩
  | '\\' :: r => do
    let (c, n) ← scanEscape 2 r
    return (c, n + 1)
  | c :: _ => .ok (c, 1)

/-- Reads a character literal behind its opening quote. -/
def scanChar (r : List Char) : Scan := do
  let (c, n) ← scanCharInside r
  match r.drop n with
  | '\'' :: _ => return (some (.char c.toNat), n + 1)
  | _ => .error ⟨.unterminatedChar, 0, n + 1⟩

/-! ## Directives -/

/-- Cuts a line comment off, unless a string is open where the first one begins. -/
def stripLineComment (s : List Char) : List Char :=
  go [] s
where
  go (before : List Char) : List Char → List Char
    | '/' :: '/' :: r =>
      if before.count '"' % 2 = 0 then before.reverse else before.reverse ++ '/' :: '/' :: r
    | c :: r => go (c :: before) r
    | [] => before.reverse

/-- The text between `first` and `last`, if `s` begins and ends so. -/
def between? (first last : Char) : List Char → Option (List Char)
  | c :: r => if c == first && r.getLast? == some last then some r.dropLast else none
  | [] => none

/-- Reads a directive behind its `#`, up to the end of the line. -/
def scanDirective (r : List Char) : Scan :=
  let stop := lineLength r + 1
  let line := r.takeWhile (· != '\n')
  let body := line.dropWhile fun c => c == ' ' || c == '\t'
  let name := String.ofList (body.takeWhile isWordChar)
  let rest := trim (stripLineComment (body.dropWhile isWordChar))
  let found d : Scan := .ok (some (.directive d), stop - 1)
  match name with
  | "include" =>
    let path := match between? '"' '"' rest with
      | some p => some (p, false)
      | none => (between? '<' '>' rest).map (·, true)
    match path with
    | some (c :: p, angled) => found (.include (String.ofList (c :: p)) angled)
    | _ => .error ⟨.malformedInclude, 0, stop⟩
  | "pragma" => found (.pragma (String.ofList rest))
  | _ => .error ⟨.unsupportedDirective name, 0, stop⟩

/-! ## One lexeme -/

def scanWord (s : List Char) : Option TokenKind × Nat :=
  let w := s.takeWhile isWordChar
  let word := String.ofList w
  (some ((Keyword.ofWord? word).elim (.ident word) .keyword), w.length - 1)

/-- Reads the lexeme at the head of `c :: r`. A directive can begin only where no token stands
before it on its line. -/
def scan (lineStart : Bool) (c : Char) (r : List Char) : Scan :=
  if isBlank c then .ok (none, 0) else
  match c, r with
  | '\\', '\n' :: _ => .ok (none, 1)
  | '/', '/' :: _ => .ok (none, lineLength r)
  | '/', '*' :: r =>
    match commentLength? r with
    | some n => .ok (none, n + 1)
    | none => .error ⟨.unterminatedComment, 0, 0⟩
  | _, _ =>
    if c == '#' && lineStart then scanDirective r
    else if c.isDigit || (c == '.' && r.head?.any Char.isDigit) then scanNumber (c :: r)
    else if isLetter c || c == '_' then .ok (scanWord (c :: r))
    else if c == '"' then scanString r
    else if c == '\'' then scanChar r
    else match Punct.scan? (c :: r) with
      | some (p, n) => .ok (some (.punct p), n)
      | none => .error ⟨.unexpectedChar c, 0, 0⟩

/-! ## Positions -/

/-- Where in the text the lexer stands. -/
structure Place where
  offset : Nat := 0
  line : Nat := 1
  col : Nat := 1
  /-- No token has been read on this line. -/
  lineStart : Bool := true
deriving DecidableEq, Repr

/-- Moves over one character. -/
def Place.step (p : Place) (c : Char) : Place :=
  if c == '\n' then
    { offset := p.offset + c.utf8Size, line := p.line + 1, col := 1, lineStart := true }
  else { p with offset := p.offset + c.utf8Size, col := p.col + 1 }

def Place.advance (p : Place) (cs : List Char) : Place := cs.foldl Place.step p

/-- The span from one place to another in a text that starts at `base` of buffer `file`. -/
def Place.spanTo (p q : Place) (file base : Nat) : Span :=
  ⟨file, base + p.offset, base + q.offset, p.line, p.col⟩

/-- Adjacent string literals are one literal. -/
def push (acc : Array Token) (t : Token) : Array Token :=
  match acc.back?, t.kind with
  | some ⟨.str prev, span⟩, .str next => acc.pop.push ⟨.str (prev ++ next), span.merge t.span⟩
  | _, _ => acc.push t

/-- Reads all tokens of `s`, which begins at place `p`. -/
def tokensFrom (file base : Nat) (acc : Array Token) (p : Place) :
    List Char → Except LexError (Array Token)
  | [] => .ok (acc.push ⟨.eof, p.spanTo p file base⟩)
  | c :: r =>
    match scan p.lineStart c r with
    | .error f =>
      let start := p.advance ((c :: r).take f.start)
      .error ⟨f.fault, start.spanTo (p.advance ((c :: r).take f.stop)) file base⟩
    | .ok (kind?, n) =>
      let q := p.advance (c :: r.take n)
      match kind? with
      | none => tokensFrom file base acc q (r.drop n)
      | some kind =>
        tokensFrom file base (push acc ⟨kind, p.spanTo q file base⟩) { q with lineStart := false }
          (r.drop n)
termination_by s => s.length
decreasing_by all_goals simp only [List.length_cons, List.length_drop]; omega

end Lexer

/-- The tokens of `text`, which begins at offset `base` of buffer `file`, the end mark included. -/
def tokenize (text : String) (file base : Nat) : Except LexError (Array Token) :=
  Lexer.tokensFrom file base #[] {} text.toList

end IncrementalC
