import IncrementalC.Decimal.Shortest
import IncrementalC.Source.Span

/-!
# Tokens

* `Keyword` and `Punct` with their spellings; `Keyword.ofWord?` reads a word.
* `TokenKind`, `Token`, and `TokenKind.describe`, the words with which messages name a token.
-/
namespace IncrementalC
set_option autoImplicit false

inductive Keyword where
  | void | bool | char | short | int | long | float | double | signed | unsigned | auto
  | const | volatile | static | external | inline | register
  | struct | «class» | union | enum | typedef | «public» | «private»
  | «if» | «else» | «while» | «do» | «for» | «break» | «continue» | «return» | switch | case
  | default | goto | sizeof | true | false | nullptr
deriving DecidableEq, Repr

namespace Keyword

def spelling : Keyword → String
  | .void => "void" | .bool => "bool" | .char => "char" | .short => "short" | .int => "int"
  | .long => "long" | .float => "float" | .double => "double" | .signed => "signed"
  | .unsigned => "unsigned" | .auto => "auto" | .const => "const" | .volatile => "volatile"
  | .static => "static" | .external => "extern" | .inline => "inline" | .register => "register"
  | .struct => "struct" | .class => "class" | .union => "union" | .enum => "enum"
  | .typedef => "typedef" | .public => "public" | .private => "private" | .if => "if"
  | .else => "else" | .while => "while" | .do => "do" | .for => "for" | .break => "break"
  | .continue => "continue" | .return => "return" | .switch => "switch" | .case => "case"
  | .default => "default" | .goto => "goto" | .sizeof => "sizeof" | .true => "true"
  | .false => "false" | .nullptr => "nullptr"

def all : List Keyword :=
  [.void, .bool, .char, .short, .int, .long, .float, .double, .signed, .unsigned, .auto, .const,
   .volatile, .static, .external, .inline, .register, .struct, .class, .union, .enum, .typedef,
   .public, .private, .if, .else, .while, .do, .for, .break, .continue, .return, .switch, .case,
   .default, .goto, .sizeof, .true, .false, .nullptr]

/-- The keyword that `w` spells. Two keywords have a second spelling. -/
def ofWord? (w : String) : Option Keyword :=
  if w = "_Bool" then some .bool
  else if w = "NULL" then some .nullptr
  else all.find? (·.spelling == w)

/-- Keywords that may begin a list of declaration specifiers. -/
def startsType : Keyword → Bool
  | .void | .bool | .char | .short | .int | .long | .float | .double | .signed | .unsigned | .auto
  | .const | .volatile | .static | .external | .inline | .register | .struct | .class | .union
  | .enum | .typedef => Bool.true
  | _ => Bool.false

end Keyword

inductive Punct where
  | lparen | rparen | lbrace | rbrace | lbracket | rbracket | semi | comma | dot | arrow
  | question | colon | ellipsis
  | plus | minus | star | slash | percent | amp | pipe | caret | tilde | bang
  | assign | eqEq | notEq | lt | gt | ltEq | gtEq | andAnd | orOr | shl | shr
  | plusPlus | minusMinus
  | plusAssign | minusAssign | starAssign | slashAssign | percentAssign | ampAssign | pipeAssign
  | caretAssign | shlAssign | shrAssign
deriving DecidableEq, Repr

namespace Punct

def spelling : Punct → String
  | .lparen => "(" | .rparen => ")" | .lbrace => "\x7b" | .rbrace => "\x7d" | .lbracket => "["
  | .rbracket => "]" | .semi => ";" | .comma => "," | .dot => "." | .arrow => "->"
  | .question => "?" | .colon => ":" | .ellipsis => "..." | .plus => "+" | .minus => "-"
  | .star => "*" | .slash => "/" | .percent => "%" | .amp => "&" | .pipe => "|" | .caret => "^"
  | .tilde => "~" | .bang => "!" | .assign => "=" | .eqEq => "==" | .notEq => "!=" | .lt => "<"
  | .gt => ">" | .ltEq => "<=" | .gtEq => ">=" | .andAnd => "&&" | .orOr => "||" | .shl => "<<"
  | .shr => ">>" | .plusPlus => "++" | .minusMinus => "--" | .plusAssign => "+="
  | .minusAssign => "-=" | .starAssign => "*=" | .slashAssign => "/=" | .percentAssign => "%="
  | .ampAssign => "&=" | .pipeAssign => "|=" | .caretAssign => "^=" | .shlAssign => "<<="
  | .shrAssign => ">>="

/-- The longest punctuator at the head of the text, with the number of characters behind its
first one. -/
def scan? : List Char → Option (Punct × Nat)
  | '<' :: '<' :: '=' :: _ => some (.shlAssign, 2)
  | '>' :: '>' :: '=' :: _ => some (.shrAssign, 2)
  | '.' :: '.' :: '.' :: _ => some (.ellipsis, 2)
  | '-' :: '>' :: _ => some (.arrow, 1)
  | '+' :: '+' :: _ => some (.plusPlus, 1)
  | '-' :: '-' :: _ => some (.minusMinus, 1)
  | '+' :: '=' :: _ => some (.plusAssign, 1)
  | '-' :: '=' :: _ => some (.minusAssign, 1)
  | '*' :: '=' :: _ => some (.starAssign, 1)
  | '/' :: '=' :: _ => some (.slashAssign, 1)
  | '%' :: '=' :: _ => some (.percentAssign, 1)
  | '&' :: '=' :: _ => some (.ampAssign, 1)
  | '|' :: '=' :: _ => some (.pipeAssign, 1)
  | '^' :: '=' :: _ => some (.caretAssign, 1)
  | '=' :: '=' :: _ => some (.eqEq, 1)
  | '!' :: '=' :: _ => some (.notEq, 1)
  | '<' :: '=' :: _ => some (.ltEq, 1)
  | '>' :: '=' :: _ => some (.gtEq, 1)
  | '&' :: '&' :: _ => some (.andAnd, 1)
  | '|' :: '|' :: _ => some (.orOr, 1)
  | '<' :: '<' :: _ => some (.shl, 1)
  | '>' :: '>' :: _ => some (.shr, 1)
  | c :: _ => (single? c).map (·, 0)
  | [] => none
where
  single? : Char → Option Punct
    | '(' => some .lparen | ')' => some .rparen | '{' => some .lbrace | '}' => some .rbrace
    | '[' => some .lbracket | ']' => some .rbracket | ';' => some .semi | ',' => some .comma
    | '.' => some .dot | '?' => some .question | ':' => some .colon | '+' => some .plus
    | '-' => some .minus | '*' => some .star | '/' => some .slash | '%' => some .percent
    | '&' => some .amp | '|' => some .pipe | '^' => some .caret | '~' => some .tilde
    | '!' => some .bang | '=' => some .assign | '<' => some .lt | '>' => some .gt
    | _ => none

end Punct

inductive IntSuffix where
  | none | u | l | ul | ll | ull
deriving DecidableEq, Repr

/-- A preprocessing line, kept as one token. -/
inductive Directive where
  | «include» (path : String) (angled : Bool)
  | pragma (text : String)
deriving DecidableEq, Repr

inductive TokenKind where
  | int (value : Nat) (suffix : IntSuffix)
  /-- A floating literal; `single` if it has the suffix `f`. -/
  | float (value : Double) (single : Bool)
  /-- A character literal, by its code point. -/
  | char (code : Nat)
  | str (text : String)
  | ident (name : String)
  | keyword (k : Keyword)
  | punct (p : Punct)
  | directive (d : Directive)
  | eof
deriving DecidableEq, Repr

namespace TokenKind

/-- How messages name the token. -/
def describe : TokenKind → String
  | .int v _ => toString v
  | .float v _ => Decimal.render Decimal.plainNotation v
  | .char c => s!"character literal {c}"
  | .str s => s!"\"{s}\""
  | .ident n => s!"identifier '{n}'"
  | .keyword k => s!"'{k.spelling}'"
  | .punct p => s!"'{p.spelling}'"
  | .directive (.include path _) => s!"#include {path}"
  | .directive (.pragma text) => s!"#pragma {text}"
  | .eof => "end of input"

def isPunct (p : Punct) : TokenKind → Bool
  | .punct q => p == q
  | _ => false

def isKeyword (k : Keyword) : TokenKind → Bool
  | .keyword l => k == l
  | _ => false

def isEof : TokenKind → Bool
  | .eof => true
  | _ => false

/-- Whether a list of declaration specifiers may begin with the token. -/
def startsType : TokenKind → Bool
  | .keyword k => k.startsType
  | _ => false

end TokenKind

structure Token where
  kind : TokenKind
  span : Span
deriving DecidableEq, Repr

end IncrementalC
