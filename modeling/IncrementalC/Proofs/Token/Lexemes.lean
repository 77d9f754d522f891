import IncrementalC.Proofs.Token.Literals
import Mathlib.Data.List.Chain

/-!
# Printed tokens are read back

A `Lexeme` is a token as the printer writes it, a `TextPiece` a lexeme with the blank in front of it. Pieces of which
none runs into the next one are read as their tokens (`tokenize_pieces`).
-/
namespace IncrementalC
set_option autoImplicit false
open Text

/-! ## Punctuators -/

namespace Punct

/-- The character may stand behind the punctuator: it does not make a longer one, a number or a comment of it. -/
def before (p : Punct) (c : Char) : Bool :=
  match p with
  | .plus => c != '+' && c != '='
  | .minus => c != '-' && c != '=' && c != '>'
  | .amp => c != '&' && c != '='
  | .pipe => c != '|' && c != '='
  | .lt => c != '<' && c != '='
  | .gt => c != '>' && c != '='
  | .slash => c != '/' && c != '*' && c != '='
  | .star | .percent | .caret | .bang | .assign | .shl | .shr => c != '='
  | .dot => c != '.' && !c.isDigit
  | _ => true

theorem scan?_alone (p : Punct) : scan? p.spelling.toList = some (p, p.spelling.length - 1) := by
  cases p <;> decide

theorem scan?_before {p : Punct} {c : Char} (h : p.before c) (r : List Char) :
    scan? (p.spelling.toList ++ c :: r) = some (p, p.spelling.length - 1) := by
  cases p with
  | plus | minus | amp | pipe | lt | gt | slash | star | percent | caret | bang | assign | shl | shr | dot =>
    simp_all [before, spelling, scan?, scan?.single?]; rfl
  | _ => rfl

end Punct

namespace Lexer

/-- A character with which no blank, directive, number, word or literal begins. -/
def isSign (c : Char) : Bool :=
  !isBlank c && !c.isDigit && !isLetter c && c != '_' && c != '#' && c != '\\' && c != '"' && c != '\''

/-- A lexeme that is neither white space nor a comment is told by its first character. -/
theorem scan_lexeme {lineStart : Bool} {c : Char} {r : List Char} (blank : isBlank c = false) (back : c ≠ '\\')
    (slash : c = '/' → ∀ d ∈ r.head?, d ≠ '/' ∧ d ≠ '*') : scan lineStart c r =
      if c == '#' && lineStart then scanDirective r
      else if c.isDigit || (c == '.' && r.head?.any Char.isDigit) then scanNumber (c :: r)
      else if isLetter c || c == '_' then .ok (scanWord (c :: r))
      else if c == '"' then scanString r
      else if c == '\'' then scanChar r
      else match Punct.scan? (c :: r) with
        | some (p, n) => .ok (some (.punct p), n)
        | none => .error ⟨.unexpectedChar c, 0, 0⟩ := by
  unfold scan
  rw [if_neg (by rw [blank]; nofun)]
  split
  · exact (back rfl).elim
  · exact ((slash rfl _ rfl).1 rfl).elim
  · exact ((slash rfl _ rfl).2 rfl).elim
  · rfl

theorem scan_sign {lineStart : Bool} {c : Char} {r : List Char} (sign : isSign c)
    (point : c = '.' → ∀ d ∈ r.head?, !d.isDigit) (slash : c = '/' → ∀ d ∈ r.head?, d ≠ '/' ∧ d ≠ '*') :
    scan lineStart c r = match Punct.scan? (c :: r) with
      | some (p, n) => .ok (some (.punct p), n)
      | none => .error ⟨.unexpectedChar c, 0, 0⟩ := by
  unfold isSign at sign
  simp only [Bool.and_eq_true, Bool.not_eq_true', bne_iff_ne, ne_eq] at sign
  obtain ⟨⟨⟨⟨⟨⟨⟨blank, digit⟩, letter⟩, under⟩, hash⟩, back⟩, quote⟩, tick⟩ := sign
  have number : (c.isDigit || (c == '.' && r.head?.any Char.isDigit)) = false := by
    rw [digit, Bool.false_or]
    by_cases dot : c = '.'
    · cases r with
      | nil => simp
      | cons d r => simpa [dot] using point dot d rfl
    · simp [dot]
  have notDirective : ¬(c == '#' && lineStart) = true := by simp [hash]
  have notNumber : ¬(c.isDigit || (c == '.' && r.head?.any Char.isDigit)) = true := by simp [number]
  have notWord : ¬(isLetter c || c == '_') = true := by simp [letter, under]
  have notString : ¬(c == '"') = true := by simp [quote]
  have notChar : ¬(c == '\'') = true := by simp [tick]
  rw [scan_lexeme blank back slash, if_neg notDirective, if_neg notNumber, if_neg notWord, if_neg notString,
    if_neg notChar]

/-- How a punctuator begins: with a sign, and neither a number nor a comment begins with it. -/
def opensWell (p : Punct) : List Char → Bool
  | [] => false
  | [c] => isSign c && (c != '.' || p == .dot) && (c != '/' || p == .slash)
  | c :: d :: _ => isSign c && (c != '.' || !d.isDigit) && (c != '/' || d != '/' && d != '*')

theorem opensWell_spelling (p : Punct) : opensWell p p.spelling.toList := by
  cases p <;> decide +kernel

theorem scan_punct {p : Punct} {r : List Char} (h : ∀ c ∈ r.head?, p.before c) :
    ∃ c cs, p.spelling.toList = c :: cs ∧ ∀ lineStart, scan lineStart c (cs ++ r) = .ok (some (.punct p), cs.length) := by
  have found : Punct.scan? (p.spelling.toList ++ r) = some (p, p.spelling.length - 1) := by
    cases r with
    | nil => rw [List.append_nil, Punct.scan?_alone]
    | cons c r => exact Punct.scan?_before (h c rfl) r
  have opens := opensWell_spelling p
  rw [← String.length_toList] at found
  generalize p.spelling.toList = text at found opens
  cases text with
  | nil => cases opens
  | cons c cs =>
    refine ⟨c, cs, rfl, fun lineStart => ?_⟩
    have read : scan lineStart c (cs ++ r) = match Punct.scan? (c :: (cs ++ r)) with
        | some (p, n) => .ok (some (.punct p), n)
        | none => .error ⟨.unexpectedChar c, 0, 0⟩ := by
      cases cs with
      | nil =>
        simp only [opensWell, Bool.and_eq_true, Bool.or_eq_true, bne_iff_ne, ne_eq, beq_iff_eq] at opens
        obtain ⟨⟨sign, point⟩, slash⟩ := opens
        refine scan_sign sign (fun same d next => ?_) fun same d next => ?_
        · obtain rfl := point.resolve_left fun other => other same
          have free := h d next
          simp only [Punct.before, Bool.and_eq_true] at free
          exact free.2
        · obtain rfl := slash.resolve_left fun other => other same
          have free := h d next
          simp only [Punct.before, Bool.and_eq_true, bne_iff_ne, ne_eq] at free
          exact free.1
      | cons d ds =>
        simp only [opensWell, Bool.and_eq_true, Bool.or_eq_true, bne_iff_ne, ne_eq] at opens
        obtain ⟨⟨sign, point⟩, slash⟩ := opens
        refine scan_sign sign (fun same d' next => ?_) fun same d' next => ?_
        · cases next
          exact point.resolve_left fun other => other same
        · cases next
          exact slash.resolve_left fun other => other same
    rw [read, ← List.cons_append, found]
    rfl

/-! ## Words and numbers -/

theorem toNat_of_letter {c : Char} (h : isLetter c || c == '_') : 65 ≤ c.toNat := by
  rcases (Bool.or_eq_true _ _).mp h with letter | under
  · unfold isLetter at letter
    split at letter
    · have letter : (c.isUpper || c.isLower) = true := letter
      rcases (Bool.or_eq_true _ _).mp letter with upper | lower
      · have range : 65 ≤ c.val ∧ c.val ≤ 90 := of_decide_eq_true upper
        exact UInt32.le_iff_toNat_le.mp range.1
      · have range : (decide (97 ≤ c.val) && decide (c.val ≤ 122)) = true := lower
        have low := of_decide_eq_true ((Bool.and_eq_true _ _).mp range).1
        exact Nat.le_trans (by decide) (UInt32.le_iff_toNat_le.mp low)
    · omega
  · obtain rfl := beq_iff_eq.mp under
    decide

theorem toNat_of_isDigit {c : Char} (h : c.isDigit) : 48 ≤ c.toNat ∧ c.toNat ≤ 57 := by
  simp only [Char.isDigit, Bool.and_eq_true, decide_eq_true_eq, UInt32.le_iff_toNat_le] at h
  exact h

/-- Among the plain characters white space comes before all others. -/
theorem not_isBlank {c : Char} (h : 0x20 < c.toNat) (small : c.toNat < 0x80) : isBlank c = false := by
  have notSpace : c ≠ ' ' := by
    rintro rfl
    exact absurd h (by decide)
  have notTab : ¬c.toNat ≤ 0x0D := by omega
  unfold isBlank
  simp [small, notSpace, notTab]

theorem not_isBlank_of_letter {c : Char} (h : isLetter c || c == '_') : isBlank c = false := by
  have ranges : ∀ r ∈ blankRanges, ∀ k < r.2 + 1 - r.1, letterRanges.contains (r.1 + k) = false := by decide +kernel
  by_cases small : c.toNat < 0x80
  · exact not_isBlank (Nat.lt_of_lt_of_le (by decide) (toNat_of_letter h)) small
  · have letter : letterRanges.contains c.toNat = true := by
      rcases (Bool.or_eq_true _ _).mp h with letter | under
      · rwa [isLetter, if_neg small] at letter
      · obtain rfl := beq_iff_eq.mp under
        exact absurd (by decide) small
    unfold isBlank
    rw [if_neg small]
    refine List.any_eq_false.mpr fun r mem inside => ?_
    simp only [Bool.and_eq_true, decide_eq_true_eq] at inside
    have other := ranges r mem (c.toNat - r.1) (by omega)
    rw [Nat.add_sub_cancel' inside.1, letter] at other
    cases other

theorem scan_number {lineStart : Bool} {c : Char} (digit : c.isDigit) (r : List Char) :
    scan lineStart c r = scanNumber (c :: r) := by
  have range := toNat_of_isDigit digit
  have other {d : Char} (notDigit : d.isDigit = false) : c ≠ d := by
    rintro rfl
    rw [notDigit] at digit
    cases digit
  have blank := not_isBlank (Nat.lt_of_lt_of_le (by decide) range.1) (Nat.lt_of_le_of_lt range.2 (by decide))
  rw [scan_lexeme blank (other rfl) fun same => (other rfl same).elim]
  simp [other (d := '#') rfl, digit]

theorem scan_letter {lineStart : Bool} {c : Char} (first : isLetter c || c == '_') (r : List Char) :
    scan lineStart c r = .ok (scanWord (c :: r)) := by
  have other {d : Char} (notLetter : (isLetter d || d == '_') = false) : c ≠ d := by
    rintro rfl
    rw [notLetter] at first
    cases first
  have digit : c.isDigit = false := by
    rw [Bool.eq_false_iff]
    intro digit
    have low := toNat_of_letter first
    have high := (toNat_of_isDigit digit).2
    omega
  rw [scan_lexeme (not_isBlank_of_letter first) (other (by decide)) fun same => (other (by decide) same).elim]
  simp [other (d := '#') (by decide), other (d := '.') (by decide), digit, first]

theorem scan_word {w : String} {r : List Char} (name : IsName w.toList) (h : ∀ c ∈ r.head?, !isWordChar c) :
    ∃ c cs, w.toList = c :: cs ∧ ∀ lineStart, scan lineStart c (cs ++ r) =
      .ok (some ((Keyword.ofWord? w).elim (.ident w) .keyword), cs.length) := by
  obtain ⟨c, cs, text, first, all⟩ := name
  refine ⟨c, cs, text, fun lineStart => ?_⟩
  have word : (c :: (cs ++ r)).takeWhile isWordChar = c :: cs := by
    rw [← List.cons_append, List.takeWhile_append_of_pos (List.all_eq_true.mp all)]
    cases r with
    | nil => simp
    | cons d r =>
      have stops : isWordChar d = false := by simpa using h d rfl
      rw [List.takeWhile_cons, stops]
      simp
  have same : String.ofList (c :: cs) = w := by rw [← text, String.ofList_toList]
  rw [scan_letter first]
  unfold scanWord
  rw [word]
  dsimp only
  rw [same]
  rfl
end Lexer

/-! ## Lexemes -/

inductive Lexeme where
  | word (w : String)
  | int (v : Nat) (s : IntSuffix)
  | char (code : Nat)
  | str (text : String)
  | punct (p : Punct)
deriving DecidableEq

namespace Lexeme

def chars : Lexeme → List Char
  | .word w => w.toList
  | .int v s => Nat.toDigits 10 v ++ (Typed.suffixText s).toList
  | .char code => '\'' :: (Lexer.charInside code ++ ['\''])
  | .str text => '"' :: (text.toList.flatMap (escape '"') ++ ['"'])
  | .punct p => p.spelling.toList

def kind : Lexeme → TokenKind
  | .word w => (Keyword.ofWord? w).elim (.ident w) .keyword
  | .int v s => .int v s
  | .char code => .char code
  | .str text => .str text
  | .punct p => .punct p

/-- The lexeme is one that the lexer can read. -/
def Legible : Lexeme → Prop
  | .word w => IsName w.toList
  | .int v _ => v < UInt64.size
  | .char code => code < 256
  | .str _ | .punct _ => True

/-- The character may stand right behind the lexeme. -/
def before : Lexeme → Char → Bool
  | .word _, c => !isWordChar c
  | .int .., c => Lexer.endsNumber c
  | .char _, _ | .str _, _ => true
  | .punct p, c => p.before c

def isStr : Lexeme → Bool
  | .str _ => true
  | _ => false

open Lexer in
theorem scan {l : Lexeme} (legible : l.Legible) {r : List Char} (h : ∀ c ∈ r.head?, l.before c) :
    ∃ c cs, l.chars = c :: cs ∧ ∀ lineStart, Lexer.scan lineStart c (cs ++ r) = .ok (some l.kind, cs.length) := by
  cases l with
  | word w => exact scan_word legible h
  | int v s =>
    have digits : ∀ c ∈ Nat.toDigits 10 v, c.isDigit := fun _ mem => Nat.isDigit_of_mem_toDigits (by decide) (by decide) mem
    have read := scanNumber_eq (s := s) legible h
    obtain ⟨c, cs, text⟩ := List.exists_cons_of_ne_nil (Nat.toDigits_ne_nil (n := v) (b := 10))
    rw [text] at digits read
    refine ⟨c, cs ++ (Typed.suffixText s).toList, by rw [chars, text]; rfl, fun lineStart => ?_⟩
    rw [scan_number (digits c List.mem_cons_self), List.append_assoc, ← List.cons_append, read, List.length_append,
      List.length_cons, Nat.add_right_comm, Nat.add_sub_cancel]
    rfl
  | char code =>
    refine ⟨'\'', charInside code ++ ['\''], rfl, fun lineStart => ?_⟩
    rw [List.append_assoc, List.length_append]
    exact scanChar_eq legible r
  | str text =>
    refine ⟨'"', text.toList.flatMap (escape '"') ++ ['"'], rfl, fun lineStart => ?_⟩
    rw [List.append_assoc, List.length_append]
    exact scanString_eq text r
  | punct p => exact scan_punct h

end Lexeme

theorem Lexeme.chars_ne_nil {l : Lexeme} (legible : l.Legible) : l.chars ≠ [] := by
  obtain ⟨c, cs, text, -⟩ := l.scan legible (r := []) nofun
  rw [text]
  exact nofun

/-! ## Pieces of a text -/

structure TextPiece where
  spaced : Bool
  lexeme : Lexeme
deriving DecidableEq

namespace TextPiece

def chars (p : TextPiece) : List Char := if p.spaced then ' ' :: p.lexeme.chars else p.lexeme.chars

def kind (p : TextPiece) : TokenKind := p.lexeme.kind

theorem kind_word {w : String} (word : IsWord w) (s : Bool) : kind ⟨s, .word w⟩ = .ident w := by
  show (Keyword.ofWord? w).elim _ _ = _
  rw [word.free]
  rfl

theorem chars_ne_nil (p : TextPiece) (legible : p.lexeme.Legible) : p.chars ≠ [] := by
  unfold chars
  split
  · exact nofun
  · exact Lexeme.chars_ne_nil legible

/-- The first piece is read to its end if the second one follows. Adjacent strings would be one token. -/
structure Joins (p q : TextPiece) : Prop where
  text : ∀ c ∈ q.chars.head?, p.lexeme.before c
  apart : ¬(p.lexeme.isStr ∧ q.lexeme.isStr)

end TextPiece

namespace Lexer

variable {file base : Nat} {acc : Array Token}

theorem push_of_apart {t : Token} (h : ∀ s ∈ acc.back?, ∀ x y, ¬(s.kind = .str x ∧ t.kind = .str y)) :
    push acc t = acc.push t := by
  unfold push
  split
  · rename_i prev span next last isStr
    exact (h _ last prev next ⟨rfl, isStr⟩).elim
  · rfl

theorem isStr_of_kind {l : Lexeme} {s : String} (h : l.kind = .str s) : l.isStr := by
  cases l with
  | str => rfl
  | word w =>
    cases found : Keyword.ofWord? w <;> rw [Lexeme.kind, found] at h <;> cases h
  | _ => cases h

/-- One piece is one step, behind the blank in front of it. -/
theorem tokensFrom_piece {p : TextPiece} (legible : p.lexeme.Legible) {r : List Char} (h : ∀ c ∈ r.head?, p.lexeme.before c)
    (file base : Nat) (acc : Array Token) (place : Place) : ∃ span next,
      tokensFrom file base acc place (p.chars ++ r) = tokensFrom file base (push acc ⟨p.kind, span⟩) next r := by
  obtain ⟨c, cs, text, read⟩ := Lexeme.scan legible h
  have token (place : Place) : ∃ span next,
      tokensFrom file base acc place (p.lexeme.chars ++ r) = tokensFrom file base (push acc ⟨p.kind, span⟩) next r := by
    rw [text, List.cons_append, tokensFrom, read]
    dsimp only
    rw [List.drop_left]
    exact ⟨_, _, rfl⟩
  unfold TextPiece.chars
  split
  · rw [List.cons_append, tokensFrom]
    exact token _
  · exact token place

/-- No string stands at the end where another one would begin. -/
def Apart (acc : Array Token) (ps : List TextPiece) : Prop :=
  ∀ s ∈ acc.back?, ∀ p ∈ ps.head?, ∀ x, s.kind = .str x → p.lexeme.isStr = false

/-- The pieces at the head of a text are read to their ends, and what follows them behind. -/
theorem tokensFrom_pieces_append {ps : List TextPiece} (legible : ∀ p ∈ ps, p.lexeme.Legible)
    (joins : ps.IsChain TextPiece.Joins) (apart : Apart acc ps) {r : List Char}
    (follow : ∀ p ∈ ps.getLast?, ∀ c ∈ r.head?, p.lexeme.before c) (place : Place) : ∃ acc' place',
      tokensFrom file base acc place (ps.flatMap TextPiece.chars ++ r) = tokensFrom file base acc' place' r ∧
        acc'.toList.map (·.kind) = acc.toList.map (·.kind) ++ ps.map TextPiece.kind := by
  induction ps generalizing acc place with
  | nil => exact ⟨acc, place, rfl, (List.append_nil _).symm⟩
  | cons p ps ih =>
    obtain ⟨first, rest⟩ := List.forall_mem_cons.mp legible
    have next : ∀ c ∈ (ps.flatMap TextPiece.chars ++ r).head?, p.lexeme.before c := by
      cases ps with
      | nil => exact follow p rfl
      | cons q qs =>
        obtain ⟨c, cs, text⟩ := List.exists_cons_of_ne_nil (q.chars_ne_nil (List.forall_mem_cons.mp rest).1)
        have free := (List.isChain_cons_cons.mp joins).1.text
        rw [List.flatMap_cons, text]
        rw [text] at free
        exact free
    obtain ⟨span, place', step⟩ := tokensFrom_piece first next file base acc place
    have pushed : push acc ⟨p.kind, span⟩ = acc.push ⟨p.kind, span⟩ := by
      refine push_of_apart fun s last x y strings => ?_
      have notStr := apart s last p rfl x strings.1
      rw [isStr_of_kind strings.2] at notStr
      cases notStr
    have apart' : Apart (acc.push ⟨p.kind, span⟩) ps := by
      intro s last q head x isStr
      rw [Array.back?_push] at last
      cases last
      cases ps with
      | nil => cases head
      | cons q' qs =>
        cases head
        have different := (List.isChain_cons_cons.mp joins).1.apart
        rw [isStr_of_kind isStr] at different
        simpa using different
    have follow' : ∀ q ∈ ps.getLast?, ∀ c ∈ r.head?, q.lexeme.before c := by
      intro q last
      refine follow q ?_
      cases ps with
      | nil => cases last
      | cons q' qs => rwa [List.getLast?_cons_cons]
    obtain ⟨acc', place'', read, kinds⟩ := ih rest joins.tail apart' follow' place'
    rw [List.flatMap_cons, List.append_assoc, step, pushed]
    refine ⟨acc', place'', read, ?_⟩
    rw [kinds]
    simp

theorem tokensFrom_pieces {ps : List TextPiece} (legible : ∀ p ∈ ps, p.lexeme.Legible) (joins : ps.IsChain TextPiece.Joins)
    (apart : Apart acc ps) (place : Place) : ∃ tokens,
      tokensFrom file base acc place (ps.flatMap TextPiece.chars) = .ok tokens ∧
        tokens.toList.map (·.kind) = acc.toList.map (·.kind) ++ ps.map TextPiece.kind ++ [.eof] := by
  have pieces : ∃ acc' place', tokensFrom file base acc place (ps.flatMap TextPiece.chars ++ []) = tokensFrom file base acc' place' []
      ∧ acc'.toList.map (·.kind) = acc.toList.map (·.kind) ++ ps.map TextPiece.kind :=
    tokensFrom_pieces_append legible joins apart (by rintro _ _ _ ⟨⟩) place
  obtain ⟨acc', place', read, kinds⟩ := pieces
  rw [List.append_nil, tokensFrom] at read
  refine ⟨_, read, ?_⟩
  rw [Array.toList_push, List.map_append, kinds]
  rfl

/-- Tokens that were read stay, unless the last one is a string, which the next one may lengthen. -/
theorem tokensFrom_prefix {pre : List Token} (solid : ∀ t ∈ pre.getLast?, ∀ x, t.kind ≠ .str x) {place : Place} {s : List Char}
    {tokens : Array Token} (before : pre <+: acc.toList) (read : tokensFrom file base acc place s = .ok tokens) :
    pre <+: tokens.toList := by
  have pushed {acc : Array Token} (before : pre <+: acc.toList) (t : Token) : pre <+: (push acc t).toList := by
    unfold push
    split
    · rename_i prev span next last isStr
      obtain ⟨rest, same⟩ := before
      rw [Array.toList_push, Array.toList_pop, ← same]
      rcases List.eq_nil_or_concat rest with rfl | ⟨rest, t', rfl⟩
      · rw [List.append_nil] at same
        rw [← Array.getLast?_toList, ← same] at last
        exact absurd rfl (solid _ last prev)
      · rw [List.concat_eq_append, ← List.append_assoc, List.dropLast_concat, List.append_assoc]
        exact List.prefix_append _ _
    · rw [Array.toList_push]
      exact before.trans (List.prefix_append _ _)
  fun_induction tokensFrom file base acc place s with
  | case1 acc place =>
    cases read
    rw [Array.toList_push]
    exact before.trans (List.prefix_append _ _)
  | case2 => cases read
  | case3 acc place c r n _ q ih => exact ih before read
  | case4 acc place c r n q kind found ih => exact ih (pushed before _) read

end Lexer

theorem tokenize_pieces {ps : List TextPiece} (legible : ∀ p ∈ ps, p.lexeme.Legible) (joins : ps.IsChain TextPiece.Joins)
    {text : String} (same : text.toList = ps.flatMap TextPiece.chars) (file base : Nat) :
    ∃ tokens, tokenize text file base = .ok tokens ∧ tokens.toList.map (·.kind) = ps.map TextPiece.kind ++ [.eof] := by
  unfold tokenize
  rw [same]
  exact Lexer.tokensFrom_pieces legible joins (fun s last => by cases last) {}

/-- Whatever follows, pieces at the head of a text are its first tokens, if the last one is no string. -/
theorem tokenize_head {ps : List TextPiece} (legible : ∀ p ∈ ps, p.lexeme.Legible) (joins : ps.IsChain TextPiece.Joins)
    (solid : ∀ p ∈ ps.getLast?, p.lexeme.isStr = false) {r : List Char}
    (follow : ∀ p ∈ ps.getLast?, ∀ c ∈ r.head?, p.lexeme.before c) {text : String}
    (same : text.toList = ps.flatMap TextPiece.chars ++ r) {file base : Nat} {tokens : Array Token}
    (read : tokenize text file base = .ok tokens) : ps.map TextPiece.kind <+: tokens.toList.map (·.kind) := by
  have start : Lexer.Apart #[] ps := fun s last => by cases last
  obtain ⟨acc, place, step, kinds⟩ := Lexer.tokensFrom_pieces_append legible joins start follow {}
  unfold tokenize at read
  rw [same, step] at read
  have kinds : acc.toList.map (·.kind) = ps.map TextPiece.kind := kinds
  rw [← kinds]
  refine (Lexer.tokensFrom_prefix (fun t last x isStr => ?_) (List.prefix_rfl) read).map _
  have last : (acc.toList.map (·.kind)).getLast? = some (.str x) := by
    rw [List.getLast?_map, last, ← isStr]
    rfl
  rw [kinds, List.getLast?_map, Option.map_eq_some_iff] at last
  obtain ⟨p, mem, kind⟩ := last
  exact Bool.noConfusion ((Lexer.isStr_of_kind kind).symm.trans (solid p mem))

end IncrementalC
