import IncrementalC.Input.Nesting
import IncrementalC.Proofs.Token.Literals
import IncrementalC.Proofs.Token.Word
import Mathlib.Data.List.Induction
import Mathlib.Data.List.TakeWhile

/-!
# The check of an input and its tokens

`Input.verdict` looks for brackets in the characters of a text, past literals and comments. Where the lexer reads the
text, and no number in it has an apostrophe between its digits, those are the brackets among the tokens
(`verdict_agrees`). An apostrophe in a number begins a character literal for the check.

`Balanced` and `Unclosed` say of tokens what the verdicts mean.
-/
namespace IncrementalC.Input
set_option autoImplicit false

/-! ## Brackets among tokens -/

inductive Bracket where
  | paren | square | curly
deriving DecidableEq

def Bracket.char : Bracket → Char
  | .paren => '('
  | .square => '['
  | .curly => '\x7b'

/-- The bracket that the token opens. -/
def opened? : TokenKind → Option Bracket
  | .punct .lparen => some .paren
  | .punct .lbracket => some .square
  | .punct .lbrace => some .curly
  | _ => none

/-- The bracket that the token closes. -/
def closed? : TokenKind → Option Bracket
  | .punct .rparen => some .paren
  | .punct .rbracket => some .square
  | .punct .rbrace => some .curly
  | _ => none

/-- The brackets are properly nested, and all of them are closed. -/
inductive Balanced : List TokenKind → Prop where
  | nil : Balanced []
  | other {k : TokenKind} (notOpened : opened? k = none) (notClosed : closed? k = none) : Balanced [k]
  | append {ks ls : List TokenKind} (first : Balanced ks) (second : Balanced ls) : Balanced (ks ++ ls)
  | enclosed {o c : TokenKind} {b : Bracket} {ks : List TokenKind} (opened : opened? o = some b)
      (closed : closed? c = some b) (inside : Balanced ks) : Balanced (o :: (ks ++ [c]))

/-- Of the tokens these brackets are left open, the innermost one first, and the others are balanced. -/
def Unclosed : List Bracket → List TokenKind → Prop
  | [], ks => Balanced ks
  | b :: bs, ks =>
    ∃ before o inside, ks = before ++ o :: inside ∧ opened? o = some b ∧ Unclosed bs before ∧ Balanced inside

/-- Some closing bracket does not match the innermost open one. -/
def Mismatched (ks : List TokenKind) : Prop :=
  ∃ before c after b bs, ks = before ++ c :: after ∧ closed? c = some b ∧ Unclosed bs before ∧ bs.head? ≠ some b

/-! ## Following the brackets -/

/-- The open brackets behind a token. -/
def follow (open? : List Bracket) (k : TokenKind) : Option (List Bracket) :=
  match opened? k, closed? k with
  | some b, _ => some (b :: open?)
  | none, none => some open?
  | none, some b => if open?.head? = some b then some open?.tail else none

variable {k : TokenKind} {ks : List TokenKind} {b : Bracket} {bs : List Bracket}

theorem follow_other (notOpened : opened? k = none) (notClosed : closed? k = none) : follow bs k = some bs := by
  unfold follow
  rw [notOpened, notClosed]

theorem follow_opened (opened : opened? k = some b) : follow bs k = some (b :: bs) := by
  unfold follow
  rw [opened]

theorem not_opened_of_closed (closed : closed? k = some b) : opened? k = none := by
  unfold closed? at closed
  split at closed <;> first | rfl | cases closed

theorem follow_closed (closed : closed? k = some b) :
    follow bs k = if bs.head? = some b then some bs.tail else none := by
  unfold follow
  rw [closed, not_opened_of_closed closed]

theorem Balanced.follow (h : Balanced ks) (bs : List Bracket) : ks.foldlM Input.follow bs = some bs := by
  induction h generalizing bs with
  | nil => rfl
  | other notOpened notClosed =>
    rw [List.foldlM_cons, follow_other notOpened notClosed]
    rfl
  | append _ _ first second =>
    rw [List.foldlM_append, first]
    exact second bs
  | @enclosed o c b ks opened closed _ inside =>
    rw [List.foldlM_cons, follow_opened opened]
    show List.foldlM Input.follow (b :: bs) (ks ++ [c]) = _
    rw [List.foldlM_append, inside]
    show List.foldlM Input.follow (b :: bs) [c] = _
    rw [List.foldlM_cons, follow_closed closed, List.head?_cons, if_pos rfl]
    rfl

theorem Unclosed.follow (h : Unclosed bs ks) : ks.foldlM Input.follow [] = some bs := by
  induction bs generalizing ks with
  | nil => exact Balanced.follow h []
  | cons b bs ih =>
    obtain ⟨before, o, inside, rfl, opened, unclosed, balanced⟩ := h
    rw [List.foldlM_append, ih unclosed]
    show List.foldlM Input.follow bs (o :: inside) = _
    rw [List.foldlM_cons, follow_opened opened]
    exact balanced.follow (b :: bs)

theorem Unclosed.other (h : Unclosed bs ks) (notOpened : opened? k = none) (notClosed : closed? k = none) :
    Unclosed bs (ks ++ [k]) := by
  cases bs with
  | nil => exact .append h (.other notOpened notClosed)
  | cons b bs =>
    obtain ⟨before, o, inside, rfl, opened, unclosed, balanced⟩ := h
    refine ⟨before, o, inside ++ [k], ?_, opened, unclosed, .append balanced (.other notOpened notClosed)⟩
    rw [List.append_assoc, List.cons_append]

theorem Unclosed.closed (h : Unclosed (b :: bs) ks) (closed : closed? k = some b) : Unclosed bs (ks ++ [k]) := by
  obtain ⟨before, o, inside, rfl, opened, unclosed, balanced⟩ := h
  have whole : before ++ o :: inside ++ [k] = before ++ (o :: (inside ++ [k])) := by
    rw [List.append_assoc, List.cons_append]
  rw [whole]
  have enclosed : Balanced (o :: (inside ++ [k])) := .enclosed opened closed balanced
  cases bs with
  | nil => exact .append unclosed enclosed
  | cons b' bs =>
    obtain ⟨before, o', inside', rfl, opened', unclosed', balanced'⟩ := unclosed
    refine ⟨before, o', inside' ++ _, ?_, opened', unclosed', .append balanced' enclosed⟩
    rw [List.append_assoc, List.cons_append]

/-- The brackets that are followed are the ones that are left open. -/
theorem unclosed_of_follow (h : ks.foldlM follow [] = some bs) : Unclosed bs ks := by
  induction ks using List.reverseRecOn generalizing bs with
  | nil =>
    cases h
    exact Balanced.nil
  | append_singleton ks k ih =>
    rw [List.foldlM_append] at h
    obtain ⟨bs', before, last⟩ := Option.bind_eq_some_iff.mp h
    have unclosed := ih before
    rw [List.foldlM_cons] at last
    obtain ⟨bs'', last, same⟩ := Option.bind_eq_some_iff.mp last
    cases same
    cases opened : opened? k with
    | some b =>
      rw [follow_opened opened] at last
      cases last
      exact ⟨ks, k, [], rfl, opened, unclosed, .nil⟩
    | none =>
      cases closed : closed? k with
      | none =>
        rw [follow_other opened closed] at last
        cases last
        exact unclosed.other opened closed
      | some b =>
        rw [follow_closed closed] at last
        split at last
        · rename_i head
          cases last
          cases bs' with
          | nil => cases head
          | cons b' bs' =>
            cases head
            exact unclosed.closed closed
        · cases last

theorem mismatched_of_follow (h : ks.foldlM follow [] = none) : Mismatched ks := by
  induction ks using List.reverseRecOn with
  | nil => cases h
  | append_singleton ks k ih =>
    rw [List.foldlM_append] at h
    cases before : ks.foldlM follow [] with
    | none =>
      obtain ⟨pre, c, post, b, bs, rfl, closed, unclosed, other⟩ := ih before
      exact ⟨pre, c, post ++ [k], b, bs, by rw [List.append_assoc, List.cons_append], closed, unclosed, other⟩
    | some bs =>
      rw [before] at h
      have last : follow bs k = none := by
        cases result : follow bs k with
        | none => rfl
        | some bs' =>
          replace h : (follow bs k).bind some = none := h
          rw [result] at h
          cases h
      cases closed : closed? k with
      | none =>
        cases opened : opened? k with
        | none => rw [follow_other opened closed] at last; cases last
        | some b => rw [follow_opened opened] at last; cases last
      | some b =>
        rw [follow_closed closed] at last
        split at last
        · cases last
        · exact ⟨ks, k, [], b, bs, rfl, closed, unclosed_of_follow before, ‹_›⟩

theorem Mismatched.follow (h : Mismatched ks) : ks.foldlM Input.follow [] = none := by
  obtain ⟨before, c, after, b, bs, rfl, closed, unclosed, other⟩ := h
  rw [List.foldlM_append, unclosed.follow]
  show List.foldlM Input.follow bs (c :: after) = none
  rw [List.foldlM_cons, follow_closed closed, if_neg other]
  rfl

/-- What the check should say of the tokens. -/
def outcome : Option (List Bracket) → Verdict
  | none => .mismatch
  | some [] => .valid
  | some (_ :: _) => .incomplete

/-! ## Characters that the check passes over -/

/-- Brackets, and characters with which a literal or a comment begins. -/
def marks : List Char := ['/', '"', '\'', '(', '[', '\x7b', ')', ']', '\x7d']

def isPlain (c : Char) : Bool := !marks.contains c

/-- A class of characters without marks in it. -/
theorem isPlain_of {p : Char → Bool} (free : marks.all fun d => !p d) {c : Char} (h : p c) : isPlain c := by
  unfold isPlain
  rw [List.contains_eq_mem, decide_eq_false]
  · rfl
  · intro mem
    have out := List.all_eq_true.mp free c mem
    rw [h] at out
    cases out

theorem isPlain_of_isHexDigit {c : Char} (h : Lexer.isHexDigit c) : isPlain c := isPlain_of (by decide) h

theorem isPlain_of_isAlpha {c : Char} (h : c.isAlpha) : isPlain c := isPlain_of (p := Char.isAlpha) (by decide) h

theorem isPlain_of_isBlank {c : Char} (h : Text.isBlank c) : isPlain c := isPlain_of (by decide) h

theorem isPlain_of_isWordChar {c : Char} (h : Text.isWordChar c) : isPlain c := isPlain_of (by decide +kernel) h

variable {c : Char} {r s : List Char} {stack : List Char}

/-- A character with which no comment begins. -/
theorem verdictFrom_cons (free : c = '/' → ∀ d ∈ r.head?, d ≠ '/' ∧ d ≠ '*') :
    verdictFrom stack (c :: r) =
      if c == '"' || c == '\'' then
        match literalLength? c r with
        | some n => verdictFrom stack (r.drop n)
        | none => .unterminatedLiteral
      else if isOpener c then verdictFrom (c :: stack) r
      else match opener? c with
        | none => verdictFrom stack r
        | some o =>
          match stack with
          | top :: stack => if top == o then verdictFrom stack r else .mismatch
          | [] => .mismatch := by
  rw [verdictFrom.eq_def]
  split
  · rename_i empty
    cases empty
  · rename_i slash
    cases slash
    exact ((free rfl '/' rfl).1 rfl).elim
  · rename_i slash
    cases slash
    exact ((free rfl '*' rfl).2 rfl).elim
  · rename_i same
    cases same
    rfl

theorem verdictFrom_plain (plain : isPlain c) : verdictFrom stack (c :: r) = verdictFrom stack r := by
  have free : c ∉ marks := by simpa [isPlain] using plain
  simp only [marks, List.mem_cons, List.not_mem_nil, or_false, not_or] at free
  obtain ⟨slash, quote, tick, paren, square, curly, paren', square', curly'⟩ := free
  have notOpener : isOpener c = false := by simp [isOpener, paren, square, curly]
  have notCloser : opener? c = none := by
    unfold opener?
    split <;> first | rfl | contradiction
  rw [verdictFrom_cons fun same => (slash same).elim, notOpener, notCloser]
  simp [quote, tick]

theorem verdictFrom_plains {cs : List Char} (plain : ∀ c ∈ cs, isPlain c) :
    verdictFrom stack (cs ++ r) = verdictFrom stack r := by
  induction cs with
  | nil => rfl
  | cons c cs ih =>
    obtain ⟨first, others⟩ := List.forall_mem_cons.mp plain
    rw [List.cons_append, verdictFrom_plain first, ih others]

/-- Behind a stretch of plain characters the check goes on. -/
theorem verdictFrom_drop {n : Nat} (plain : ∀ d ∈ c :: r.take n, isPlain d) :
    verdictFrom stack (c :: r) = verdictFrom stack (r.drop n) := by
  have whole : c :: r = (c :: r.take n) ++ r.drop n := by rw [List.cons_append, List.take_append_drop]
  rw [whole, verdictFrom_plains plain]

theorem verdictFrom_slash (free : ∀ d ∈ r.head?, d ≠ '/' ∧ d ≠ '*') :
    verdictFrom stack ('/' :: r) = verdictFrom stack r :=
  verdictFrom_cons fun _ => free

/-! ## Numbers -/

theorem mem_decimalChars {last : Char} : ∀ d ∈ s.take (Lexer.decimalChars last s).2, isPlain d ∨ d = '\'' := by
  induction s generalizing last with
  | nil =>
    rw [List.take_nil]
    exact List.forall_mem_nil _
  | cons c r ih =>
    have goesOn {last : Char} (first : isPlain c ∨ c = '\'') :
        ∀ d ∈ (c :: r).take ((Lexer.decimalChars last r).2 + 1), isPlain d ∨ d = '\'' := by
      rw [List.take_succ_cons]
      exact List.forall_mem_cons.mpr ⟨first, ih⟩
    rw [Lexer.decimalChars]
    dsimp only
    split
    · rename_i among
      refine goesOn (.inl (isPlain_of (p := fun c => c.isDigit || c == '.' || c == 'e' || c == 'E' || (c == '+' || c == '-'))
        (by decide) ?_))
      simp only [Bool.or_eq_true, Bool.and_eq_true] at among ⊢
      exact among.imp_right And.left
    · split
      · rename_i tick
        exact goesOn (.inr (beq_iff_eq.mp tick))
      · exact List.forall_mem_nil _

/-- A number is made of plain characters and apostrophes. -/
theorem mem_numeralChars : ∀ d ∈ s.take (Lexer.numeralChars s).2, isPlain d ∨ d = '\'' := by
  unfold Lexer.numeralChars
  split
  · rename_i isHex
    have mark : ∃ x ds, s = '0' :: x :: ds ∧ isPlain x := by
      unfold Lexer.isHexNumeral at isHex
      split at isHex
      · exact ⟨_, _, rfl, by decide⟩
      · exact ⟨_, _, rfl, by decide⟩
      · cases isHex
    obtain ⟨x, ds, rfl, plain⟩ := mark
    show ∀ d ∈ '0' :: x :: ds.take ((ds.takeWhile _).length), _
    refine List.forall_mem_cons.mpr ⟨.inl (by decide), List.forall_mem_cons.mpr ⟨.inl plain, ?_⟩⟩
    rw [← List.prefix_iff_eq_take.mp (List.takeWhile_prefix _)]
    intro d mem
    have among := List.mem_takeWhile_imp mem
    rcases (Bool.or_eq_true _ _).mp among with digit | tick
    · exact .inl (isPlain_of_isHexDigit digit)
    · exact .inr (beq_iff_eq.mp tick)
  · exact mem_decimalChars

def isNumber : TokenKind → Bool
  | .int .. | .float .. => true
  | _ => false

theorem scanNumber_ok {kind? : Option TokenKind} {n : Nat} (first : isPlain c)
    (ok : Lexer.scanNumber (c :: r) = .ok (kind?, n)) :
    (∃ k, kind? = some k ∧ isNumber k ∧ opened? k = none ∧ closed? k = none) ∧
      ∀ d ∈ c :: r.take n, isPlain d ∨ d = '\'' := by
  unfold Lexer.scanNumber at ok
  dsimp only at ok
  split at ok
  · rename_i k kind
    cases ok
    refine ⟨⟨k, rfl, ?_⟩, List.forall_mem_cons.mpr ⟨.inl first, fun d mem => ?_⟩⟩
    · unfold Lexer.numberKind? at kind
      split at kind
      · obtain ⟨x, -, kind⟩ := Option.bind_eq_some_iff.mp kind
        obtain ⟨single, -, kind⟩ := Option.bind_eq_some_iff.mp kind
        cases kind
        exact ⟨rfl, rfl, rfl⟩
      · obtain ⟨v, -, kind⟩ := Option.bind_eq_some_iff.mp kind
        obtain ⟨suffix, -, kind⟩ := Option.bind_eq_some_iff.mp kind
        cases kind
        exact ⟨rfl, rfl, rfl⟩
    · generalize numeral : (Lexer.numeralChars (c :: r)).2 = m at mem
      generalize letters : ((c :: r).drop m).takeWhile Char.isAlpha = ls at mem
      have isPrefix : ls <+: (c :: r).drop m := letters ▸ List.takeWhile_prefix _
      have inside : d ∈ (c :: r).take (m + ls.length) := by
        cases total : m + ls.length with
        | zero =>
          rw [total] at mem
          cases mem
        | succ k =>
          rw [total] at mem
          rw [List.take_succ_cons]
          exact List.mem_cons_of_mem _ mem
      rw [List.take_add, ← List.prefix_iff_eq_take.mp isPrefix] at inside
      rcases List.mem_append.mp inside with digits | suffix
      · rw [← numeral] at digits
        exact mem_numeralChars d digits
      · rw [← letters] at suffix
        exact .inl (isPlain_of_isAlpha (List.mem_takeWhile_imp suffix))
  · cases ok

/-! ## Literals -/

theorem literalLength?_cons {quote : Char} (line : c ≠ '\n') (back : c ≠ '\\') (other : c ≠ quote) :
    literalLength? quote (c :: r) = (literalLength? quote r).map (· + 1) := by
  cases r with
  | nil => simp [literalLength?, line, back, other]
  | cons d r =>
    rw [literalLength?.eq_3 _ _ _ fun _ _ same => (back same).elim]
    simp [line, back, other]

theorem literalLength?_quote {quote : Char} (isQuote : quote = '"' ∨ quote = '\'') :
    literalLength? quote (quote :: r) = some 1 := by
  rcases isQuote with rfl | rfl <;> cases r <;> rfl

theorem literalLength?_digits {quote : Char} (isQuote : quote = '"' ∨ quote = '\'') {ds : List Char}
    (digits : ∀ d ∈ ds, Lexer.isHexDigit d) :
    literalLength? quote (ds ++ r) = (literalLength? quote r).map (· + ds.length) := by
  induction ds with
  | nil => simp
  | cons d ds ih =>
    obtain ⟨first, others⟩ := List.forall_mem_cons.mp digits
    have line : d ≠ '\n' := by
      rintro rfl
      cases first
    have back : d ≠ '\\' := by
      rintro rfl
      cases first
    have other : d ≠ quote := by
      rintro rfl
      rcases isQuote with rfl | rfl <;> cases first
    rw [List.cons_append, literalLength?_cons line back other, ih others, Option.map_map, List.length_cons]
    rfl

/-- An escape sequence is one character behind the backslash, and digits. -/
theorem scanEscape_ok {i n : Nat} {e : Char} (ok : Lexer.scanEscape i r = .ok (e, n)) :
    ∃ x ds r', r = x :: (ds ++ r') ∧ n = ds.length + 1 ∧ ∀ d ∈ ds, Lexer.isHexDigit d := by
  have one {x : Char} {r : List Char} (read : n = 1) :
      ∃ y ds r', x :: r = y :: (ds ++ r') ∧ n = ds.length + 1 ∧ ∀ d ∈ ds, Lexer.isHexDigit d :=
    ⟨x, [], r, rfl, read, nofun⟩
  unfold Lexer.scanEscape at ok
  split at ok
  · cases ok
  · rename_i c r
    split at ok
    iterate 7
      · cases ok
        exact one rfl
    · cases ok
      refine ⟨'x', r.takeWhile Lexer.isHexDigit, r.dropWhile Lexer.isHexDigit, ?_, rfl, fun d mem => List.mem_takeWhile_imp mem⟩
      rw [List.takeWhile_append_dropWhile]
    · split at ok
      · cases ok
        have isPrefix : (r.take 2).takeWhile Lexer.isOctalDigit <+: r :=
          (List.takeWhile_prefix _).trans (List.take_prefix _ _)
        obtain ⟨r', whole⟩ := isPrefix
        refine ⟨c, _, r', by rw [whole], rfl, fun d mem => ?_⟩
        have octal : Lexer.isOctalDigit d := List.mem_takeWhile_imp mem
        simp only [Lexer.isOctalDigit, Bool.and_eq_true, decide_eq_true_eq] at octal
        have digit : d.isDigit := by
          simp only [Char.isDigit, Bool.and_eq_true, decide_eq_true_eq]
          exact ⟨octal.1, UInt32.le_trans octal.2 (by decide)⟩
        simp [Lexer.isHexDigit, digit]
      · split at ok
        · cases ok
          exact one rfl
        · cases ok

theorem literalLength?_escape {quote x : Char} (isQuote : quote = '"' ∨ quote = '\'') {ds : List Char}
    (digits : ∀ d ∈ ds, Lexer.isHexDigit d) :
    literalLength? quote ('\\' :: x :: (ds ++ r)) = (literalLength? quote r).map (· + (ds.length + 2)) := by
  rw [literalLength?, literalLength?_digits isQuote digits, Option.map_map]
  rfl

/-- The check ends a string where the lexer does. -/
theorem literalLength?_of_scanString {i m : Nat} {acc : List Char} {text : String}
    (ok : Lexer.scanStringFrom i 0 acc r = .ok (text, m)) : ∃ n, literalLength? '"' r = some n ∧ m = i + n := by
  induction length : r.length using Nat.strongRecOn generalizing i acc r with
  | ind k ih =>
    subst length
    cases r with
    | nil => cases ok
    | cons c r =>
      rw [Lexer.scanStringFrom] at ok
      split at ok
      · cases ok
      rename_i line
      split at ok
      · rename_i quote
        cases ok
        rw [beq_iff_eq.mp quote]
        exact ⟨1, literalLength?_quote (.inl rfl), rfl⟩
      rename_i quote
      split at ok
      · rename_i back
        split at ok
        · rename_i e n escape
          obtain ⟨x, ds, r', rfl, rfl, digits⟩ := scanEscape_ok escape
          have skipped := Lexer.scanStringFrom_skip (i + 1) (e :: acc) (x :: ds) r'
          rw [List.cons_append, List.length_cons] at skipped
          rw [skipped] at ok
          obtain ⟨n, known, total⟩ := ih r'.length (by simp only [List.length_cons, List.length_append]; omega) ok rfl
          rw [beq_iff_eq.mp back, literalLength?_escape (.inl rfl) digits, known]
          exact ⟨n + (ds.length + 2), rfl, by omega⟩
        · cases ok
      · rename_i back
        obtain ⟨n, known, total⟩ := ih r.length (Nat.lt_succ_self _) ok rfl
        rw [beq_iff_eq] at line quote back
        rw [literalLength?_cons line back quote, known]
        exact ⟨n + 1, rfl, by omega⟩

theorem scanString_ok {kind? : Option TokenKind} {n : Nat} (ok : Lexer.scanString r = .ok (kind?, n)) :
    literalLength? '"' r = some n ∧ ∃ text, kind? = some (.str text) := by
  obtain ⟨⟨text, m⟩, read, result⟩ := Lexer.bind_ok ok
  obtain ⟨n', known, total⟩ := literalLength?_of_scanString read
  cases result
  rw [known]
  exact ⟨congrArg some (by omega), text, rfl⟩

theorem scanChar_ok {kind? : Option TokenKind} {n : Nat} (ok : Lexer.scanChar r = .ok (kind?, n)) :
    literalLength? '\'' r = some n ∧ ∃ code, kind? = some (.char code) := by
  obtain ⟨⟨c, m⟩, inside, result⟩ := Lexer.bind_ok ok
  dsimp only at result
  split at result
  · rename_i r' behind
    cases result
    refine ⟨?_, _, rfl⟩
    unfold Lexer.scanCharInside at inside
    split at inside
    iterate 3
      · cases inside
    · rename_i r
      obtain ⟨⟨e, n⟩, escape, rest⟩ := Lexer.bind_ok inside
      cases rest
      obtain ⟨x, ds, r'', rfl, rfl, digits⟩ := scanEscape_ok escape
      have quote : r'' = '\'' :: r' := by
        rw [← behind]
        show r'' = (ds ++ r'').drop ds.length
        rw [List.drop_left]
      rw [literalLength?_escape (.inr rfl) digits, quote, literalLength?_quote (.inr rfl)]
      show some (1 + (ds.length + 2)) = some (ds.length + 1 + 1 + 1)
      exact congrArg some (by omega)
    · rename_i c r line tick back
      cases inside
      have quote : r = '\'' :: r' := behind
      rw [literalLength?_cons line back tick, quote, literalLength?_quote (.inr rfl)]
      rfl
  · cases result

/-! ## One lexeme -/

/-- The verdict on a text behind these brackets. -/
def reading (open? : Option (List Bracket)) (s : List Char) : Verdict :=
  match open? with
  | none => .mismatch
  | some bs => verdictFrom (bs.map Bracket.char) s

/-- The open brackets behind a lexeme. -/
def after (bs : List Bracket) : Option TokenKind → Option (List Bracket)
  | none => some bs
  | some k => follow bs k

theorem Bracket.char_inj {b b' : Bracket} (same : b.char = b'.char) : b = b' := by
  cases b <;> cases b' <;> first | rfl | exact absurd same (by decide)

theorem verdictFrom_opened (opened : opened? k = some b) :
    verdictFrom (bs.map Bracket.char) (b.char :: r) = reading (follow bs k) r := by
  rw [follow_opened opened]
  cases b <;> exact verdictFrom_cons nofun

theorem verdictFrom_closed (isCloser : opener? c = some b.char) (closed : closed? k = some b) :
    verdictFrom (bs.map Bracket.char) (c :: r) = reading (follow bs k) r := by
  have notComment : c ≠ '/' := by
    rintro rfl
    cases isCloser
  have notLiteral : (c == '"' || c == '\'') = false := by
    refine Bool.eq_false_iff.mpr fun literal => ?_
    rcases (Bool.or_eq_true _ _).mp literal with same | same
    · rw [beq_iff_eq.mp same] at isCloser
      cases isCloser
    · rw [beq_iff_eq.mp same] at isCloser
      cases isCloser
  have notOpener : isOpener c = false := by
    refine Bool.eq_false_iff.mpr fun opens => ?_
    simp only [isOpener, Bool.or_eq_true, beq_iff_eq] at opens
    rcases opens with (rfl | rfl) | rfl <;> cases isCloser
  rw [verdictFrom_cons fun same => (notComment same).elim, notLiteral, notOpener, isCloser, follow_closed closed]
  cases bs with
  | nil => rfl
  | cons top bs =>
    show (if (top.char == b.char) = true then verdictFrom (bs.map Bracket.char) r else .mismatch) = _
    by_cases same : top = b
    · rw [if_pos (beq_iff_eq.mpr (congrArg _ same)), List.head?_cons, if_pos (congrArg some same)]
      rfl
    · rw [if_neg fun chars => same (Bracket.char_inj (beq_iff_eq.mp chars)), List.head?_cons,
        if_neg fun heads => same (Option.some.inj heads)]
      rfl

theorem verdictFrom_single {p : Punct} (single : Punct.scan?.single? c = some p)
    (free : c = '/' → ∀ d ∈ r.head?, d ≠ '/' ∧ d ≠ '*') :
    verdictFrom (bs.map Bracket.char) (c :: r) = reading (follow bs (.punct p)) r := by
  have plain (isPlain : isPlain c) (other : opened? (.punct p) = none) (other' : closed? (.punct p) = none) :
      verdictFrom (bs.map Bracket.char) (c :: r) = reading (follow bs (.punct p)) r := by
    rw [verdictFrom_plain isPlain, follow_other other other']
    rfl
  unfold Punct.scan?.single? at single
  split at single <;> cases single
  case h_1 => exact verdictFrom_opened (b := .paren) rfl
  case h_2 => exact verdictFrom_closed (b := .paren) rfl rfl
  case h_3 => exact verdictFrom_opened (b := .curly) rfl
  case h_4 => exact verdictFrom_closed (b := .curly) rfl rfl
  case h_5 => exact verdictFrom_opened (b := .square) rfl
  case h_6 => exact verdictFrom_closed (b := .square) rfl rfl
  case h_15 => exact verdictFrom_slash (free rfl)
  all_goals exact plain rfl rfl rfl

theorem verdictFrom_punct {p : Punct} {n : Nat} (scanned : Punct.scan? (c :: r) = some (p, n))
    (free : c = '/' → ∀ d ∈ r.head?, d ≠ '/' ∧ d ≠ '*') :
    verdictFrom (bs.map Bracket.char) (c :: r) = reading (follow bs (.punct p)) (r.drop n) := by
  unfold Punct.scan? at scanned
  split at scanned
  case h_10 =>
    cases scanned
    rename_i same
    cases same
    rw [verdictFrom_slash (free rfl), verdictFrom_plain (by decide)]
    rfl
  case h_23 =>
    rename_i same
    cases same
    obtain ⟨p', single, pair⟩ := Option.map_eq_some_iff.mp scanned
    cases pair
    exact verdictFrom_single single free
  case h_24 => cases scanned
  all_goals
    rename_i same
    cases same
    cases scanned
    exact verdictFrom_drop (List.all_eq_true.mp rfl)

theorem scanWord_plain (letter : Text.isLetter c || c == '_') {kind? : Option TokenKind} {n : Nat}
    (scanned : Lexer.scanWord (c :: r) = (kind?, n)) :
    (∃ k, kind? = some k ∧ opened? k = none ∧ closed? k = none) ∧ ∀ d ∈ c :: r.take n, isPlain d := by
  have first : Text.isWordChar c := by
    unfold Text.isWordChar
    rcases (Bool.or_eq_true _ _).mp letter with letter | under
    · rw [letter, Bool.true_or, Bool.true_or]
    · rw [under, Bool.or_true]
  have taken : (c :: r).takeWhile Text.isWordChar = c :: r.takeWhile Text.isWordChar := by
    rw [List.takeWhile_cons, if_pos first]
  unfold Lexer.scanWord at scanned
  rw [taken] at scanned
  cases scanned
  refine ⟨⟨_, rfl, ?_⟩, List.forall_mem_cons.mpr ⟨isPlain_of_isWordChar first, fun d mem => ?_⟩⟩
  · cases Keyword.ofWord? (String.ofList (c :: r.takeWhile Text.isWordChar)) <;> exact ⟨rfl, rfl⟩
  · have among : d ∈ r.takeWhile Text.isWordChar := by
      rw [List.prefix_iff_eq_take.mp (List.takeWhile_prefix Text.isWordChar)]
      exact mem
    exact isPlain_of_isWordChar (List.mem_takeWhile_imp among)

theorem verdictFrom_literal {quote : Char} {n : Nat} (isQuote : quote = '"' ∨ quote = '\'')
    (length : literalLength? quote r = some n) : verdictFrom stack (quote :: r) = verdictFrom stack (r.drop n) := by
  rcases isQuote with rfl | rfl
  · rw [verdictFrom_cons (c := '"') nofun, if_pos (by decide), length]
  · rw [verdictFrom_cons (c := '\'') nofun, if_pos (by decide), length]

/-- The check moves over a lexeme as the lexer does, and the brackets behind it are those of its token. -/
theorem verdictFrom_scan {lineStart : Bool} {kind? : Option TokenKind} {n : Nat}
    (scanned : Lexer.scan lineStart c r = .ok (kind?, n)) (noHash : c ≠ '#')
    (joined : kind?.any isNumber → '\'' ∉ c :: r.take n) :
    verdictFrom (bs.map Bracket.char) (c :: r) = reading (after bs kind?) (r.drop n) := by
  unfold Lexer.scan at scanned
  split at scanned
  · rename_i blank
    cases scanned
    exact verdictFrom_plain (isPlain_of_isBlank blank)
  split at scanned
  · cases scanned
    rw [verdictFrom_plain (by decide), verdictFrom_plain (by decide)]
    rfl
  · rename_i r
    cases scanned
    rw [verdictFrom]
    rfl
  · rename_i r
    split at scanned
    · rename_i m found
      cases scanned
      rw [verdictFrom, found]
      rfl
    · cases scanned
  rename_i splice line block
  split at scanned
  · rename_i hash
    simp [noHash] at hash
  split at scanned
  · rename_i digit
    have first : isPlain c := by
      refine isPlain_of (p := fun c => c.isDigit || c == '.') (by decide) ?_
      rcases (Bool.or_eq_true _ _).mp digit with digit | point
      · simp [digit]
      · simp [((Bool.and_eq_true _ _).mp point).1]
    obtain ⟨⟨k, rfl, number, notOpened, notClosed⟩, among⟩ := scanNumber_ok first scanned
    have plain : ∀ d ∈ c :: r.take n, isPlain d := fun d mem =>
      (among d mem).resolve_right fun tick => joined number (tick ▸ mem)
    rw [verdictFrom_drop plain]
    show _ = reading (follow bs k) _
    rw [follow_other notOpened notClosed]
    rfl
  split at scanned
  · rename_i letter
    obtain ⟨⟨k, rfl, notOpened, notClosed⟩, plain⟩ := scanWord_plain letter (Except.ok.inj scanned)
    rw [verdictFrom_drop plain]
    show _ = reading (follow bs k) _
    rw [follow_other notOpened notClosed]
    rfl
  split at scanned
  · rename_i quote
    obtain ⟨length, text, rfl⟩ := scanString_ok scanned
    rw [beq_iff_eq.mp quote]
    exact verdictFrom_literal (.inl rfl) length
  split at scanned
  · rename_i tick
    obtain ⟨length, code, rfl⟩ := scanChar_ok scanned
    rw [beq_iff_eq.mp tick]
    exact verdictFrom_literal (.inr rfl) length
  split at scanned
  · rename_i p n found
    cases scanned
    refine verdictFrom_punct found fun slash d head => ⟨?_, ?_⟩
    · rintro rfl
      obtain ⟨r', rfl⟩ := List.head?_eq_some_iff.mp head
      exact line r' slash rfl
    · rintro rfl
      obtain ⟨r', rfl⟩ := List.head?_eq_some_iff.mp head
      exact block r' slash rfl
  · cases scanned

/-! ## Whole texts -/

/-- The lexemes of a text without directives, with their tokens. -/
def lexemes : List Char → List (List Char × Option TokenKind)
  | [] => []
  | c :: r =>
    match Lexer.scan false c r with
    | .ok (kind?, n) => (c :: r.take n, kind?) :: lexemes (r.drop n)
    | .error _ => []
termination_by s => s.length
decreasing_by simp only [List.length_cons, List.length_drop]; omega

/-- No apostrophe stands between the digits of a number. -/
def Unseparated (s : List Char) : Prop := ∀ x ∈ lexemes s, x.2.any isNumber → '\'' ∉ x.1

instance (s : List Char) : Decidable (Unseparated s) := inferInstanceAs (Decidable (∀ _ ∈ _, _ → _))

/-- Only a directive asks where on its line it stands. -/
theorem scan_anywhere (noHash : c ≠ '#') (lineStart : Bool) : Lexer.scan lineStart c r = Lexer.scan false c r := by
  have never : ¬(c == '#' && lineStart) = true := by simp [noHash]
  have never' : ¬(c == '#' && false) = true := by simp
  unfold Lexer.scan
  rw [if_neg never, if_neg never']

theorem Unseparated.step {lineStart : Bool} {kind? : Option TokenKind} {n : Nat} (h : Unseparated (c :: r))
    (noHash : c ≠ '#') (scanned : Lexer.scan lineStart c r = .ok (kind?, n)) :
    (kind?.any isNumber → '\'' ∉ c :: r.take n) ∧ Unseparated (r.drop n) := by
  rw [scan_anywhere noHash] at scanned
  unfold Unseparated at h
  rw [lexemes, scanned] at h
  exact List.forall_mem_cons.mp h

def kinds (tokens : Array Token) : List TokenKind := tokens.toList.map (·.kind)

theorem follow_concat (acc : Array Token) (t : Token) :
    (kinds (acc.push t)).foldlM follow [] = ((kinds acc).foldlM follow []).bind fun bs => follow bs t.kind := by
  have alone (bs : List Bracket) : [t.kind].foldlM follow bs = follow bs t.kind := bind_pure (follow bs t.kind)
  unfold kinds
  rw [Array.toList_push, List.map_append, List.foldlM_append]
  exact congrArg _ (funext alone)

theorem follow_push (acc : Array Token) (t : Token) :
    (kinds (Lexer.push acc t)).foldlM follow [] = ((kinds acc).foldlM follow []).bind fun bs => follow bs t.kind := by
  unfold Lexer.push
  split
  · rename_i prev span next last str
    -- one string takes the place of another
    have before := follow_concat acc.pop ⟨.str prev, span⟩
    have whole : acc.pop.push ⟨.str prev, span⟩ = acc := by
      refine Array.toList_inj.mp ?_
      rw [Array.toList_push, Array.toList_pop]
      exact List.dropLast_append_getLast? _ ((Array.getLast?_toList acc).trans last)
    rw [whole] at before
    rw [follow_concat, before, str, Option.bind_assoc]
    rfl
  · exact follow_concat acc t

/-- The check of the text that is left gives what the tokens do. -/
theorem reading_tokensFrom {file base : Nat} (acc : Array Token) {tokens : Array Token} {place : Lexer.Place}
    (noHash : '#' ∉ s) (unseparated : Unseparated s) (lexed : Lexer.tokensFrom file base acc place s = .ok tokens) :
    reading ((kinds acc).foldlM follow []) s = outcome ((kinds tokens).foldlM follow []) := by
  have step {c : Char} {r : List Char} {lineStart : Bool} {kind? : Option TokenKind} {n : Nat} (noHash : '#' ∉ c :: r)
      (unseparated : Unseparated (c :: r)) (scanned : Lexer.scan lineStart c r = .ok (kind?, n)) :
      '#' ∉ r.drop n ∧ Unseparated (r.drop n) ∧ ∀ o, reading o (c :: r) = reading (o.bind fun bs => after bs kind?) (r.drop n) := by
    have hash : c ≠ '#' := fun same => noHash (same ▸ List.mem_cons_self)
    obtain ⟨joined, rest⟩ := unseparated.step hash scanned
    refine ⟨fun mem => noHash (List.mem_cons_of_mem _ (List.mem_of_mem_drop mem)), rest, fun o => ?_⟩
    cases o with
    | none => rfl
    | some bs => exact verdictFrom_scan scanned hash joined
  fun_induction Lexer.tokensFrom file base acc place s with
  | case1 acc p =>
    cases lexed
    rw [follow_concat]
    cases (kinds acc).foldlM follow [] with
    | none => rfl
    | some bs =>
      show verdictFrom (bs.map Bracket.char) [] = outcome (some bs)
      rw [verdictFrom]
      cases bs <;> rfl
  | case2 => cases lexed
  | case3 acc p c r n q scanned ih =>
    obtain ⟨noHash', rest, moves⟩ := step noHash unseparated scanned
    rw [moves, ← ih noHash' rest lexed]
    cases (kinds acc).foldlM follow [] <;> rfl
  | case4 acc p c r n q kind scanned ih =>
    obtain ⟨noHash', rest, moves⟩ := step noHash unseparated scanned
    rw [moves, ← ih noHash' rest lexed, follow_push]
    rfl

/-- On a text without directives that the lexer reads and in which no number is separated, the check says how the
brackets among the tokens stand. -/
theorem verdict_agrees {text : String} {file base : Nat} {tokens : Array Token} (noHash : '#' ∉ text.toList)
    (unseparated : Unseparated text.toList) (lexed : tokenize text file base = .ok tokens) :
    (verdict text = .valid ↔ Balanced (kinds tokens)) ∧
      (verdict text = .mismatch ↔ Mismatched (kinds tokens)) ∧
      (verdict text = .incomplete ↔ ∃ b bs, Unclosed (b :: bs) (kinds tokens)) ∧
      verdict text ≠ .unterminatedLiteral := by
  have reads : verdict text = outcome ((kinds tokens).foldlM follow []) :=
    reading_tokensFrom #[] noHash unseparated lexed
  rw [reads]
  have balanced : (kinds tokens).foldlM follow [] = some [] ↔ Balanced (kinds tokens) :=
    ⟨unclosed_of_follow, fun h => h.follow []⟩
  have unclosed (b : Bracket) (bs : List Bracket) :
      (kinds tokens).foldlM follow [] = some (b :: bs) ↔ Unclosed (b :: bs) (kinds tokens) :=
    ⟨unclosed_of_follow, Unclosed.follow⟩
  have mismatched : (kinds tokens).foldlM follow [] = none ↔ Mismatched (kinds tokens) :=
    ⟨mismatched_of_follow, Mismatched.follow⟩
  simp only [← balanced, ← unclosed, ← mismatched]
  cases (kinds tokens).foldlM follow [] with
  | none => exact ⟨⟨nofun, nofun⟩, ⟨fun _ => rfl, fun _ => rfl⟩, ⟨nofun, fun ⟨_, _, h⟩ => nomatch h⟩, nofun⟩
  | some bs =>
    cases bs with
    | nil => exact ⟨⟨fun _ => rfl, fun _ => rfl⟩, ⟨nofun, nofun⟩, ⟨nofun, fun ⟨_, _, h⟩ => nomatch h⟩, nofun⟩
    | cons b bs => exact ⟨⟨nofun, nofun⟩, ⟨nofun, nofun⟩, ⟨fun _ => ⟨b, bs, rfl⟩, fun _ => rfl⟩, nofun⟩

theorem brackets_in_literals_agree :
    ∃ tokens, tokenize "f(a[0x1F], '\x7d') /* ] */ + \")\"" 0 0 = .ok tokens ∧
      '#' ∉ "f(a[0x1F], '\x7d') /* ] */ + \")\"".toList ∧ Unseparated "f(a[0x1F], '\x7d') /* ] */ + \")\"".toList ∧
      Balanced (kinds tokens) ∧ verdict "f(a[0x1F], '\x7d') /* ] */ + \")\"" = .valid := by
  have lexed : (tokenize "f(a[0x1F], '\x7d') /* ] */ + \")\"" 0 0).toOption.isSome := by decide +kernel
  have valid : verdict "f(a[0x1F], '\x7d') /* ] */ + \")\"" = .valid := by decide +kernel
  have noHash : '#' ∉ "f(a[0x1F], '\x7d') /* ] */ + \")\"".toList := by decide +kernel
  have unseparated : Unseparated "f(a[0x1F], '\x7d') /* ] */ + \")\"".toList := by decide +kernel
  generalize "f(a[0x1F], '\x7d') /* ] */ + \")\"" = text at lexed valid noHash unseparated
  cases read : tokenize text 0 0 with
  | error e =>
    rw [read] at lexed
    cases lexed
  | ok tokens => exact ⟨tokens, rfl, noHash, unseparated, (verdict_agrees noHash unseparated read).1.mp valid, valid⟩

/-- The lexer reads a number with a separator, and the check takes the separator for a quote. -/
theorem separated_number_disagrees :
    (tokenize "1'000" 0 0).toOption.map kinds = some [.int 1000 .none, .eof] ∧ '#' ∉ "1'000".toList ∧
      Balanced [.int 1000 .none, .eof] ∧ verdict "1'000" = .unterminatedLiteral :=
  ⟨by decide +kernel, by decide +kernel, .append (.other rfl rfl) (.other rfl rfl), by decide +kernel⟩

end IncrementalC.Input
