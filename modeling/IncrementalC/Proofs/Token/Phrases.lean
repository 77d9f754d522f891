import IncrementalC.Proofs.Token.Lexemes

/-!
# Phrases

A `Phrase` is a lexeme with the pieces that follow it. `Phrase.Sound` says that no lexeme of it runs into the next
one, that it may stand behind an operator, and that brackets, commas and suffixes may stand behind it. The ways in
which the printer builds a text keep that.
-/
namespace IncrementalC
set_option autoImplicit false
open Text

/-! ## Pieces -/

namespace TextPiece

def punct (p : Punct) : TextPiece := ⟨false, .punct p⟩

def spacedPunct (p : Punct) : TextPiece := ⟨true, .punct p⟩

def text (ps : List TextPiece) : List Char := ps.flatMap chars

/-- Puts a blank in front. -/
def space : List TextPiece → List TextPiece
  | [] => []
  | p :: ps => ⟨true, p.lexeme⟩ :: ps

theorem text_append (ps qs : List TextPiece) : text (ps ++ qs) = text ps ++ text qs := List.flatMap_append

theorem text_cons (p : TextPiece) (ps : List TextPiece) : text (p :: ps) = p.chars ++ text ps := List.flatMap_cons

@[simp]
theorem text_nil : text [] = [] := rfl

@[simp]
theorem chars_punct (p : Punct) : (punct p).chars = p.spelling.toList := rfl

@[simp]
theorem chars_spacedPunct (p : Punct) : (spacedPunct p).chars = ' ' :: p.spelling.toList := rfl

end TextPiece

@[simp]
theorem TextPiece.chars_word (w : String) : (⟨false, .word w⟩ : TextPiece).chars = w.toList := rfl

/-! ## Characters that may stand behind a lexeme -/

theorem Punct.before_blank (p : Punct) : p.before ' ' := by cases p <;> decide

/-- A blank may stand behind everything. -/
theorem Lexeme.before_blank (l : Lexeme) : l.before ' ' := by
  cases l with
  | word w => exact (by decide +kernel : !isWordChar ' ')
  | int v s => exact (by decide : Lexer.endsNumber ' ')
  | char | str => rfl
  | punct p => exact p.before_blank

/-- Nothing that follows makes another lexeme of these. -/
def Punct.isSingle : Punct → Bool
  | .lparen | .rparen | .lbracket | .rbracket | .comma | .arrow => true
  | _ => false

theorem Punct.before_isSingle {p : Punct} (h : p.isSingle) (c : Char) : p.before c := by
  cases p <;> first | rfl | cases h

/-- What a phrase may end with. -/
def Lexeme.Ends : Lexeme → Prop
  | .punct p => p = .rparen ∨ p = .rbracket ∨ p = .plusPlus ∨ p = .minusMinus ∨ p = .star
  | _ => True

/-- What may follow a phrase without a blank. -/
def Punct.isFollower : Punct → Bool
  | .lparen | .rparen | .lbracket | .rbracket | .comma | .arrow | .plusPlus | .minusMinus | .star => true
  | _ => false

theorem Lexeme.Ends.before {l : Lexeme} (h : l.Ends) {p : Punct} (follows : p.isFollower) :
    ∀ c ∈ p.spelling.toList.head?, l.before c := by
  intro c first
  have among : c ∈ ['(', ')', '[', ']', ',', '-', '+', '*'] := by
    cases p <;> cases follows <;> cases first <;> decide
  cases l with
  | word w =>
    have free : ['(', ')', '[', ']', ',', '-', '+', '*'].all fun c => !isWordChar c := by decide +kernel
    exact List.all_eq_true.mp free c among
  | int v s =>
    have free : ['(', ')', '[', ']', ',', '-', '+', '*'].all Lexer.endsNumber := by decide
    exact List.all_eq_true.mp free c among
  | char | str => rfl
  | punct p => 
    have free : ['(', ')', '[', ']', ',', '-', '+', '*'].all p.before := by
      rcases h with rfl | rfl | rfl | rfl | rfl <;> decide
    exact List.all_eq_true.mp free c among

theorem Lexeme.Ends.before_point {l : Lexeme} (h : l.Ends) (notInt : ∀ v s, l ≠ .int v s) : l.before '.' := by
  cases l with
  | word w => exact (by decide +kernel : !isWordChar '.')
  | int v s => exact (notInt v s rfl).elim
  | char | str => rfl
  | punct p => rcases h with rfl | rfl | rfl | rfl | rfl <;> decide

namespace TextPiece.Joins

variable {p q : TextPiece}

theorem ofSpaced (spaced : q.spaced) (apart : p.lexeme.isStr = false ∨ q.lexeme.isStr = false) : Joins p q := by
  refine ⟨fun c first => ?_, fun strings => ?_⟩
  · unfold TextPiece.chars at first
    rw [if_pos spaced] at first
    cases first
    exact p.lexeme.before_blank
  · rcases apart with notStr | notStr
    · rw [notStr] at strings
      cases strings.1
    · rw [notStr] at strings
      cases strings.2

theorem ofSingle {s : Bool} {m : Punct} (single : m.isSingle) : Joins ⟨s, .punct m⟩ q :=
  ⟨fun c _ => Punct.before_isSingle single c, fun strings => nomatch strings.1⟩

theorem ofFollower {m : Punct} (ends : p.lexeme.Ends) (follows : m.isFollower) : Joins p (.punct m) :=
  ⟨ends.before follows, fun strings => nomatch strings.2⟩

end TextPiece.Joins

/-! ## Blocks of pieces -/

namespace TextPiece

/-- Pieces that the lexer reads one by one. -/
structure Run (ps : List TextPiece) : Prop where
  legible : ∀ p ∈ ps, p.lexeme.Legible
  joins : ps.IsChain Joins

/-- The last of the pieces is one that a phrase may end with. -/
def Closed (ps : List TextPiece) : Prop := ∀ l ∈ (ps.map (·.lexeme)).getLast?, l.Ends

/-- Pieces that may stand between brackets. -/
structure Block (ps : List TextPiece) : Prop where
  run : Run ps
  closed : Closed ps

variable {ps qs : List TextPiece} {p : TextPiece}

theorem Run.cons (legible : p.lexeme.Legible) (h : Run qs) (joins : ∀ q ∈ qs.head?, Joins p q) : Run (p :: qs) :=
  ⟨List.forall_mem_cons.mpr ⟨legible, h.legible⟩, List.isChain_cons.mpr ⟨joins, h.joins⟩⟩

theorem Run.space (h : Run ps) : Run (space ps) := by
  cases ps with
  | nil => exact h
  | cons p ps =>
    have legible := List.forall_mem_cons.mp h.legible
    have joins := List.isChain_cons.mp h.joins
    refine cons legible.1 ⟨legible.2, joins.2⟩ fun q head => ?_
    exact ⟨(joins.1 q head).text, (joins.1 q head).apart⟩

theorem Closed.cons (h : Closed qs) (ne : qs ≠ []) : Closed (p :: qs) := by
  cases qs with
  | nil => exact (ne rfl).elim
  | cons q qs => exact h

namespace Block

theorem nil : Block [] := ⟨⟨nofun, .nil⟩, nofun⟩

theorem one (legible : p.lexeme.Legible) (ends : p.lexeme.Ends) : Block [p] := by
  refine ⟨nil.run.cons legible nofun, ?_⟩
  rintro l ⟨⟩
  exact ends

theorem cons (legible : p.lexeme.Legible) (h : Block qs) (joins : ∀ q ∈ qs.head?, Joins p q) (ne : qs ≠ []) :
    Block (p :: qs) :=
  ⟨h.run.cons legible joins, h.closed.cons ne⟩

/-- Pieces that may stand behind the last one. -/
theorem append (hp : Block ps) (hq : Block qs)
    (joins : ∀ q ∈ qs.head?, ∀ p : TextPiece, p.lexeme ∈ (ps.map (·.lexeme)).getLast? → p.lexeme.Ends → Joins p q) :
    Block (ps ++ qs) where
  run := by
    refine ⟨List.forall_mem_append.mpr ⟨hp.run.legible, hq.run.legible⟩, ?_⟩
    refine List.isChain_append.mpr ⟨hp.run.joins, hq.run.joins, fun p last q head => ?_⟩
    have ending : p.lexeme ∈ (ps.map (·.lexeme)).getLast? := by
      rw [List.getLast?_map, last]
      rfl
    exact joins q head p ending (hp.closed p.lexeme ending)
  closed := by
    intro l last
    rw [List.map_append, List.getLast?_append] at last
    rcases Option.or_eq_some_iff.mp last with behind | ⟨-, before⟩
    · exact hq.closed l behind
    · exact hp.closed l before

theorem space (h : Block ps) : Block (space ps) := by
  refine ⟨h.run.space, ?_⟩
  have closed := h.closed
  cases ps <;> exact closed

theorem bracketed (h : Block ps) {m m' : Punct} (single : m.isSingle) (follows : m'.isFollower)
    (ends : (Lexeme.punct m').Ends) : Block (.punct m :: (ps ++ [.punct m'])) := by
  have closing : Block [.punct m'] := one trivial ends
  refine cons trivial (h.append closing fun q head p _ ends => ?_) (fun q _ => .ofSingle single) (by simp)
  cases head
  exact .ofFollower ends follows

end Block

end TextPiece

/-! ## Phrases -/

structure Phrase where
  first : Lexeme
  rest : List TextPiece

namespace Phrase

def one (l : Lexeme) : Phrase := ⟨l, []⟩

def pieces (p : Phrase) : List TextPiece := ⟨false, p.first⟩ :: p.rest

/-- The phrase behind a blank. -/
def spaced (p : Phrase) : List TextPiece := ⟨true, p.first⟩ :: p.rest

def append (p : Phrase) (ps : List TextPiece) : Phrase := ⟨p.first, p.rest ++ ps⟩

/-- The phrase behind a sign, with or without a blank between them. -/
def led (p : Phrase) (m : Punct) (s : Bool) : Phrase := ⟨.punct m, ⟨s, p.first⟩ :: p.rest⟩

def parens (p : Phrase) : Phrase := ⟨.punct .lparen, p.pieces ++ [.punct .rparen]⟩

def text (p : Phrase) : List Char := TextPiece.text p.pieces

/-- The phrases with commas between them. -/
def commaList : List Phrase → List TextPiece
  | [] => []
  | p :: ps => p.pieces ++ ps.flatMap fun q => .punct .comma :: q.spaced

theorem append_nil (p : Phrase) : p.append [] = p := by
  rw [append, List.append_nil]

theorem append_append (p : Phrase) (ps qs : List TextPiece) : p.append (ps ++ qs) = (p.append ps).append qs := by
  rw [append, append, append, List.append_assoc]

@[simp]
theorem text_pieces (p : Phrase) : TextPiece.text p.pieces = p.text := rfl

theorem text_one (l : Lexeme) : (one l).text = l.chars := List.append_nil _

theorem text_spaced (p : Phrase) : TextPiece.text p.spaced = ' ' :: p.text := rfl

theorem text_append (p : Phrase) (ps : List TextPiece) : (p.append ps).text = p.text ++ TextPiece.text ps :=
  TextPiece.text_append p.pieces ps

theorem text_led (p : Phrase) (m : Punct) (s : Bool) :
    (p.led m s).text = m.spelling.toList ++ (if s then ' ' :: p.text else p.text) := by
  cases s <;> rfl

theorem text_parens (p : Phrase) : p.parens.text = '(' :: (p.text ++ [')']) := by
  unfold parens text pieces
  rw [TextPiece.text_cons, TextPiece.text_append]
  rfl

theorem text_commaList (ps : List Phrase) :
    TextPiece.text (commaList ps) = [',', ' '].intercalate (ps.map text) := by
  have behind (p : Phrase) (ps : List Phrase) : p.text ++ TextPiece.text (ps.flatMap fun q => .punct .comma :: q.spaced) =
      [',', ' '].intercalate (p.text :: ps.map text) := by
    induction ps generalizing p with
    | nil => simp
    | cons q qs ih =>
      rw [List.flatMap_cons, TextPiece.text_append, TextPiece.text_cons, List.append_assoc, text_spaced]
      rw [List.map_cons, List.intercalate_cons_cons, ← ih q]
      simp [Punct.spelling]
  cases ps with
  | nil => rfl
  | cons p ps => exact (TextPiece.text_append _ _).trans (behind p ps)

/-- Behind a phrase the last of the pieces is the last one of all. -/
theorem last_append (p : Phrase) (ps : List TextPiece) (q : TextPiece) :
    ((p.append (ps ++ [q])).pieces.map (·.lexeme)).getLast? = some q.lexeme := by
  show ((p.pieces ++ (ps ++ [q])).map (·.lexeme)).getLast? = _
  rw [← List.append_assoc, List.getLast?_map, List.getLast?_concat]
  rfl

theorem last_parens (p : Phrase) : (p.parens.pieces.map (·.lexeme)).getLast? = some (.punct .rparen) :=
  last_append (.one (.punct .lparen)) p.pieces (.punct .rparen)

/-- No lexeme runs into the next one. The phrase may stand behind an operator, and brackets behind it. -/
structure Sound (p : Phrase) : Prop where
  block : TextPiece.Block p.pieces
  opens : ∀ c ∈ p.first.chars.head?, c ≠ '=' ∧ c ≠ '>'

namespace Sound

variable {p q : Phrase}

theorem one {l : Lexeme} (legible : l.Legible) (opens : ∀ c ∈ l.chars.head?, c ≠ '=' ∧ c ≠ '>') (ends : l.Ends) :
    (Phrase.one l).Sound :=
  ⟨.one legible ends, opens⟩

theorem word {w : String} (name : IsName w.toList) : (Phrase.one (.word w)).Sound := by
  refine one name (fun c head => ?_) trivial
  obtain ⟨d, ds, text, letter, -⟩ := id name
  replace head : c ∈ w.toList.head? := head
  rw [text] at head
  cases head
  constructor <;> rintro rfl <;> exact absurd letter (by decide)

theorem spaced (h : p.Sound) : TextPiece.Block p.spaced := h.block.space

theorem append (h : p.Sound) {ps : List TextPiece} (block : TextPiece.Block ps)
    (joins : ∀ q ∈ ps.head?, ∀ r : TextPiece, r.lexeme ∈ (p.pieces.map (·.lexeme)).getLast? → r.lexeme.Ends →
      TextPiece.Joins r q) :
    (p.append ps).Sound :=
  ⟨h.block.append block joins, h.opens⟩

theorem parens (h : p.Sound) : p.parens.Sound := by
  refine ⟨h.block.bracketed rfl rfl (.inl rfl), ?_⟩
  rintro c ⟨⟩
  decide

/-- Brackets behind a phrase. -/
theorem bracketed (h : p.Sound) {ps : List TextPiece} (block : TextPiece.Block ps) {m m' : Punct} (single : m.isSingle)
    (follows : m.isFollower) (follows' : m'.isFollower) (ends : (Lexeme.punct m').Ends) :
    (p.append (.punct m :: (ps ++ [.punct m']))).Sound := by
  refine h.append (block.bracketed single follows' ends) fun q head r _ ends => ?_
  cases head
  exact .ofFollower ends follows

/-- A sign behind a phrase. -/
theorem suffixed (h : p.Sound) {m : Punct} (follows : m.isFollower) (ends : (Lexeme.punct m).Ends) :
    (p.append [.punct m]).Sound := by
  refine h.append (.one trivial ends) fun q head r _ ends => ?_
  cases head
  exact .ofFollower ends follows

/-- Another phrase behind a sign. -/
theorem infixed (h : p.Sound) (hq : q.Sound) {s : Bool} {m : Punct} (follows : s ∨ m.isFollower) :
    (p.append (⟨s, .punct m⟩ :: q.spaced)).Sound := by
  have block : TextPiece.Block (⟨s, .punct m⟩ :: q.spaced) := by
    refine .cons trivial hq.spaced (fun r head => ?_) nofun
    cases head
    exact .ofSpaced rfl (.inl rfl)
  refine h.append block fun r head r' _ ends => ?_
  cases head
  cases s with
  | true => exact .ofSpaced rfl (.inr rfl)
  | false => exact .ofFollower ends (follows.resolve_left nofun)

/-- A name behind a point or an arrow. A point behind a number would belong to it. -/
theorem selected (h : p.Sound) {w : String} (name : IsName w.toList) {m : Punct} (hm : m = .arrow ∨ m = .dot)
    (notInt : m = .dot → ∀ v s, .int v s ∉ (p.pieces.map (·.lexeme)).getLast?) :
    (p.append [.punct m, ⟨false, .word w⟩]).Sound := by
  have joined : TextPiece.Joins (.punct m) ⟨false, .word w⟩ := by
    rcases hm with rfl | rfl
    · exact .ofSingle rfl
    · refine ⟨fun c head => ?_, fun strings => nomatch strings.1⟩
      obtain ⟨d, ds, text, first, -⟩ := id name
      replace head : c ∈ w.toList.head? := head
      rw [text] at head
      cases head
      have notDot : c ≠ '.' := by
        rintro rfl
        exact absurd first (by decide)
      have notDigit : ¬c.isDigit := fun digit => by
        have low := Lexer.toNat_of_letter first
        have high := (Lexer.toNat_of_isDigit digit).2
        omega
      show (c != '.' && !c.isDigit) = true
      simp [notDot, notDigit]
  have block : TextPiece.Block [.punct m, ⟨false, .word w⟩] := by
    refine .cons trivial (.one name trivial) (fun q head => ?_) nofun
    cases head
    exact joined
  refine h.append block fun q head r last ends => ?_
  cases head
  rcases hm with rfl | rfl
  · exact .ofFollower ends rfl
  · refine ⟨fun c head => ?_, fun strings => nomatch strings.2⟩
    cases head
    refine ends.before_point fun v s same => notInt rfl v s ?_
    rw [← same]
    exact last

/-- A sign in front of a phrase. -/
theorem led (h : p.Sound) {m : Punct} {s : Bool} (opens : ∀ c ∈ m.spelling.toList.head?, c ≠ '=' ∧ c ≠ '>')
    (free : s = false → ∀ c ∈ p.first.chars.head?, m.before c) : (p.led m s).Sound := by
  refine ⟨?_, opens⟩
  cases s with
  | true =>
    refine .cons trivial h.spaced (fun q head => ?_) nofun
    cases head
    exact .ofSpaced rfl (.inl rfl)
  | false =>
    refine .cons trivial h.block (fun q head => ?_) nofun
    cases head
    exact ⟨free rfl, fun strings => nomatch strings.1⟩

theorem separated {ps : List Phrase} (h : p.Sound) (hps : ∀ q ∈ ps, q.Sound) :
    (p.append (ps.flatMap fun q => .punct .comma :: q.spaced)).Sound := by
  induction ps generalizing p with
  | nil =>
    rw [List.flatMap_nil, append_nil]
    exact h
  | cons q qs ih =>
    obtain ⟨first, rest⟩ := List.forall_mem_cons.mp hps
    rw [List.flatMap_cons, append_append]
    exact ih (h.infixed (s := false) first (.inr rfl)) rest

theorem commaList {ps : List Phrase} (h : ∀ p ∈ ps, p.Sound) : TextPiece.Block (Phrase.commaList ps) := by
  cases ps with
  | nil => exact .nil
  | cons p ps =>
    obtain ⟨first, rest⟩ := List.forall_mem_cons.mp h
    exact (first.separated rest).block

end Sound

end Phrase

end IncrementalC
