import IncrementalC.Proofs.Analysis.Rules
import IncrementalC.Proofs.Types.Spelling

/-!
# Printed expressions, token by token

`Expr.phrase` is the printer again, with the lexemes of the text in place of its characters. It writes the same
text (`Expr.text_phrase`), and no lexeme runs into the next one (`Expr.phrase_sound`).
-/
namespace IncrementalC
set_option autoImplicit false

/-! ## Names of types -/

/-- A record or an enumeration is what its name stands for, for the parser and for the analysis. -/
def Ty.Resolves (T : List String) (a : Analysis) : Ty → Prop
  | .record id => ∃ r, a.types.record? id = some r ∧ r.name ∈ T ∧ a.namedType? r.name = some (.record id)
  | .enum name => name ∈ T ∧ a.namedType? name = some (.enum name)
  | _ => True

structure Ty.Nameable (T : List String) (a : Analysis) (ty : Ty) : Prop where
  flat : ty.Flat
  resolves : ty.base.Resolves T a

namespace Ty

def decideFlat : (ty : Ty) → Decidable ty.Flat
  | .pointer t => @instDecidableAnd _ _ (inferInstanceAs (Decidable (t.isArray = false))) t.decideFlat
  | .array t _ => t.decideFlat
  | .void | .bool | .int _ | .float | .double | .record _ | .enum _ | .dependent | .dynamic => isTrue trivial

instance (ty : Ty) : Decidable ty.Flat := ty.decideFlat

instance (T : List String) (a : Analysis) (ty : Ty) : Decidable (ty.Resolves T a) :=
  match ty with
  | .record id =>
    match found : a.types.record? id with
    | none => isFalse fun ⟨_, known, _⟩ => nomatch found.symm.trans known
    | some r => decidable_of_iff (r.name ∈ T ∧ a.namedType? r.name = some (.record id))
        ⟨fun h => ⟨r, found, h⟩, fun ⟨_, known, h⟩ => Option.some.inj (found.symm.trans known) ▸ h⟩
  | .enum name => inferInstanceAs (Decidable (name ∈ T ∧ a.namedType? name = some (.enum name)))
  | .void | .bool | .int _ | .float | .double | .pointer _ | .array _ _ | .dependent | .dynamic => isTrue trivial

instance (T : List String) (a : Analysis) (ty : Ty) : Decidable (ty.Nameable T a) :=
  decidable_of_iff (ty.Flat ∧ ty.base.Resolves T a) ⟨fun h => ⟨h.1, h.2⟩, fun h => ⟨h.flat, h.resolves⟩⟩

variable {T : List String} {a : Analysis} {ty : Ty}

theorem Nameable.known (h : ty.Nameable T a) : ∀ id, ty.base = .record id → a.types.record? id ≠ none := by
  intro id isRecord
  have resolves := h.resolves
  rw [isRecord] at resolves
  obtain ⟨r, found, -, -⟩ := resolves
  rw [found]
  nofun

theorem Nameable.text_phrase (h : ty.Nameable T a) (spelled : ty.Spelled) :
    (a.types.phrase ty).text = (a.types.name ty).toList :=
  TypeTable.text_phrase h.flat spelled h.known

/-- A base type is named by a tag or by keywords. -/
theorem Resolves.words (h : ty.base.Resolves T a) (sound : a.Sound) (spelled : ty.base.Spelled) :
    (∃ name, a.types.baseWords ty.base = [name] ∧ IsWord name ∧ name ∈ T ∧ a.namedType? name = some ty.base) ∨
      ∃ k ks, ty.base.keywords = k :: ks ∧ a.types.baseWords ty.base = (k :: ks).map Keyword.spelling := by
  have isBase := ty.base_ne
  generalize ty.base = base at h spelled isBase
  cases base with
  | void | bool | float | double => exact .inr ⟨_, [], rfl, rfl⟩
  | int k =>
    obtain ⟨rank, signed⟩ := k
    cases rank <;> cases signed <;> exact .inr ⟨_, _, rfl, rfl⟩
  | pointer s => exact (isBase.1 s rfl).elim
  | array s n => exact (isBase.2 s n rfl).elim
  | record id =>
    obtain ⟨r, found, known, names⟩ := h
    refine .inl ⟨r.name, ?_, (sound.record id r found).name, known, names⟩
    unfold TypeTable.baseWords TypeTable.tag?
    dsimp only
    rw [found]
    rfl
  | enum name => exact .inl ⟨name, rfl, spelled, h⟩
  | dependent | dynamic => exact spelled.elim

theorem Nameable.words_sound (h : ty.Nameable T a) (sound : a.Sound) (spelled : ty.Spelled) :
    (Phrase.words (a.types.baseWords ty.base)).Sound := by
  obtain ⟨name, words, word, -, -⟩ | ⟨k, ks, -, words⟩ := h.resolves.words sound spelled.base
  · rw [words]
    exact IncrementalC.words_sound (List.forall_mem_singleton.mpr word.name)
  · rw [words]
    refine IncrementalC.words_sound fun w mem => ?_
    replace mem : w ∈ (k :: ks).map Keyword.spelling := mem
    obtain ⟨k', -, rfl⟩ := List.mem_map.mp mem
    exact isName_spelling k'

theorem Nameable.phrase_sound (h : ty.Nameable T a) (sound : a.Sound) (spelled : ty.Spelled) :
    (a.types.phrase ty).Sound :=
  TypeTable.phrase_sound spelled (h.words_sound sound spelled)

end Ty

/-! ## Operators -/

def BinaryOp.punct : BinaryOp → Punct
  | .add => .plus | .sub => .minus | .mul => .star | .div => .slash | .rem => .percent | .shl => .shl
  | .shr => .shr | .lt => .lt | .gt => .gt | .le => .ltEq | .ge => .gtEq | .eq => .eqEq | .ne => .notEq
  | .bitAnd => .amp | .bitOr => .pipe | .bitXor => .caret | .and => .andAnd | .or => .orOr

theorem BinaryOp.spelling_punct (op : BinaryOp) : op.punct.spelling = op.symbol := by
  cases op <;> rfl

namespace Typed

def leadingPunct : UnaryOp → Punct
  | .neg => .minus
  | .plus => .plus
  | .not => .bang
  | .bitNot => .tilde
  | .deref => .star
  | .addrOf => .amp
  | .preInc | .postInc => .plusPlus
  | .preDec | .postDec => .minusMinus

theorem spelling_leadingPunct (op : UnaryOp) : (leadingPunct op).spelling = leadingText op := by
  cases op <;> rfl

def assignPunct : Option BinaryOp → Punct
  | some .add => .plusAssign
  | some .sub => .minusAssign
  | some .mul => .starAssign
  | some .div => .slashAssign
  | some .rem => .percentAssign
  | some .bitAnd => .ampAssign
  | some .bitOr => .pipeAssign
  | some .bitXor => .caretAssign
  | some .shl => .shlAssign
  | some .shr => .shrAssign
  | _ => .assign

theorem spelling_assignPunct {op : Option BinaryOp} (arithmetic : ∀ o, op = some o → o.isArithmetic) :
    (assignPunct op).spelling = assignText op := by
  cases op with
  | none => rfl
  | some o => cases o <;> first | rfl | exact nomatch arithmetic _ rfl

/-! ## Phrases of expressions -/

/-- A blank keeps a leading operator apart from what begins with its sign. -/
def glues (op : UnaryOp) (first : Option Char) : Bool :=
  match op with
  | .neg | .plus | .preInc | .preDec | .addrOf => (leadingText op).toList.head? == first
  | _ => false

/-- A phrase that binds with precedence `x.2`, in a place that asks for `min`. -/
def bracket (min : Nat) (x : Phrase × Nat) : Phrase := if x.2 < min then x.1.parens else x.1

mutual

def Expr.phrase (t : TypeTable) : Expr → Phrase × Nat
  | .int _ v suffix => (.one (.int v suffix), Prec.primary)
  | .float _ x single =>
    (.one (.word (Decimal.render Decimal.valueNotation x ++ (if single then "f" else ""))), Prec.primary)
  | .char _ c => (.one (.char c), Prec.primary)
  | .str _ s => (.one (.str s), Prec.primary)
  | .bool _ b => (.one (.word (toString b)), Prec.primary)
  | .null _ => (.one (.word "nullptr"), Prec.primary)
  | .ident _ name _ => (.one (.word name), Prec.primary)
  | .unary _ .postInc e => ((bracket Prec.suffix (e.phrase t)).append [.punct .plusPlus], Prec.suffix)
  | .unary _ .postDec e => ((bracket Prec.suffix (e.phrase t)).append [.punct .minusMinus], Prec.suffix)
  | .unary _ op e =>
    let operand := bracket Prec.unary (e.phrase t)
    (operand.led (leadingPunct op) (glues op operand.text.head?), Prec.unary)
  | .binary _ op a b =>
    ((bracket op.precedence (a.phrase t)).append
      (.spacedPunct op.punct :: (bracket (op.precedence + 1) (b.phrase t)).spaced), op.precedence)
  | .assign _ op a b =>
    ((bracket Prec.unary (a.phrase t)).append
      (.spacedPunct (assignPunct op) :: (bracket Prec.assign (b.phrase t)).spaced), Prec.assign)
  | .conditional _ c a b =>
    (((bracket (Prec.conditional + 1) (c.phrase t)).append (.spacedPunct .question :: (a.phrase t).1.spaced)).append
      (.spacedPunct .colon :: (bracket Prec.conditional (b.phrase t)).spaced), Prec.conditional)
  | .call _ callee _ args =>
    ((Phrase.one (.word callee)).append (.punct .lparen :: (Phrase.commaList (argPhrases t args) ++ [.punct .rparen])),
      Prec.suffix)
  | .index _ base index =>
    ((bracket Prec.suffix (base.phrase t)).append (.punct .lbracket :: ((index.phrase t).1.pieces ++ [.punct .rbracket])),
      Prec.suffix)
  | .member _ base field arrow =>
    ((bracket Prec.suffix (base.phrase t)).append [.punct (if arrow then .arrow else .dot), ⟨false, .word field⟩],
      Prec.suffix)
  | .cast _ target e => ((t.phrase target).parens.append (bracket Prec.unary (e.phrase t)).pieces, Prec.unary)
  | .sizeofType _ target =>
    ((Phrase.one (.word "sizeof")).append (.punct .lparen :: ((t.phrase target).pieces ++ [.punct .rparen])), Prec.unary)
  | .sizeofExpr _ e =>
    ((Phrase.one (.word "sizeof")).append (.punct .lparen :: ((e.phrase t).1.pieces ++ [.punct .rparen])), Prec.unary)
  | .comma _ a b => ((a.phrase t).1.append (.punct .comma :: (bracket Prec.assign (b.phrase t)).spaced), Prec.comma)
  | .invalid _ => (.one (.word ""), Prec.primary)

def argPhrases (t : TypeTable) : List Expr → List Phrase
  | [] => []
  | e :: es => bracket Prec.assign (e.phrase t) :: argPhrases t es

end

/-! ## Readable trees -/

mutual

/-- Without floating literals and wide characters, no name in the tree is one of the type names `T`, and its types
can be named. -/
def Expr.Readable (T : List String) (a : Analysis) : Expr → Prop
  | .float .. => False
  | .char _ c => c < 256
  | .ident _ name _ => name ∉ T
  | .unary _ _ e | .sizeofExpr _ e | .member _ e _ _ => e.Readable T a
  | .binary _ _ x y | .assign _ _ x y | .index _ x y | .comma _ x y => x.Readable T a ∧ y.Readable T a
  | .conditional _ c x y => c.Readable T a ∧ x.Readable T a ∧ y.Readable T a
  | .call _ callee _ args => callee ∉ T ∧ ReadableAll T a args
  | .cast _ target e => target.Nameable T a ∧ e.Readable T a
  | .sizeofType _ target => target.Nameable T a
  | .int .. | .str .. | .bool .. | .null _ | .invalid _ => True

def ReadableAll (T : List String) (a : Analysis) : List Expr → Prop
  | [] => True
  | e :: es => e.Readable T a ∧ ReadableAll T a es

end

mutual

def Expr.decideReadable (T : List String) (a : Analysis) : (e : Expr) → Decidable (e.Readable T a)
  | .float .. => isFalse id
  | .char _ c => inferInstanceAs (Decidable (c < 256))
  | .ident _ name _ => inferInstanceAs (Decidable (name ∉ T))
  | .unary _ _ e | .sizeofExpr _ e | .member _ e _ _ => e.decideReadable T a
  | .binary _ _ x y | .assign _ _ x y | .index _ x y | .comma _ x y =>
    @instDecidableAnd _ _ (x.decideReadable T a) (y.decideReadable T a)
  | .conditional _ c x y =>
    @instDecidableAnd _ _ (c.decideReadable T a) (@instDecidableAnd _ _ (x.decideReadable T a) (y.decideReadable T a))
  | .call _ callee _ args =>
    @instDecidableAnd _ _ (inferInstanceAs (Decidable (callee ∉ T))) (decideReadableAll T a args)
  | .cast _ target e => @instDecidableAnd _ _ (inferInstanceAs (Decidable (target.Nameable T a))) (e.decideReadable T a)
  | .sizeofType _ target => inferInstanceAs (Decidable (target.Nameable T a))
  | .int .. | .str .. | .bool .. | .null _ | .invalid _ => isTrue trivial

def decideReadableAll (T : List String) (a : Analysis) : (es : List Expr) → Decidable (ReadableAll T a es)
  | [] => isTrue trivial
  | e :: es => @instDecidableAnd _ _ (e.decideReadable T a) (decideReadableAll T a es)

end

instance (T : List String) (a : Analysis) (e : Expr) : Decidable (e.Readable T a) := e.decideReadable T a

/-! ## Text -/

variable {T : List String} {a : Analysis}

@[simp]
theorem toList_toString (s : String) : (toString s).toList = s.toList := rfl

theorem prec_phrase (t : TypeTable) (e : Expr) : (e.phrase t).2 = (Printer.exprText ⟨t, fun _ _ _ => none⟩ e).2 := by
  cases e with
  | unary i op e => cases op <;> rfl
  | _ => rfl

/-- The text is the one that the printer writes. -/
structure SameText (x : Phrase × Nat) (y : String × Nat) : Prop where
  text : x.1.text = y.1.toList
  prec : x.2 = y.2

theorem SameText.bracket {x : Phrase × Nat} {y : String × Nat} (h : SameText x y) (min : Nat) :
    (Typed.bracket min x).text = (parenthesize min y).toList := by
  unfold Typed.bracket parenthesize
  rw [h.prec]
  split
  · rw [Phrase.text_parens, h.text]
    show _ = ("(" ++ y.1 ++ ")").toList
    simp
  · exact h.text

theorem text_led {p : Phrase} {operand : String} (same : p.text = operand.toList) (op : UnaryOp) :
    (p.led (leadingPunct op) (glues op p.text.head?)).text = (leading op operand).toList := by
  have spaced : (p.led (leadingPunct op) true).text = (s!"{leadingText op} {operand}").toList := by
    rw [Phrase.text_led, spelling_leadingPunct, same]
    show _ = (leadingText op ++ " " ++ operand).toList
    simp
  have unspaced : (p.led (leadingPunct op) false).text = (s!"{leadingText op}{operand}").toList := by
    rw [Phrase.text_led, spelling_leadingPunct, same]
    show _ = (leadingText op ++ operand).toList
    simp
  have decided : leading op operand =
      if glues op operand.toList.head? then s!"{leadingText op} {operand}" else s!"{leadingText op}{operand}" := by
    cases op <;> rfl
  rw [decided, same]
  cases glues op operand.toList.head? with
  | true => exact spaced
  | false => exact unspaced

theorem text_commaList {ps : List Phrase} {texts : List String}
    (same : List.Forall₂ (fun p s => p.text = s.toList) ps texts) :
    TextPiece.text (Phrase.commaList ps) = (commaList texts).toList := by
  have texts_eq : ps.map Phrase.text = texts.map String.toList := by
    induction same with
    | nil => rfl
    | cons first _ ih => rw [List.map_cons, List.map_cons, first, ih]
  unfold commaList
  rw [Phrase.text_commaList, texts_eq, String.toList_intercalate]
  rfl

mutual

theorem Expr.sameText : ∀ {e : Expr}, e.Accepted a → e.Readable T a →
    SameText (e.phrase a.types) (Printer.exprText ⟨a.types, fun _ _ _ => none⟩ e)
  | .int i v s, _, _ => by
    refine ⟨(Phrase.text_one _).trans ?_, rfl⟩
    show _ = (Nat.repr v ++ suffixText s).toList
    rw [String.toList_append, Nat.toList_repr]
    rfl
  | .float .., _, readable => readable.elim
  | .char i c, _, readable => ⟨(Phrase.text_one _).trans (Lexer.charLiteral_eq readable).symm, rfl⟩
  | .str i s, _, _ => ⟨(Phrase.text_one _).trans (String.toList_ofList ..).symm, rfl⟩
  | .bool .., _, _ | .null _, _, _ | .ident .., _, _ => ⟨Phrase.text_one _, rfl⟩
  | .unary i op e, accepted, readable => by
    have operand := Expr.sameText accepted.2 readable
    have led := text_led (operand.bracket Prec.unary) op
    have suffixed := operand.bracket Prec.suffix
    refine ⟨?_, prec_phrase _ _⟩
    cases op with
    | postInc | postDec =>
      rw [Expr.phrase, Printer.exprText, Phrase.text_append, suffixed, String.toList_append]
      rfl
    | _ => exact led
  | .binary i op x y, accepted, readable => by
    have left := (Expr.sameText accepted.2.1 readable.1).bracket op.precedence
    have right := (Expr.sameText accepted.2.2 readable.2).bracket (op.precedence + 1)
    refine ⟨?_, rfl⟩
    rw [Expr.phrase, Printer.exprText, Phrase.text_append, TextPiece.text_cons, Phrase.text_spaced, left, right,
      TextPiece.chars_spacedPunct, BinaryOp.spelling_punct]
    simp
  | .assign i op x y, accepted, readable => by
    have left := (Expr.sameText accepted.2.2.1 readable.1).bracket Prec.unary
    have right := (Expr.sameText accepted.2.2.2 readable.2).bracket Prec.assign
    refine ⟨?_, rfl⟩
    rw [Expr.phrase, Printer.exprText, Phrase.text_append, TextPiece.text_cons, Phrase.text_spaced, left, right,
      TextPiece.chars_spacedPunct, spelling_assignPunct accepted.1]
    simp
  | .conditional i c x y, accepted, readable => by
    have test := (Expr.sameText accepted.2.1 readable.1).bracket (Prec.conditional + 1)
    have yes := (Expr.sameText accepted.2.2.1 readable.2.1).text
    have no := (Expr.sameText accepted.2.2.2 readable.2.2).bracket Prec.conditional
    refine ⟨?_, rfl⟩
    rw [Expr.phrase, Printer.exprText, Phrase.text_append, Phrase.text_append, TextPiece.text_cons, TextPiece.text_cons,
      Phrase.text_spaced, Phrase.text_spaced, test, yes, no]
    simp [Punct.spelling]
  | .call i callee target args, accepted, readable => by
    have inside := text_commaList (sameTexts accepted.2.1 readable.2)
    refine ⟨?_, rfl⟩
    rw [Expr.phrase, Printer.exprText, Phrase.text_append, Phrase.text_one, TextPiece.text_cons, TextPiece.text_append, inside]
    simp [Punct.spelling, TextPiece.text_cons, Lexeme.chars]
  | .index i x y, accepted, readable => by
    have base := (Expr.sameText accepted.2.1 readable.1).bracket Prec.suffix
    have index := (Expr.sameText accepted.2.2 readable.2).text
    refine ⟨?_, rfl⟩
    rw [Expr.phrase, Printer.exprText, Phrase.text_append, base, TextPiece.text_cons, TextPiece.text_append]
    simp [Punct.spelling, TextPiece.text_cons, index]
  | .member i x field arrow, accepted, readable => by
    have base := (Expr.sameText accepted.2.2 readable).bracket Prec.suffix
    refine ⟨?_, rfl⟩
    rw [Expr.phrase, Printer.exprText, Phrase.text_append, base]
    cases arrow <;> simp [Punct.spelling, TextPiece.text_cons]
  | .cast i target e, accepted, readable => by
    have name := readable.1.text_phrase accepted.1
    have operand := (Expr.sameText accepted.2.2 readable.2).bracket Prec.unary
    refine ⟨?_, rfl⟩
    rw [Expr.phrase, Printer.exprText, Phrase.text_append, Phrase.text_parens, name]
    simp [operand]
  | .sizeofType i target, accepted, readable => by
    have name := readable.text_phrase accepted.1
    refine ⟨?_, rfl⟩
    rw [Expr.phrase, Printer.exprText, Phrase.text_append, Phrase.text_one, TextPiece.text_cons, TextPiece.text_append]
    simp [Punct.spelling, TextPiece.text_cons, Lexeme.chars, name]
  | .sizeofExpr i e, accepted, readable => by
    have operand := (Expr.sameText accepted.2 readable).text
    refine ⟨?_, rfl⟩
    rw [Expr.phrase, Printer.exprText, Phrase.text_append, Phrase.text_one, TextPiece.text_cons, TextPiece.text_append]
    simp [Punct.spelling, TextPiece.text_cons, Lexeme.chars, operand]
  | .comma i x y, accepted, readable => by
    have left := (Expr.sameText accepted.2.1 readable.1).text
    have right := (Expr.sameText accepted.2.2 readable.2).bracket Prec.assign
    refine ⟨?_, rfl⟩
    rw [Expr.phrase, Printer.exprText, Phrase.text_append, TextPiece.text_cons, Phrase.text_spaced, left, right]
    simp [Punct.spelling]
  | .invalid _, accepted, _ => accepted.elim

theorem sameTexts : ∀ {es : List Expr}, AcceptedAll a es → ReadableAll T a es →
    List.Forall₂ (fun p s => p.text = s.toList) (argPhrases a.types es)
      (Printer.argTexts ⟨a.types, fun _ _ _ => none⟩ es)
  | [], _, _ => .nil
  | _ :: _, accepted, readable =>
    .cons ((Expr.sameText accepted.1 readable.1).bracket Prec.assign) (sameTexts accepted.2 readable.2)

end

/-! ## Lexemes -/

theorem bracket_sound {x : Phrase × Nat} (h : x.1.Sound) (min : Nat) : (bracket min x).Sound := by
  unfold bracket
  split
  · exact h.parens
  · exact h

theorem leading_sound {p : Phrase} (h : p.Sound) (op : UnaryOp) :
    (p.led (leadingPunct op) (glues op p.text.head?)).Sound := by
  have head : p.text.head? = p.first.chars.head? := by
    obtain ⟨c, cs, text⟩ := List.exists_cons_of_ne_nil
      (Lexeme.chars_ne_nil (h.block.run.legible ⟨false, p.first⟩ List.mem_cons_self))
    show (p.first.chars ++ TextPiece.text p.rest).head? = _
    rw [text]
    rfl
  refine h.led ?_ fun apart c first => ?_
  · cases op <;> rintro c ⟨⟩ <;> decide
  · have opens := h.opens c first
    rw [head, first] at apart
    have other (sign : Char) (glued : glues op (some sign)) : c ≠ sign := by
      rintro rfl
      rw [glued] at apart
      cases apart
    cases op with
    | neg => simp [leadingPunct, Punct.before, opens, other '-' rfl]
    | plus => simp [leadingPunct, Punct.before, opens, other '+' rfl]
    | addrOf => simp [leadingPunct, Punct.before, opens, other '&' rfl]
    | not | deref => simp [leadingPunct, Punct.before, opens]
    | bitNot | preInc | preDec | postInc | postDec => rfl

/-- What binds as tight as a suffix ends with a number only if it is one. -/
theorem last_bracket {t : TypeTable} {e : Expr} (notInt : ∀ i v s, e ≠ .int i v s) :
    ∀ v s, .int v s ∉ ((bracket Prec.suffix (e.phrase t)).pieces.map (·.lexeme)).getLast? := by
  intro v s
  have inside (h : (e.phrase t).2 < Prec.suffix) :
      .int v s ∉ ((bracket Prec.suffix (e.phrase t)).pieces.map (·.lexeme)).getLast? := by
    unfold bracket
    rw [if_pos h, Phrase.last_parens]
    nofun
  have ending {p : Phrase} (ps : List TextPiece) {q : TextPiece} (same : e.phrase t = (p.append (ps ++ [q]), Prec.suffix))
      (other : q.lexeme ≠ .int v s) : .int v s ∉ ((bracket Prec.suffix (e.phrase t)).pieces.map (·.lexeme)).getLast? := by
    unfold bracket
    rw [same, if_neg (Nat.lt_irrefl _), Phrase.last_append]
    exact fun last => other (Option.some.inj last)
  have unary : Prec.unary < Prec.suffix := by decide
  cases e with
  | int i v s => exact (notInt i v s rfl).elim
  | float | char | str | bool | null | ident | invalid => exact nofun
  | unary i op e =>
    cases op with
    | postInc | postDec => exact ending [] rfl nofun
    | _ => exact inside unary
  | binary i op x y =>
    refine inside (show op.precedence < Prec.suffix from ?_)
    cases op <;> decide
  | assign => exact inside (show Prec.assign < Prec.suffix by decide)
  | conditional => exact inside (show Prec.conditional < Prec.suffix by decide)
  | comma => exact inside (show Prec.comma < Prec.suffix by decide)
  | cast | sizeofType | sizeofExpr => exact inside unary
  | call i callee target args => exact ending (.punct .lparen :: Phrase.commaList (argPhrases t args)) rfl nofun
  | index i x y => exact ending (.punct .lbracket :: (y.phrase t).1.pieces) rfl nofun
  | member i x field arrow => exact ending [.punct _] rfl nofun

theorem not_memberOf_int {i : Info} {v : Nat} {s : IntSuffix} {field : String} {span : Span} {ty : Ty}
    (literal : i.ty = Analyze.intLiteralType v s) (rule : Yields a (Analyze.memberType (.int i v s) field false span) ty) :
    False := by
  have notRecord (id : RecordId) : Analyze.intLiteralType v s ≠ .record id := by
    cases s <;> unfold Analyze.intLiteralType <;> dsimp only <;> (try split) <;> (try split) <;> exact nofun
  have known : (Expr.int i v s).ty.isDependent = false := by
    show i.ty.isDependent = false
    rw [literal]
    cases s <;> unfold Analyze.intLiteralType <;> dsimp only <;> (try split) <;> (try split) <;> rfl
  obtain ⟨b, -, -, run⟩ := rule
  obtain ⟨id, -, -, isRecord, -⟩ := Analyze.memberType_accepts known run
  exact notRecord id (literal.symm.trans isRecord)

mutual

theorem Expr.phrase_sound (sound : a.Sound) : ∀ {e : Expr}, e.Accepted a → e.Readable T a → (e.phrase a.types).1.Sound
  | .int i v s, accepted, _ => by
    refine .one accepted.1 (fun c first => ?_) trivial
    have digit : c.isDigit := by
      have digits : ∀ c ∈ Nat.toDigits 10 v, c.isDigit := fun _ mem => Nat.isDigit_of_mem_toDigits (by decide) (by decide) mem
      obtain ⟨d, ds, text⟩ := List.exists_cons_of_ne_nil (Nat.toDigits_ne_nil (n := v) (b := 10))
      rw [Lexeme.chars, text] at first
      cases first
      exact digits c (by rw [text]; exact List.mem_cons_self)
    constructor <;> rintro rfl <;> cases digit
  | .float .., _, readable => readable.elim
  | .char i c, _, readable => by
    refine .one readable ?_ trivial
    rintro c ⟨⟩
    decide
  | .str i s, _, _ => by
    refine .one trivial ?_ trivial
    rintro c ⟨⟩
    decide
  | .bool i b, _, _ => by
    refine .word ?_
    cases b
    · exact isName_spelling .false
    · exact isName_spelling .true
  | .null _, _, _ => .word (isName_spelling .nullptr)
  | .ident .., accepted, _ => .word accepted.1.name
  | .unary i op e, accepted, readable => by
    have operand := Expr.phrase_sound sound accepted.2 readable
    have led := leading_sound (bracket_sound operand Prec.unary) op
    have suffixed := bracket_sound operand Prec.suffix
    cases op with
    | postInc => exact suffixed.suffixed rfl (.inr (.inr (.inl rfl)))
    | postDec => exact suffixed.suffixed rfl (.inr (.inr (.inr (.inl rfl))))
    | _ => exact led
  | .binary i op x y, accepted, readable => by
    have left := Expr.phrase_sound sound accepted.2.1 readable.1
    have right := Expr.phrase_sound sound accepted.2.2 readable.2
    exact (bracket_sound left _).infixed (bracket_sound right _) (.inl rfl)
  | .assign i op x y, accepted, readable => by
    have left := Expr.phrase_sound sound accepted.2.2.1 readable.1
    have right := Expr.phrase_sound sound accepted.2.2.2 readable.2
    exact (bracket_sound left _).infixed (bracket_sound right _) (.inl rfl)
  | .conditional i c x y, accepted, readable => by
    have test := Expr.phrase_sound sound accepted.2.1 readable.1
    have yes := Expr.phrase_sound sound accepted.2.2.1 readable.2.1
    have no := Expr.phrase_sound sound accepted.2.2.2 readable.2.2
    exact ((bracket_sound test _).infixed yes (.inl rfl)).infixed (bracket_sound no _) (.inl rfl)
  | .call i callee target args, accepted, readable => by
    have args := Phrase.Sound.commaList (argPhrases_sound sound accepted.2.1 readable.2)
    exact (Phrase.Sound.word accepted.1.name).bracketed args rfl rfl rfl (.inl rfl)
  | .index i x y, accepted, readable => by
    have base := Expr.phrase_sound sound accepted.2.1 readable.1
    have index := Expr.phrase_sound sound accepted.2.2 readable.2
    exact (bracket_sound base _).bracketed index.block rfl rfl rfl (.inr (.inl rfl))
  | .member i x field arrow, accepted, readable => by
    have base := Expr.phrase_sound sound accepted.2.2 readable
    refine (bracket_sound base _).selected accepted.1.name ?_ fun dot => last_bracket ?_
    · cases arrow
      · exact .inr rfl
      · exact .inl rfl
    · rintro i v s rfl
      cases arrow with
      | true => cases dot
      | false => exact not_memberOf_int accepted.2.2.2 accepted.2.1
  | .cast i target e, accepted, readable => by
    have name := readable.1.phrase_sound sound accepted.1
    have operand := bracket_sound (Expr.phrase_sound sound accepted.2.2 readable.2) Prec.unary
    refine name.parens.append operand.block fun q _ r last _ => ?_
    obtain ⟨s, l⟩ := r
    rw [Phrase.last_parens] at last
    cases last
    exact .ofSingle rfl
  | .sizeofType i target, accepted, readable => by
    have name := readable.phrase_sound sound accepted.1
    exact (Phrase.Sound.word (isName_spelling .sizeof)).bracketed name.block rfl rfl rfl (.inl rfl)
  | .sizeofExpr i e, accepted, readable => by
    have operand := Expr.phrase_sound sound accepted.2 readable
    exact (Phrase.Sound.word (isName_spelling .sizeof)).bracketed operand.block rfl rfl rfl (.inl rfl)
  | .comma i x y, accepted, readable => by
    have left := Expr.phrase_sound sound accepted.2.1 readable.1
    have right := Expr.phrase_sound sound accepted.2.2 readable.2
    exact left.infixed (bracket_sound right _) (.inr rfl)
  | .invalid _, accepted, _ => accepted.elim

theorem argPhrases_sound (sound : a.Sound) : ∀ {es : List Expr}, AcceptedAll a es → ReadableAll T a es →
    ∀ p ∈ argPhrases a.types es, p.Sound
  | [], _, _ => nofun
  | _ :: _, accepted, readable => by
    refine List.forall_mem_cons.mpr ⟨?_, argPhrases_sound sound accepted.2 readable.2⟩
    exact bracket_sound (Expr.phrase_sound sound accepted.1 readable.1) _

end

end Typed
end IncrementalC
