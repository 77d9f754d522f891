import IncrementalC.Proofs.Analysis.ExpressionAccepted
import IncrementalC.Proofs.Analysis.Reached
import IncrementalC.Proofs.Machine.Represented
import IncrementalC.Proofs.Syntax.ExpressionWritten
import IncrementalC.Proofs.Syntax.TypeNames
import IncrementalC.Proofs.Syntax.UnitWritten
import IncrementalC.Proofs.Typed.Origin
import IncrementalC.Proofs.Typed.Phrases

/-!
# Printed expressions are read back

The tokens of `Expr.phrase` are read by the rules for the precedence that the phrase binds with, as a tree that the
typed tree can be made of (`Expr.phrase_parses`). With the text of the phrase, which is the printed one, and the lexer
this takes a printed expression back to the tree that was analysed.
-/
namespace IncrementalC
set_option autoImplicit false
open Syntax (Parses NamesType NamesBase)
open Analyze (Named)
open Typed (Expr)

/-! ## Kinds of phrases -/

namespace Phrase

def kinds (p : Phrase) : List TokenKind := p.pieces.map TextPiece.kind

theorem kinds_append (p : Phrase) (ps : List TextPiece) : (p.append ps).kinds = p.kinds ++ ps.map TextPiece.kind := by
  show (p.pieces ++ ps).map TextPiece.kind = _
  exact List.map_append

theorem kinds_parens (p : Phrase) : p.parens.kinds = TokenKind.punct .lparen :: (p.kinds ++ [TokenKind.punct .rparen]) := by
  show TokenKind.punct .lparen :: (p.pieces ++ [TextPiece.punct .rparen]).map TextPiece.kind = _
  rw [List.map_append]
  rfl

theorem kinds_commaList (ps : List Phrase) :
    (commaList ps).map TextPiece.kind = Syntax.commaSeparated (ps.map kinds) := by
  cases ps with
  | nil => rfl
  | cons p ps =>
    show (p.pieces ++ ps.flatMap _).map TextPiece.kind = _
    rw [List.map_append, List.map_flatMap]
    show p.kinds ++ _ = p.kinds ++ (ps.map kinds).flatMap _
    rw [List.flatMap_map]
    rfl

end Phrase

theorem kind_spelling (k : Keyword) (s : Bool) : (⟨s, .word k.spelling⟩ : TextPiece).kind = .keyword k := by
  show (Keyword.ofWord? k.spelling).elim _ _ = _
  rw [ofWord?_spelling]
  rfl

/-! ## Names of types -/

namespace Ty

theorem kinds_stars (n : Nat) :
    (List.replicate n (TextPiece.punct .star)).map TextPiece.kind = List.replicate n (TokenKind.punct .star) :=
  List.map_replicate

theorem kinds_lengths (ns : List (Option Nat)) :
    (ns.flatMap TextPiece.length).map TextPiece.kind = ns.flatMap Syntax.lengthTokens := by
  have one (n : Option Nat) : (TextPiece.length n).map TextPiece.kind = Syntax.lengthTokens n := by cases n <;> rfl
  rw [List.map_flatMap]
  simp only [one]

theorem kinds_declarator (ty : Ty) : ty.declarator.map TextPiece.kind =
    List.replicate ty.stars (TokenKind.punct .star) ++ ty.dims.flatMap Syntax.lengthTokens := by
  unfold declarator
  rw [List.map_append, kinds_stars, kinds_lengths]

/-- The keywords of a base type mean it. -/
theorem keywords_mean {ty : Ty} {k : Keyword} {ks : List Keyword} (named : ty.keywords = k :: ks) :
    (∀ w ∈ k :: ks, Syntax.isTypeWord w) ∧ ∃ b, Syntax.wordsType? (k :: ks) = some b ∧
      ∀ (spec : Syntax.DeclSpec) (a : Analysis), spec.base = b → (Analyze.baseType spec).run a = (ty, a) := by
  rw [← named]
  have means {b : Syntax.BaseType} {ty : Ty} (plain : ∀ spec : Syntax.DeclSpec, spec.base = b → Analyze.baseType spec = pure ty)
      (spec : Syntax.DeclSpec) (a : Analysis) (same : spec.base = b) : (Analyze.baseType spec).run a = (ty, a) := by
    rw [plain spec same]
    rfl
  cases ty with
  | void | bool | float | double =>
    exact ⟨by decide, _, rfl, means fun spec same => by unfold Analyze.baseType; rw [same]⟩
  | int kind =>
    obtain ⟨rank, signed⟩ := kind
    refine ⟨?_, .int ⟨rank, signed⟩, ?_, means fun spec same => by unfold Analyze.baseType; rw [same]⟩
    · cases rank <;> cases signed <;> decide
    · cases rank <;> cases signed <;> rfl
  | _ => cases named

end Ty

namespace Analyze

variable {a : Analysis}

theorem run_bind_of {α β : Type} {m : Analyze α} {x : α} {b : Analysis} (run : m.run a = (x, b)) (f : α → Analyze β) :
    (m >>= f).run a = (f x).run b := by
  show (f (m.run a).1).run (m.run a).2 = _
  rw [run]

/-- A literal length is worked out as it is written. -/
theorem run_length {n : Nat} (small : n < UInt64.size / 2) (span : Span) :
    (arrayLength? (.int ⟨span, intLiteralType n .none⟩ n .none)).run a = (some n, a) := by
  have half : UInt32.size / 2 = 2 ^ 31 := rfl
  have full : UInt64.size / 2 = 2 ^ 63 := rfl
  have value : (Int64.ofNat n).toInt = n := Int64.toInt_ofNat_of_lt (by omega)
  have nonnegative : 0 ≤ Int64.ofNat n := by
    rw [Int64.le_iff_toInt_le, value]
    exact Int.natCast_nonneg n
  obtain ⟨isInteger, constant⟩ : (intLiteralType n .none).isInteger ∧
      (Constant.int (Int64.ofNat n)).coerce (intLiteralType n .none) = some (.int (Int64.ofNat n)) := by
    unfold intLiteralType
    by_cases short : n < UInt32.size / 2
    · have fits : (Constant.int (Int64.ofNat n)).coerce .signedInt = some (.int (Scalar.i32.wrap (Int64.ofNat n))) := rfl
      rw [if_pos short, fits, Scalar.wrap_i32_ofNat (by omega)]
      exact ⟨rfl, rfl⟩
    · rw [if_neg short, if_pos small]
      exact ⟨rfl, rfl⟩
  generalize intLiteralType n .none = ty at isInteger constant
  have folded : Typed.constant? a.types (.int ⟨span, ty⟩ n .none) = some (.int (Int64.ofNat n)) := constant
  have notOther : ¬(!(Expr.int ⟨span, ty⟩ n .none).ty.isInteger) = true := by
    show ¬(!ty.isInteger) = true
    rw [isInteger]
    nofun
  unfold arrayLength?
  rw [if_neg notOther, run_bind_of (rfl : (MonadState.get : Analyze Analysis).run a = (a, a)), folded]
  dsimp only
  rw [if_pos nonnegative, value]
  rfl

theorem run_suffixes {ss : List Syntax.Suffix} {dims : List (Option Nat)} (lengths : List.Forall₂ Syntax.IsLength ss dims)
    (small : ∀ k, some k ∈ dims → k < UInt64.size / 2) (base : Ty) (span : Span) :
    (suffixedType base span ss).run a = (some (dims.foldr (fun n t => .array t n) base), a) := by
  induction lengths with
  | nil => rfl
  | @cons s n ss dims first others ih =>
    have inner := ih fun k mem => small k (List.mem_cons_of_mem _ mem)
    rw [suffixedType, run_bind_of inner]
    cases n with
    | none =>
      obtain rfl : s = .unsized := first
      rfl
    | some n =>
      obtain ⟨span', rfl⟩ : ∃ span, s = .sized (.int span n .none) := first
      have length := run_length (a := a) (small n List.mem_cons_self) span'
      exact run_bind_of length fun n => pure (some (Ty.array (dims.foldr (fun n t => .array t n) base) n))

end Analyze

/-- A base type, stars and lengths stand for a flat type. -/
theorem Ty.Flat.run_namedType {a : Analysis} {ty : Ty} (flat : ty.Flat) (spelled : ty.Spelled) {spec : Syntax.DeclSpec}
    (base : (Analyze.baseType spec).run a = (ty.base, a)) {ss : List Syntax.Suffix}
    (lengths : List.Forall₂ Syntax.IsLength ss ty.dims) (span : Span) :
    (Analyze.namedType spec (.mk none ty.stars ss span)).run a = (ty, a) := by
  have suffixed := Analyze.run_suffixes (a := a) lengths spelled.dims (Analyze.pointers ty.stars ty.base) span
  rw [flat.rebuilt] at suffixed
  unfold Analyze.namedType
  rw [Analyze.run_bind_of base, Analyze.declaredType, Analyze.run_bind_of suffixed]
  rfl

/-- In the state `a` the specifiers and the declarator stand for the type. -/
def Analyze.Denotes (a : Analysis) (ty : Ty) (spec : Syntax.DeclSpec) (d : Syntax.Declarator) : Prop :=
  (Analyze.namedType spec d).run a = (ty, a)

namespace Ty

variable {T : List String} {a : Analysis} {ty : Ty}

theorem Nameable.namesBase (h : ty.Nameable T a) (sound : a.Sound) (spelled : ty.Spelled) :
    ∃ b, NamesBase T ((Phrase.words (a.types.baseWords ty.base)).kinds) b ∧
      ∀ spec : Syntax.DeclSpec, spec.base = b → (Analyze.baseType spec).run a = (ty.base, a) := by
  obtain ⟨name, words, word, known, found⟩ | ⟨k, ks, keywords, words⟩ := h.resolves.words sound spelled.base
  · rw [words]
    have kinds : (Phrase.words [name]).kinds = [.ident name] := congrArg ([·]) (TextPiece.kind_word word false)
    rw [kinds]
    refine ⟨.named name, .name known, fun spec same => ?_⟩
    unfold Analyze.baseType
    rw [same]
    dsimp only
    rw [Analyze.run_bind_of (rfl : (MonadState.get : Analyze Analysis).run a = (a, a)), found]
    rfl
  · obtain ⟨typed, b, means, names⟩ := keywords_mean keywords
    have kinds : (Phrase.words ((k :: ks).map Keyword.spelling)).kinds = (k :: ks).map .keyword := by
      have others (ks : List Keyword) :
          ((ks.map Keyword.spelling).map fun w => (⟨true, .word w⟩ : TextPiece)).map TextPiece.kind =
          ks.map .keyword := by
        rw [List.map_map, List.map_map]
        exact List.map_congr_left fun k _ => kind_spelling k true
      exact (congrArg (· :: _) (kind_spelling k false)).trans (congrArg _ (others ks))
    rw [words, kinds]
    exact ⟨b, .words typed means, fun spec same => names spec a same⟩

theorem Nameable.namesType (h : ty.Nameable T a) (sound : a.Sound) (spelled : ty.Spelled) :
    NamesType T (a.types.phrase ty).kinds (Analyze.Denotes a ty) := by
  obtain ⟨b, base, names⟩ := h.namesBase sound spelled
  have kinds : (a.types.phrase ty).kinds = (Phrase.words (a.types.baseWords ty.base)).kinds ++
      (List.replicate ty.stars (TokenKind.punct .star) ++ ty.dims.flatMap Syntax.lengthTokens) := by
    have space (ps : List TextPiece) : (TextPiece.space ps).map TextPiece.kind = ps.map TextPiece.kind := by cases ps <;> rfl
    unfold TypeTable.phrase
    rw [Phrase.kinds_append, space, kinds_declarator]
  rw [kinds]
  refine ⟨?_, fun rest depth enough => ?_⟩
  · obtain ⟨k, ls, some, starts⟩ := base.startsType
    exact ⟨k, _, by rw [some]; rfl, starts⟩
  · refine (Syntax.typeName_takes base ty.stars ty.dims rest enough).mono fun r holds => ?_
    obtain ⟨same, ss, span, declarator, lengths⟩ := holds
    show (Analyze.namedType r.1 r.2).run a = _
    rw [declarator]
    exact h.flat.run_namedType spelled (names r.1 same) lengths span

end Ty

/-! ## Phrases -/

namespace Typed

variable {T : List String} {a : Analysis}

theorem binaryOp?_punct (op : BinaryOp) : Syntax.binaryOp? op.punct = some op := by cases op <;> rfl

theorem assignOp?_assignPunct {op : Option BinaryOp} (arithmetic : ∀ o, op = some o → o.isArithmetic) :
    Syntax.assignOp? (assignPunct op) = some op := by
  cases op with
  | none => rfl
  | some o => cases o <;> first | rfl | exact nomatch arithmetic _ rfl

/-- An operand may stand in front of a suffix. -/
theorem suffix_of_operand {ks : List TokenKind} {Q : Syntax.Expr → Prop} (h : Parses T Prec.primary ks Q) :
    Parses T Prec.suffix ks Q :=
  h.mono (by decide)

/-- A phrase is read where its precedence is enough, and anywhere in parentheses. -/
theorem bracket_parses {x : Phrase × Nat} {t : Expr} {N : Ty → Syntax.DeclSpec → Syntax.Declarator → Prop}
    (h : Parses T x.2 x.1.kinds (t.Of N)) (min : Nat) (low : min ≤ Prec.primary) :
    Parses T min (bracket min x).kinds (t.Of N) := by
  unfold bracket
  split
  · rw [Phrase.kinds_parens]
    exact ((h.mono (Nat.zero_le _)).ofParens fun s e he => he.withSpan s).mono low
  · exact h.mono (Nat.le_of_not_lt ‹_›)

theorem OfAll.of_forall₂ {N : Ty → Syntax.DeclSpec → Syntax.Declarator → Prop} {ts : List Expr} {es : List Syntax.Expr}
    (h : List.Forall₂ (fun p e => p e) (ts.map fun t => t.Of N) es) : OfAll N ts es := by
  induction ts generalizing es with
  | nil =>
    cases h
    rfl
  | cons t ts ih =>
    cases h with
    | cons he hes => exact ⟨_, _, rfl, he, ih hes⟩

mutual

/-- The rule for the precedence of a phrase reads a tree that the typed one can be made of. -/
theorem Expr.phrase_parses (sound : a.Sound) : ∀ {t : Expr}, t.Accepted a → t.Readable T a →
    Parses T (t.phrase a.types).2 (t.phrase a.types).1.kinds (t.Of (Analyze.Denotes a))
  | .int i v s, _, _ => .ofAtom trivial fun span => ⟨_, rfl, span, rfl⟩
  | .float .., _, readable => readable.elim
  | .char i c, _, _ => .ofAtom trivial fun span => ⟨_, rfl, span, rfl⟩
  | .str i text, _, _ => .ofAtom trivial fun span => ⟨_, rfl, span, rfl⟩
  | .bool i b, _, _ => by
    cases b with
    | false =>
      have kinds : (Phrase.one (.word (toString false))).kinds = [.keyword .false] :=
        congrArg ([·]) (kind_spelling .false false)
      show Parses T 15 (Phrase.one (.word (toString false))).kinds _
      rw [kinds]
      exact .ofAtom (.inr (.inr (.inl rfl))) fun span => ⟨_, rfl, span, rfl⟩
    | true =>
      have kinds : (Phrase.one (.word (toString true))).kinds = [.keyword .true] :=
        congrArg ([·]) (kind_spelling .true false)
      show Parses T 15 (Phrase.one (.word (toString true))).kinds _
      rw [kinds]
      exact .ofAtom (.inr (.inl rfl)) fun span => ⟨_, rfl, span, rfl⟩
  | .null i, _, _ => by
    have kinds : (Phrase.one (.word "nullptr")).kinds = [.keyword .nullptr] :=
      congrArg ([·]) (kind_spelling .nullptr false)
    show Parses T 15 (Phrase.one (.word "nullptr")).kinds _
    rw [kinds]
    exact .ofAtom (.inr (.inr (.inr rfl))) fun span => ⟨_, rfl, span, rfl⟩
  | .ident i name binding, accepted, free => by
    have kinds : (Phrase.one (.word name)).kinds = [.ident name] := congrArg ([·]) (TextPiece.kind_word accepted.1 false)
    show Parses T 15 (Phrase.one (.word name)).kinds _
    rw [kinds]
    exact .ofAtom free fun span => ⟨_, rfl, span, rfl⟩
  | .unary i op x, accepted, readable => by
    have operand := Expr.phrase_parses sound accepted.2 readable
    have suffixed := bracket_parses operand Prec.suffix (by decide)
    have led := bracket_parses operand Prec.unary (by decide)
    have node (s : Span) (y : Syntax.Expr) (hy : x.Of (Analyze.Denotes a) y) :
        Expr.Of (Analyze.Denotes a) (.unary i op x) (.unary s op y) := ⟨s, y, rfl, hy⟩
    cases op with
    | postInc =>
      rw [Expr.phrase, Phrase.kinds_append]
      exact suffix_of_operand (suffixed.ofPostInc node)
    | postDec =>
      rw [Expr.phrase, Phrase.kinds_append]
      exact suffix_of_operand (suffixed.ofPostDec node)
    | _ => exact .ofLeading rfl led node
  | .binary i op x y, accepted, readable => by
    have high := Syntax.precedence_le_twelve op
    have primary : Prec.primary = 15 := rfl
    have left := bracket_parses (Expr.phrase_parses sound accepted.2.1 readable.1) (op.precedence) (by omega)
    have right := bracket_parses (Expr.phrase_parses sound accepted.2.2 readable.2) (op.precedence + 1) (by omega)
    rw [Expr.phrase, Phrase.kinds_append]
    exact .ofBinary (binaryOp?_punct op) left right fun s x' y' hx hy => ⟨s, x', y', rfl, hx, hy⟩
  | .assign i op x y, accepted, readable => by
    have left := bracket_parses (Expr.phrase_parses sound accepted.2.2.1 readable.1) Prec.unary (by decide)
    have right := bracket_parses (Expr.phrase_parses sound accepted.2.2.2 readable.2) Prec.assign (by decide)
    rw [Expr.phrase, Phrase.kinds_append]
    exact .ofAssign (assignOp?_assignPunct accepted.1) (left.mono (by decide)) right
      fun s x' y' hx hy => ⟨s, x', y', rfl, hx, hy⟩
  | .conditional i c x y, accepted, readable => by
    have test := bracket_parses (Expr.phrase_parses sound accepted.2.1 readable.1) (Prec.conditional + 1) (by decide)
    have yes := Expr.phrase_parses sound accepted.2.2.1 readable.2.1
    have no := bracket_parses (Expr.phrase_parses sound accepted.2.2.2 readable.2.2) Prec.conditional (by decide)
    rw [Expr.phrase, Phrase.kinds_append, Phrase.kinds_append, List.append_assoc]
    exact .ofConditional test (yes.mono (Nat.zero_le _)) no fun s c' x' y' hc hx hy => ⟨s, c', x', y', rfl, hc, hx, hy⟩
  | .call i callee target args, accepted, readable => by
    have called : Parses T 14 (Phrase.one (.word callee)).kinds fun e => ∃ s, e = .ident s callee := by
      have kinds : (Phrase.one (.word callee)).kinds = [.ident callee] := congrArg ([·]) (TextPiece.kind_word accepted.1 false)
      have opens : Syntax.Opens T (.ident callee) := readable.1
      rw [kinds]
      exact suffix_of_operand (Parses.ofAtom opens fun span => ⟨_, rfl, span, rfl⟩)
    have given := argPhrases_parses sound accepted.2.1 readable.2
    rw [Expr.phrase, Phrase.kinds_append, List.map_cons, List.map_append, Phrase.kinds_commaList]
    refine suffix_of_operand (called.ofCall given fun s e es he hes => ?_)
    obtain ⟨s', rfl⟩ := he
    exact ⟨s, s', es, rfl, .of_forall₂ hes⟩
  | .index i x y, accepted, readable => by
    have base := bracket_parses (Expr.phrase_parses sound accepted.2.1 readable.1) Prec.suffix (by decide)
    have index := Expr.phrase_parses sound accepted.2.2 readable.2
    rw [Expr.phrase, Phrase.kinds_append, List.map_cons, List.map_append]
    exact suffix_of_operand (base.ofIndex (index.mono (Nat.zero_le _)) fun s x' y' hx hy => ⟨s, x', y', rfl, hx, hy⟩)
  | .member i x field arrow, accepted, readable => by
    have base := bracket_parses (Expr.phrase_parses sound accepted.2.2 readable) Prec.suffix (by decide)
    rw [Expr.phrase, Phrase.kinds_append, List.map_cons, List.map_singleton, TextPiece.kind_word accepted.1]
    exact suffix_of_operand (base.ofMember arrow fun s x' hx => ⟨s, x', rfl, hx⟩)
  | .cast i target x, accepted, readable => by
    have name := readable.1.namesType sound accepted.1
    have operand := bracket_parses (Expr.phrase_parses sound accepted.2.2 readable.2) Prec.unary (by decide)
    rw [Expr.phrase, Phrase.kinds_append, Phrase.kinds_parens, List.cons_append, List.append_assoc]
    exact .ofCast name operand fun s spec d x' names hx => ⟨s, spec, d, x', rfl, names, hx⟩
  | .sizeofType i target, accepted, readable => by
    have name := readable.namesType sound accepted.1
    have word : (Phrase.one (.word "sizeof")).kinds = [.keyword .sizeof] :=
      congrArg ([·]) (kind_spelling .sizeof false)
    rw [Expr.phrase, Phrase.kinds_append, word, List.map_cons, List.map_append]
    exact .ofSizeofType name fun s spec d names => ⟨s, spec, d, rfl, names⟩
  | .sizeofExpr i x, accepted, readable => by
    have operand := Expr.phrase_parses sound accepted.2 readable
    have word : (Phrase.one (.word "sizeof")).kinds = [.keyword .sizeof] :=
      congrArg ([·]) (kind_spelling .sizeof false)
    rw [Expr.phrase, Phrase.kinds_append, word, List.map_cons, List.map_append]
    exact .ofSizeof (operand.mono (Nat.zero_le _)) (fun s e he => he.withSpan s) fun s x' hx => ⟨s, x', rfl, hx⟩
  | .comma i x y, accepted, readable => by
    have left := Expr.phrase_parses sound accepted.2.1 readable.1
    have right := bracket_parses (Expr.phrase_parses sound accepted.2.2 readable.2) Prec.assign (by decide)
    rw [Expr.phrase, Phrase.kinds_append]
    exact .ofComma (left.mono (Nat.zero_le _)) right fun s x' y' hx hy => ⟨s, x', y', rfl, hx, hy⟩
  | .invalid _, accepted, _ => accepted.elim

theorem argPhrases_parses (sound : a.Sound) : ∀ {ts : List Expr}, AcceptedAll a ts → ReadableAll T a ts →
    List.Forall₂ (Parses T 1) ((argPhrases a.types ts).map Phrase.kinds) (ts.map fun t => t.Of (Analyze.Denotes a))
  | [], _, _ => .nil
  | _ :: _, accepted, readable =>
    .cons (bracket_parses (Expr.phrase_parses sound accepted.1 readable.1) _ (by decide))
      (argPhrases_parses sound accepted.2 readable.2)

end

end Typed


/-! ## Printing, reading and parsing -/

theorem Lexeme.kind_isEof (l : Lexeme) : l.kind.isEof = false := by
  cases l with
  | word w => cases found : Keyword.ofWord? w <;> simp [kind, found, TokenKind.isEof]
  | _ => rfl

/-- In front of the end mark a cursor stands at the tokens of a phrase. -/
theorem Phrase.cursor_at {p : Phrase} {tokens : Array Token} (kinds : tokens.toList.map (·.kind) = p.kinds ++ [.eof])
    (T : List String) (nextId : Nat) : (Syntax.Cursor.ofTokens tokens.toList T nextId).At T p.kinds := by
  have noEof : ∀ k ∈ p.kinds, (!k.isEof) = true := by
    intro k mem
    obtain ⟨q, -, rfl⟩ := List.mem_map.mp mem
    show (!q.lexeme.kind.isEof) = true
    rw [q.lexeme.kind_isEof]
    rfl
  refine ⟨?_, rfl⟩
  show (tokens.toList.filter ((fun k => !k.isEof) ∘ Token.kind)).map Token.kind = _
  rw [← List.filter_map, kinds, List.filter_append, List.filter_eq_self.mpr noEof]
  exact List.append_nil _

/-- A printed expression is read back as the tree that was analysed: nothing is left over, and the trees are equal up
to places and to type names that stand for the same type, in the tree that was analysed on the way from `a` to `b`, in
the one that is read back in the state `b`. -/
theorem printed_parses_back {a b : Analysis} {T : List String} {c c₁ : Syntax.Cursor} {depth : Nat} {e : Syntax.Expr}
    {t : Typed.Expr} (sound : a.Sound) (written : c.Written) (read : Syntax.expr depth c = .ok (e, c₁))
    (analyzed : (Analyze.expr e).run a = (t, b)) (correct : b.errors = #[]) (readable : t.Readable T b)
    (file base nextId : Nat) :
    ∃ tokens, tokenize (Typed.Printer.expr { types := b.types } t) file base = .ok tokens ∧
      ∃ e' c', Syntax.expr (Syntax.Cursor.ofTokens tokens.toList T nextId).depthFor
          (Syntax.Cursor.ofTokens tokens.toList T nextId) = .ok (e', c') ∧ c'.rest = [] ∧
        e.Alike (fun spec d spec' d' => ∃ ty, Named a b ty spec d ∧ Analyze.Denotes b ty spec' d') e' := by
  have meets := (Analyze.MeetsAt.expr (P := True) (a := a)
    ((Syntax.rules depth).expr c e c₁ written read).2.2).meets trivial sound
  have made : ((Analyze.expr e).run a).1.Accepted b → Analyze.MadeOf a ((Analyze.expr e).run a).2 ((Analyze.expr e).run a).1 e :=
    Analyze.madeOf_expr
  rw [analyzed] at meets made
  obtain ⟨sound', accepted⟩ := meets correct
  have phrase := Typed.Expr.phrase_sound sound' accepted readable
  obtain ⟨tokens, lexed, kinds⟩ := tokenize_pieces phrase.block.run.legible phrase.block.run.joins
    (Typed.Expr.sameText accepted readable).text.symm file base
  have standing := Phrase.cursor_at kinds T nextId
  refine ⟨tokens, lexed, ?_⟩
  generalize Syntax.Cursor.ofTokens tokens.toList T nextId = start at standing
  have length : start.rest.length = (t.phrase b.types).1.kinds.length := by
    rw [← standing.kinds, List.length_map]
  have enough : 1 + 8 * (t.phrase b.types).1.kinds.length + 7 ≤ start.depthFor := by
    unfold Syntax.Cursor.depthFor
    omega
  have takes := (Typed.Expr.phrase_parses sound' accepted readable).expr [] [] (t.Of (Analyze.Denotes b)) 1 start.depthFor
    (Nat.zero_le 0) enough fun d' e' positive holds => Syntax.commaTail_stops holds rfl positive
  rw [List.append_nil] at takes
  obtain ⟨e', c', parsed, finished, again⟩ := takes start standing
  exact ⟨e', c', parsed, List.map_eq_nil_iff.mp finished.kinds, (made accepted).alike again⟩

theorem printed_pair_parses_back :
    ∃ (u : Syntax.TopLevel) (u' : Typed.TopLevel) (given tokens : Array Token) (e e' : Syntax.Expr)
      (c₁ c' : Syntax.Cursor) (t : Typed.Expr) (b : Analysis),
      Syntax.groupOf? "struct Pair { int left; int right; } x;" = some u ∧ (({} : Analysis).analyze u).1 = .ok u' ∧
      tokenize "-(-x.left) + sizeof(struct Pair *[2]) * (x.right = (char)'a', 3)" 0 0 = .ok given ∧
      Syntax.expr 200 (.ofTokens given.toList ["Pair"] 0) = .ok (e, c₁) ∧
      (Analyze.expr e).run (({} : Analysis).analyze u).2 = (t, b) ∧ b.errors = #[] ∧ t.Readable ["Pair"] b ∧
      Typed.Printer.expr { types := b.types } t = "- -x.left + sizeof(Pair *[2]) * (x.right = (char)'a', 3)" ∧
      tokenize (Typed.Printer.expr { types := b.types } t) 0 0 = .ok tokens ∧
      Syntax.expr (Syntax.Cursor.ofTokens tokens.toList ["Pair"] 0).depthFor (.ofTokens tokens.toList ["Pair"] 0) =
        .ok (e', c') ∧ c'.rest = [] ∧
      e.Alike (fun spec d spec' d' => ∃ ty, Named (({} : Analysis).analyze u).2 b ty spec d ∧
        Analyze.Denotes b ty spec' d') e' := by
  have outcome : (do
      let u ← Syntax.groupOf? "struct Pair { int left; int right; } x;"
      let u' ← (({} : Analysis).analyze u).1.toOption
      let given ← (tokenize "-(-x.left) + sizeof(struct Pair *[2]) * (x.right = (char)'a', 3)" 0 0).toOption
      let r ← (Syntax.expr 200 (.ofTokens given.toList ["Pair"] 0)).toOption
      let analyzed ← some ((Analyze.expr r.1).run (({} : Analysis).analyze u).2)
      return (Typed.Printer.expr { types := analyzed.2.types } analyzed.1,
        analyzed.2.errors.isEmpty && decide (analyzed.1.Readable ["Pair"] analyzed.2)) : Option _) =
      some ("- -x.left + sizeof(Pair *[2]) * (x.right = (char)'a', 3)", true) := by
    decide +kernel
  simp only [Option.bind_eq_bind, Option.bind_eq_some_iff] at outcome
  obtain ⟨u, first, u', accepted, given, lexed, ⟨e, c₁⟩, read, ⟨t, b⟩, analyzed, outcome⟩ := outcome
  obtain ⟨text, checks⟩ := Prod.mk.inj (Option.some.inj outcome)
  rw [Bool.and_eq_true, decide_eq_true_eq] at checks
  have correct : b.errors = #[] := Array.isEmpty_iff.mp checks.1
  have accepted := Syntax.toOption_eq_some accepted
  have lexed := Syntax.toOption_eq_some lexed
  have read := Syntax.toOption_eq_some read
  have analyzed := Option.some.inj analyzed
  have sound := (Analysis.Reached.start.accepted (Syntax.groupOf?_written first) accepted).sound
  have written : (Syntax.Cursor.ofTokens given.toList ["Pair"] 0).Written := fun token mem =>
    tokenize_written lexed token (Array.mem_toList_iff.mp (List.mem_filter.mp mem).1)
  obtain ⟨tokens, again, e', c', parsed, finished, alike⟩ :=
    printed_parses_back sound written read analyzed correct checks.2 0 0 0
  exact ⟨u, u', given, tokens, e, e', c₁, c', t, b, first, accepted, lexed, read, analyzed, correct, checks.2, text,
    again, parsed, finished, alike⟩

end IncrementalC
