import IncrementalC.Proofs.Typed.ParsedBack

/-!
# Printed declarations are read back

`TypeTable.declare` writes a type around a name, from the inside out. The parser reads the stars, the name and the
lengths from left to right, and the analysis takes the lengths from the last one to the first. On flat types the two
undo each other (`declared_parses_back`).
-/
namespace IncrementalC
set_option autoImplicit false
open Syntax (NamesBase Takes)

/-! ## The text -/

namespace TextPiece

theorem text_space {p : TextPiece} (ps : List TextPiece) (tight : p.spaced = false) :
    text (space (p :: ps)) = ' ' :: text (p :: ps) := by
  obtain ⟨s, lexeme⟩ := p
  obtain rfl : s = false := tight
  rfl

theorem kinds_space (ps : List TextPiece) : (space ps).map kind = ps.map kind := by
  cases ps <;> rfl

end TextPiece

/-- A semicolon may stand behind a phrase. -/
theorem Lexeme.Ends.before_semi {l : Lexeme} (h : l.Ends) : l.before ';' := by
  cases l with
  | word w => exact (by decide +kernel : !Text.isWordChar ';')
  | int v s => exact (by decide : Lexer.endsNumber ';')
  | char | str => rfl
  | punct p => rcases h with rfl | rfl | rfl | rfl | rfl <;> decide

/-- The stars of the type, a name, and the lengths. -/
def Ty.naming (ty : Ty) (name : String) : List TextPiece :=
  List.replicate ty.stars (.punct .star) ++ ⟨false, .word name⟩ :: ty.dims.flatMap TextPiece.length

theorem Ty.naming_cases (ty : Ty) (name : String) :
    ∃ p ps, ty.naming name = p :: ps ∧ p.spaced = false ∧ p.lexeme.isStr = false := by
  unfold Ty.naming
  cases ty.stars with
  | zero => exact ⟨_, _, rfl, rfl, rfl⟩
  | succ n => exact ⟨_, _, rfl, rfl, rfl⟩

theorem Ty.naming_block {ty : Ty} (small : ∀ k, some k ∈ ty.dims → k < UInt64.size / 2) {name : String}
    (isName : IsName name.toList) : TextPiece.Block (ty.naming name) := by
  have named : TextPiece.Block (⟨false, .word name⟩ :: ty.dims.flatMap TextPiece.length) := by
    have first : TextPiece.Block [⟨false, .word name⟩] := .one isName trivial
    refine first.append (lengths_block small) fun q head p _ ends => ?_
    rw [head_lengths q head]
    exact .ofFollower ends rfl
  refine (stars_block ty.stars).append named fun q head p last _ => ?_
  obtain rfl : ⟨false, .word name⟩ = q := Option.some.inj head
  have star : p.lexeme = .punct .star := by
    have among := List.mem_of_getLast? last
    rw [List.map_replicate] at among
    exact List.eq_of_mem_replicate among
  refine ⟨fun c first => ?_, fun strings => nomatch strings.2⟩
  obtain ⟨d, ds, text, letter, -⟩ := isName
  have chars : (⟨false, .word name⟩ : TextPiece).chars = d :: ds := text
  rw [chars] at first
  obtain rfl : d = c := Option.some.inj first
  rw [star]
  show (d != '=') = true
  rw [bne_iff_ne]
  rintro rfl
  exact absurd letter (by decide)

/-- The declaration of a name, token by token, without the semicolon. -/
def TypeTable.declaration (t : TypeTable) (ty : Ty) (name : String) : Phrase :=
  (Phrase.words (t.baseWords ty.base)).append (TextPiece.space (ty.naming name))

theorem Ty.text_naming (ty : Ty) (name : String) : TextPiece.text (ty.naming name) =
    List.replicate ty.stars '*' ++ (name.toList ++ TextPiece.text (ty.dims.flatMap TextPiece.length)) := by
  unfold Ty.naming
  rw [TextPiece.text_append, text_stars]
  rfl

theorem TypeTable.text_declaration {t : TypeTable} {ty : Ty} (flat : ty.Flat) (spelled : ty.Spelled)
    (known : ∀ id, ty.base = .record id → t.record? id ≠ none) {name : String} (isName : IsName name.toList) :
    (t.declaration ty name).text = (t.declare ty name).toList := by
  have notEmpty : TextPiece.text (ty.naming name) ≠ [] := by
    obtain ⟨c, cs, text, -⟩ := isName
    rw [ty.text_naming, text]
    simp
  obtain ⟨p, ps, pieces, tight, -⟩ := ty.naming_cases name
  rw [declaration, Phrase.text_append, text_baseWords spelled.base known, declare_flat flat, ← ty.text_naming, behind,
    if_neg notEmpty, pieces, TextPiece.text_space ps tight]

theorem Ty.Nameable.declaration_block {T : List String} {a : Analysis} {ty : Ty} (h : ty.Nameable T a) (sound : a.Sound)
    (spelled : ty.Spelled) {name : String} (isName : IsName name.toList) :
    TextPiece.Block (a.types.declaration ty name).pieces := by
  refine ((h.words_sound sound spelled).append (ty.naming_block spelled.dims isName).space fun q head r _ _ => ?_).block
  obtain ⟨p, ps, pieces, -, notStr⟩ := ty.naming_cases name
  rw [pieces] at head
  obtain rfl : ⟨true, p.lexeme⟩ = q := Option.some.inj head
  exact .ofSpaced rfl (.inr notStr)

theorem Ty.kinds_naming (ty : Ty) {name : String} (word : IsWord name) : (ty.naming name).map TextPiece.kind =
    List.replicate ty.stars (TokenKind.punct .star) ++ .ident name :: ty.dims.flatMap Syntax.lengthTokens := by
  unfold naming
  rw [List.map_append, kinds_stars, List.map_cons, TextPiece.kind_word word, kinds_lengths]

/-- The lexer reads a declaration with its semicolon token by token. -/
theorem Ty.Nameable.declaration_read {T : List String} {a : Analysis} {ty : Ty} (h : ty.Nameable T a) (sound : a.Sound)
    (spelled : ty.Spelled) {name : String} (word : IsWord name) (file base : Nat) :
    ∃ tokens, tokenize (a.types.declare ty name ++ ";") file base = .ok tokens ∧
      tokens.toList.map (·.kind) = ((a.types.declaration ty name).append [.punct .semi]).kinds ++ [.eof] := by
  have block := h.declaration_block sound spelled word.name
  have legible : ∀ p ∈ (a.types.declaration ty name).pieces ++ [TextPiece.punct .semi], p.lexeme.Legible := by
    refine List.forall_mem_append.mpr ⟨block.run.legible, List.forall_mem_singleton.mpr trivial⟩
  have joins : ((a.types.declaration ty name).pieces ++ [TextPiece.punct .semi]).IsChain TextPiece.Joins := by
    refine List.isChain_append.mpr ⟨block.run.joins, .singleton _, fun p last q head => ?_⟩
    obtain rfl : TextPiece.punct .semi = q := Option.some.inj head
    refine ⟨fun c first => ?_, fun strings => nomatch strings.2⟩
    obtain rfl : ';' = c := Option.some.inj first
    refine (block.closed p.lexeme ?_).before_semi
    rw [List.getLast?_map, last]
    rfl
  have text : (a.types.declare ty name ++ ";").toList =
      ((a.types.declaration ty name).pieces ++ [TextPiece.punct .semi]).flatMap TextPiece.chars := by
    rw [String.toList_append, ← TypeTable.text_declaration h.flat spelled h.known word.name, List.flatMap_append]
    rfl
  exact tokenize_pieces legible joins text file base

theorem TypeTable.kinds_declaration (t : TypeTable) (ty : Ty) {name : String} (word : IsWord name) :
    ((t.declaration ty name).append [.punct .semi]).kinds = (Phrase.words (t.baseWords ty.base)).kinds ++
      (List.replicate ty.stars (TokenKind.punct .star) ++
        .ident name :: (ty.dims.flatMap Syntax.lengthTokens ++ [.punct .semi])) := by
  rw [Phrase.kinds_append, declaration, Phrase.kinds_append, TextPiece.kinds_space, ty.kinds_naming word]
  simp [TextPiece.kind, Lexeme.kind, TextPiece.punct]

/-! ## The declaration group -/

namespace Syntax

variable {T : List String} {ks rest : List TokenKind} {b : BaseType} {name : String} {stars : Nat} {dims : List (Option Nat)}

/-- The group declares one variable, without an initial value. -/
def DeclaresOne (g : DeclGroup) (b : BaseType) (name : String) (stars : Nat) (dims : List (Option Nat)) : Prop :=
  g.spec.base = b ∧ ∃ suffixes span span', g.decls = [⟨.var name (.mk (some name) stars suffixes span) none, span'⟩] ∧
    List.Forall₂ IsLength suffixes dims

theorem isFunction_of_lengths {ss : List Suffix} (lengths : List.Forall₂ IsLength ss dims) (stars : Nat) (span : Span) :
    (Declarator.mk (some name) stars ss span).isFunction = false := by
  cases lengths with
  | nil => rfl
  | @cons s n ss dims first _ =>
    cases n with
    | none =>
      obtain rfl : s = .unsized := first
      rfl
    | some n =>
      obtain ⟨span', rfl⟩ : ∃ span, s = .sized (.int span n .none) := first
      rfl

/-- In front of a semicolon stands no initial value. -/
theorem initialValue?_none (depth : Nat) :
    Takes T (initialValue? depth) (.punct .semi :: rest) (.punct .semi :: rest) (· = none) := by
  refine .bind (.eat_other rfl) fun ate same => ?_
  subst same
  refine .bind (.isAtPunct .lparen) fun paren same => ?_
  subst same
  exact .pure rfl

theorem declarators_takes (atTop : Bool) (start : Span) {spec : DeclSpec} (plain : spec.storage = .none) {depth : Nat}
    (enough : 8 * (dims.flatMap lengthTokens).length + 3 ≤ depth) :
    Takes T (declarators atTop start spec depth true [])
      (List.replicate stars (TokenKind.punct .star) ++ .ident name :: (dims.flatMap lengthTokens ++ .punct .semi :: rest))
      rest fun r => ∃ g, r = .group g ∧ DeclaresOne g spec.base name stars dims := by
  obtain ⟨m, rfl⟩ : ∃ m, depth = m + 1 := ⟨depth - 1, by omega⟩
  refine .bind (declarator_takes stars dims (.inr rfl) false (by omega)) fun d holds => ?_
  obtain ⟨ss, span, rfl, lengths⟩ := holds
  have object : (Declarator.mk (some name) stars ss span).isFunction = false := isFunction_of_lengths lengths stars span
  refine .bind (.isAtPunct .lbrace) fun body _ => ?_
  dsimp only
  rw [object, Bool.false_and, if_neg (by simp)]
  have kind : Takes T (plainDecl m spec name (.mk (some name) stars ss span)) (.punct .semi :: rest) (.punct .semi :: rest)
      (· = .var name (.mk (some name) stars ss span) none) := by
    have notTypedef : spec.storage ≠ .typedef := by
      rw [plain]
      exact Storage.noConfusion
    unfold plainDecl
    rw [if_neg notTypedef, object, if_neg (by simp)]
    refine .bind (initialValue?_none m) fun init same => ?_
    subst same
    exact .pure rfl
  refine .bind kind fun k same => .bind .prev fun _ _ => .bind (.eat_other rfl) fun ate same' => ?_
  subst same same'
  refine .bind .expect fun _ _ => .bind .prev fun _ _ => .pure ⟨_, rfl, rfl, ss, span, _, rfl, lengths⟩

/-- A base, stars, a name that is no type, and lengths up to a semicolon. -/
theorem groupOrHead_takes (h : NamesBase T ks b) (free : name ∉ T) (atTop : Bool) {depth : Nat}
    (enough : 8 * (dims.flatMap lengthTokens).length + ks.length + 3 ≤ depth) :
    Takes T (groupOrHead atTop depth) (ks ++ (List.replicate stars (TokenKind.punct .star) ++
        .ident name :: (dims.flatMap lengthTokens ++ .punct .semi :: rest))) rest
      fun r => ∃ g, r = .group g ∧ DeclaresOne g b name stars dims := by
  have ends : EndsSpecifiers T (next (List.replicate stars (TokenKind.punct .star) ++
      .ident name :: (dims.flatMap lengthTokens ++ .punct .semi :: rest))) := by
    cases stars with
    | zero => exact free
    | succ n => trivial
  have notSemi : (next (List.replicate stars (TokenKind.punct .star) ++
      .ident name :: (dims.flatMap lengthTokens ++ .punct .semi :: rest))).isPunct .semi = false := by
    cases stars <;> rfl
  refine .bind .here fun start _ => .bind (declSpec_takes h ends (by omega)) fun r holds => ?_
  obtain ⟨spec, definition⟩ := r
  obtain ⟨rfl, plain, none⟩ : spec.base = b ∧ spec.storage = .none ∧ definition = .none := holds
  subst none
  refine .bind (.eat_other notSemi) fun ate same => ?_
  subst same
  exact declarators_takes atTop start plain (by omega)

end Syntax

/-- A declaration of `x` with a flat type, as it is printed, is read as a group that declares `x` only, and its
specifiers and declarator stand for that type. A record or an enumeration has to be what its name stands for, both for
the parser, which knows the declared type names, and for the analysis. -/
theorem declared_parses_back {a : Analysis} {ty : Ty} {x : String} (sound : a.Sound) (spelled : ty.Spelled)
    (nameable : ty.Nameable a.names.typeNames a) (word : IsWord x) (free : x ∉ a.names.typeNames) (atTop : Bool)
    (file base nextId : Nat) :
    ∃ tokens, tokenize (a.types.declare ty x ++ ";") file base = .ok tokens ∧
      ∃ g c' d span, Syntax.groupOrHead atTop (Syntax.Cursor.ofTokens tokens.toList a.names.typeNames nextId).depthFor
          (Syntax.Cursor.ofTokens tokens.toList a.names.typeNames nextId) = .ok (.group g, c') ∧ c'.rest = [] ∧
        g.decls = [⟨.var x d none, span⟩] ∧ d.name = some x ∧
        (do Analyze.declaredType (← Analyze.baseType g.spec) d).run a = (ty, a) := by
  obtain ⟨tokens, lexed, kinds⟩ := nameable.declaration_read sound spelled word file base
  obtain ⟨b, named, means⟩ := nameable.namesBase sound spelled
  have standing := Phrase.cursor_at kinds a.names.typeNames nextId
  rw [a.types.kinds_declaration ty word] at standing
  refine ⟨tokens, lexed, ?_⟩
  generalize Syntax.Cursor.ofTokens tokens.toList a.names.typeNames nextId = start at standing
  have enough : 8 * (ty.dims.flatMap Syntax.lengthTokens).length +
      (Phrase.words (a.types.baseWords ty.base)).kinds.length + 3 ≤ start.depthFor := by
    have length := congrArg List.length standing.kinds
    simp only [List.length_map, List.length_append, List.length_cons] at length
    unfold Syntax.Cursor.depthFor
    omega
  obtain ⟨r, c', parsed, left, g, rfl, base, ss, span, span', decls, lengths⟩ :=
    Syntax.groupOrHead_takes named free atTop enough start standing
  refine ⟨g, c', _, span', parsed, List.map_eq_nil_iff.mp left.kinds, decls, rfl, ?_⟩
  exact nameable.flat.run_namedType spelled (means g.spec base) lengths span

theorem declared_grid_parses_back :
    ∃ (u : Syntax.TopLevel) (u' : Typed.TopLevel) (a : Analysis) (tokens : Array Token) (g : Syntax.DeclGroup)
      (c' : Syntax.Cursor) (d : Syntax.Declarator) (span : Span),
      Syntax.groupOf? "struct Pair { int left; int right; } x;" = some u ∧ ({} : Analysis).analyze u = (.ok u', a) ∧
      a.types.declare (.array (.array (.pointer (.pointer (.record 0))) (some 2)) (some 3)) "grid" = "Pair **grid[3][2]" ∧
      tokenize (a.types.declare (.array (.array (.pointer (.pointer (.record 0))) (some 2)) (some 3)) "grid" ++ ";") 0 0 =
        .ok tokens ∧
      Syntax.groupOrHead true (Syntax.Cursor.ofTokens tokens.toList a.names.typeNames 0).depthFor
        (Syntax.Cursor.ofTokens tokens.toList a.names.typeNames 0) = .ok (.group g, c') ∧ c'.rest = [] ∧
      g.decls = [⟨.var "grid" d none, span⟩] ∧ d.name = some "grid" ∧
      (do Analyze.declaredType (← Analyze.baseType g.spec) d).run a =
        (.array (.array (.pointer (.pointer (.record 0))) (some 2)) (some 3), a) := by
  have outcome : (do
      let u ← Syntax.groupOf? "struct Pair { int left; int right; } x;"
      let _ ← (({} : Analysis).analyze u).1.toOption
      let a ← some (({} : Analysis).analyze u).2
      return (a.types.declare (.array (.array (.pointer (.pointer (.record 0))) (some 2)) (some 3)) "grid",
        decide ((Ty.array (.array (.pointer (.pointer (.record 0))) (some 2)) (some 3)).Nameable a.names.typeNames a) &&
          decide ("grid" ∉ a.names.typeNames)) : Option _) = some ("Pair **grid[3][2]", true) := by
    decide +kernel
  simp only [Option.bind_eq_bind, Option.bind_eq_some_iff] at outcome
  obtain ⟨u, first, u', accepted, a, state, outcome⟩ := outcome
  obtain ⟨text, checks⟩ := Prod.mk.inj (Option.some.inj outcome)
  rw [Bool.and_eq_true, decide_eq_true_eq, decide_eq_true_eq] at checks
  have accepted := Syntax.toOption_eq_some accepted
  have state := Option.some.inj state
  have sound := (Analysis.Reached.start.accepted (Syntax.groupOf?_written first) accepted).sound
  rw [state] at sound
  have spelled : (Ty.array (.array (.pointer (.pointer (.record 0))) (some 2)) (some 3)).Spelled :=
    ⟨⟨trivial, fun k same => by cases same; decide⟩, fun k same => by cases same; decide⟩
  have word : IsWord "grid" := ⟨⟨'g', ['r', 'i', 'd'], rfl, by decide, by decide⟩, by decide⟩
  obtain ⟨tokens, lexed, g, c', d, span, parsed, finished, decls, name, again⟩ :=
    declared_parses_back sound spelled checks.1 word checks.2 true 0 0 0
  exact ⟨u, u', a, tokens, g, c', d, span, first, Prod.ext accepted state, text, lexed, parsed, finished, decls, name, again⟩

end IncrementalC
