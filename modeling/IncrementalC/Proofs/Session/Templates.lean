import IncrementalC.Proofs.Machine.Restored
import IncrementalC.Proofs.Storage.Translated
import IncrementalC.Proofs.Token.Phrases
import IncrementalC.Session.Template

/-!
# Texts of templates

A template is compiled as the body of a function that is made up, and its text begins with the head of that function
(`Evaluator.source_opening`). The module of a text that is accepted has the function (`parseNamed_opening`), all literals
and initializers that it refers to (`parseNamed_closed`), and, if the template stays inside of the function, no other
function than those that are dropped with it (`parseNamed_names`).
-/
namespace IncrementalC
set_option autoImplicit false

/-! ## Functions at the head of a text -/

namespace Syntax

/-- The kinds of the tokens that open a function without parameters and without a result. -/
def opening (name : String) : List TokenKind :=
  [.keyword .void, .ident name, .punct .lparen, .punct .rparen, .punct .lbrace]

variable {name : String}

theorem exists_opening {tokens : List Token} (head : opening name <+: tokens.map (·.kind)) : ∃ s₁ s₂ s₃ s₄ s₅ rest,
    tokens = ⟨.keyword .void, s₁⟩ :: ⟨.ident name, s₂⟩ :: ⟨.punct .lparen, s₃⟩ :: ⟨.punct .rparen, s₄⟩ ::
      ⟨.punct .lbrace, s₅⟩ :: rest := by
  obtain ⟨kinds, same⟩ := head
  simp only [opening, List.cons_append, List.nil_append] at same
  obtain ⟨⟨_, s₁⟩, _, rfl, rfl, rest₁⟩ := List.map_eq_cons_iff.mp same.symm
  obtain ⟨⟨_, s₂⟩, _, rfl, rfl, rest₂⟩ := List.map_eq_cons_iff.mp rest₁
  obtain ⟨⟨_, s₃⟩, _, rfl, rfl, rest₃⟩ := List.map_eq_cons_iff.mp rest₂
  obtain ⟨⟨_, s₄⟩, _, rfl, rfl, rest₄⟩ := List.map_eq_cons_iff.mp rest₃
  obtain ⟨⟨_, s₅⟩, rest, rfl, rfl, -⟩ := List.map_eq_cons_iff.mp rest₄
  exact ⟨s₁, s₂, s₃, s₄, s₅, rest, rfl⟩

theorem groupOrHead_opening {c : Cursor} (head : opening name <+: c.rest.map (·.kind)) (n : Nat) : ∃ start spec d span c',
    groupOrHead true (n + 10) c = .ok (.head start ⟨spec, [⟨.function name d false, span⟩], start⟩, c') := by
  obtain ⟨tokens, stop, prev, nextId, typeNames, openBlocks, unnamed⟩ := c
  obtain ⟨s₁, s₂, s₃, s₄, s₅, rest, rfl⟩ := exists_opening head
  exact ⟨_, _, _, _, _, rfl⟩

theorem skipMarks_opening {c : Cursor} (head : opening name <+: c.rest.map (·.kind)) (n : Nat) :
    c.skipMarks (n + 1) = .ok (c, true) := by
  obtain ⟨tokens, stop, prev, nextId, typeNames, openBlocks, unnamed⟩ := c
  obtain ⟨s₁, s₂, s₃, s₄, s₅, rest, rfl⟩ := exists_opening head
  rfl

/-- The group that is read first defines the function. -/
theorem topLevel?_opening {c c' : Cursor} (head : opening name <+: c.rest.map (·.kind)) (outside : c.openBlocks = 0)
    {t? : Option TopLevel} (read : topLevel? c = .ok (t?, c')) : ∃ t, t? = some t ∧ t.Announces (.function name) := by
  obtain ⟨start, spec, d, span, c'', first⟩ := groupOrHead_opening head (40 * c.rest.length + 30)
  have depth : c.depthFor = 40 * c.rest.length + 30 + 10 := by
    unfold Cursor.depthFor
    omega
  rw [← depth] at first
  unfold topLevel? at read
  rw [skipMarks_opening head] at read
  dsimp only at read
  rw [first] at read
  dsimp only at read
  cases body : block c''.depthFor c'' with
  | error e =>
    rw [body] at read
    cases read
  | ok r =>
    rw [body] at read
    dsimp only at read
    rw [if_neg (by rw [outside]; exact Nat.lt_irrefl 0)] at read
    cases read
    exact ⟨_, rfl, rfl, _, rfl, _, _, _, rfl, rfl⟩

theorem opening_ofTokens {tokens : List Token} (head : opening name <+: tokens.map (·.kind)) (typeNames : List String)
    (nextId : Nat) :
    opening name <+: (Cursor.ofTokens tokens typeNames nextId).rest.map (·.kind) := by
  obtain ⟨s₁, s₂, s₃, s₄, s₅, rest, rfl⟩ := exists_opening head
  exact ⟨(rest.filter (!·.kind.isEof)).map (·.kind), rfl⟩

/-- The tokens close at most one brace, and include no file. -/
structure Contained (tokens : List Token) : Prop where
  braces : tokens.countP (·.kind.isPunct .rbrace) ≤ 1
  plain : ∀ t ∈ tokens, ∀ name angled, t.kind ≠ .directive (.include name angled)

end Syntax

namespace Evaluator

variable {name : String}

/-- What stands at the head of the text that a template is compiled as. -/
def headPieces (name : String) : List TextPiece :=
  [⟨false, .word "void"⟩, ⟨true, .word name⟩, .punct .lparen, .punct .rparen, .spacedPunct .lbrace]

theorem kind_headPieces (word : IsWord name) : (headPieces name).map (·.kind) = Syntax.opening name := by
  have void : (Lexeme.word "void").kind = .keyword .void := by decide
  show [(Lexeme.word "void").kind, TextPiece.kind ⟨true, .word name⟩, _, _, _] = _
  rw [void, TextPiece.kind_word word]
  rfl

theorem run_headPieces (word : IsWord name) : TextPiece.Run (headPieces name) := by
  have void : IsName "void".toList := ⟨'v', ['o', 'i', 'd'], by decide, by decide, by decide⟩
  have brace : TextPiece.Run [.spacedPunct .lbrace] := TextPiece.Block.nil.run.cons trivial nofun
  have close : TextPiece.Run (.punct .rparen :: [.spacedPunct .lbrace]) := brace.cons trivial (by rintro q ⟨⟩; exact .ofSingle rfl)
  have opens : TextPiece.Run (.punct .lparen :: _) := close.cons trivial (by rintro q ⟨⟩; exact .ofSingle rfl)
  have named : TextPiece.Run (⟨true, .word name⟩ :: _) := opens.cons word.name (by rintro q ⟨⟩; exact .ofFollower trivial rfl)
  exact named.cons void (by rintro q ⟨⟩; exact .ofSpaced rfl (.inl rfl))

theorem source_opening (word : IsWord name) {expr : String} {file base : Nat} {tokens : Array Token}
    (read : tokenize (source name expr) file base = .ok tokens) : Syntax.opening name <+: tokens.toList.map (·.kind) := by
  have text : (source name expr).toList =
      (headPieces name).flatMap TextPiece.chars ++ (' ' :: (Builtin.name .setResult ++ "(" ++ expr ++ "); \x7d").toList) := by
    show ("void " ++ name ++ "() \x7b " ++ Builtin.name .setResult ++ "(" ++ expr ++ "); \x7d").toList = _
    simp [headPieces, TextPiece.chars, TextPiece.punct, TextPiece.spacedPunct, Lexeme.chars, Punct.spelling]
  have run := run_headPieces word
  rw [← kind_headPieces word]
  exact tokenize_head run.legible run.joins (by rintro p ⟨⟩; rfl) (by rintro p ⟨⟩ c ⟨⟩; rfl) text read

end Evaluator

/-! ## Modules of texts -/

namespace GrowingUnit

variable {u v : GrowingUnit} {files : FileTree} {name text : String} {fragment : ParsedFragment} {c : CodeModule}

theorem readable_undeferred : Readable fun u => u.deferred.enabled = false where
  sources _ _ _ h := h
  analyze _ _ h := h
  transform _ _ _ h enabled := Bool.noConfusion (h.symm.trans enabled)
  synthesized _ h := h
  nextId _ _ h := h

section

variable {P : CodeModule → Prop} (lowers : ∀ a t c c', lower a t c = .ok c' → P c → P c')
include lowers

theorem GroupRead.keeps {t : Syntax.TopLevel} {t' : Typed.TopLevel} {p p' : Progress CodeModule} (read : GroupRead p p' t t' c)
    (before : P p.seen) : P p'.seen :=
  lowers _ _ _ _ read.code (lowers _ _ _ _ read.madeUp before)

/-- What lowering a group keeps, reading groups keeps. -/
theorem readGroups_keeps {count : Nat} {cursor cursor' : Syntax.Cursor} {p p' : Progress CodeModule}
    (enabled : p.unit.deferred.enabled = false) (h : (readGroups .code count cursor).run.run p = (.ok cursor', p'))
    (before : P p.seen) : P p'.seen := by
  induction count generalizing cursor p with
  | zero =>
    cases h
    exact before
  | succ count ih =>
    unfold readGroups at h
    split at h
    · cases h
    · cases h
      exact before
    · rename_i t next _
      obtain ⟨_, p₁, group, h⟩ := read_bind_ok h
      have still := Preserves.readGroup readable_undeferred Consumer.code t p enabled
      rw [group] at still
      obtain ⟨t', c, read⟩ := readGroup_ok enabled group
      exact ih still h (read.keeps lowers before)

end

/-- The module of an accepted text has all that it refers to. -/
theorem parseNamed_closed (enabled : u.deferred.enabled = false)
    (h : u.parseNamed files name text .code {} = ((.ok fragment, c), v)) : c.Closed c.strings.size := by
  obtain ⟨tokens, cursor, p, p', read, rfl⟩ := parseNamed_ok h
  obtain ⟨-, empty⟩ := readTokens_written read.expanded
  refine readGroups_keeps (P := fun c => c.Closed c.strings.size) (fun a t c c' => lower_closed)
    (read.readable readable_undeferred enabled) read.grouped ?_
  rw [empty]
  exact CodeModule.closed_empty

section

variable {tokens : List Token} {cursor cursor' : Syntax.Cursor} {p p' : Progress CodeModule} {function : String}

/-- The group of a text that opens with a function is read first. -/
theorem FragmentRead.opens (read : FragmentRead u files name text fragment v tokens cursor p p')
    (enabled : u.deferred.enabled = false)
    (head : ∀ file base tokens, tokenize text file base = .ok tokens → Syntax.opening function <+: tokens.toList.map (·.kind)) :
    ∃ t next p₁ t' c,
      Syntax.topLevel? (Syntax.Cursor.ofTokens tokens u.analysis.names.typeNames u.nextId) = .ok (some t, next) ∧
      t.Announces (.function function) ∧ GroupRead p p₁ t t' c ∧ p₁.unit.deferred.enabled = false ∧
      (readGroups .code tokens.length next).run.run p₁ = (.ok cursor, p') := by
  have enabled := read.readable readable_undeferred enabled
  have plain : ∀ k ∈ Syntax.opening function, ∀ name angled, k ≠ .directive (.include name angled) := by
    simp [Syntax.opening]
  obtain ⟨first, -⟩ := readTokens_finds (P := fun tokens => Syntax.opening function <+: tokens.map (·.kind))
    (fun search => (Include.Finds.addText_lexed head name).bind fun _ => .expand_head plain) read.expanded
  have opening := Syntax.opening_ofTokens first u.analysis.names.typeNames u.nextId
  have grouped := read.grouped
  unfold readGroups at grouped
  split at grouped
  · cases grouped
  · rename_i none
    obtain ⟨t, given, -⟩ := Syntax.topLevel?_opening opening rfl none
    cases given
  · rename_i t next some
    obtain ⟨_, given, announces⟩ := Syntax.topLevel?_opening opening rfl some
    cases given
    obtain ⟨_, p₁, group, rest⟩ := read_bind_ok grouped
    have still := Preserves.readGroup readable_undeferred Consumer.code t p enabled
    rw [group] at still
    obtain ⟨t', c, read⟩ := readGroup_ok enabled group
    exact ⟨t, next, p₁, t', c, some, announces, read, still, rest⟩

/-- A text that opens with a function defines it. -/
theorem parseNamed_opening (enabled : u.deferred.enabled = false)
    (head : ∀ file base tokens, tokenize text file base = .ok tokens → Syntax.opening function <+: tokens.toList.map (·.kind))
    (h : u.parseNamed files name text .code {} = ((.ok fragment, c), v)) : c.Has (.function function) := by
  obtain ⟨tokens, cursor, p, p', read, rfl⟩ := parseNamed_ok h
  obtain ⟨t, next, p₁, t', c, -, announces, group, still, rest⟩ := read.opens enabled head
  have has : p₁.seen.Has (.function function) := lower_has group.code (.inr (Analysis.analyze_exposes group.accepted announces))
  exact readGroups_keeps (P := fun c => c.Has (.function function)) (fun a t c c' code has => lower_has code (.inl has)) still rest has

variable {N : String → Prop}

/-- A group adds initializers, and the function that it gives a body. -/
theorem GroupRead.names {t : Syntax.TopLevel} {t' : Typed.TopLevel} {c : CodeModule} (read : GroupRead p p' t t' c)
    (body : ∀ f, t'.function? = some f → t'.body.isSome → N f.name) (names : p.seen.Names N) : p'.seen.Names N :=
  lower_names read.code body (lower_names read.madeUp (fun _ _ none => nomatch none) names)

/-- Without a closing brace there is no body. -/
theorem readGroups_names {count : Nat} (enabled : p.unit.deferred.enabled = false) (written : cursor.Written)
    (braces : ∀ t ∈ cursor.rest, t.kind ≠ .punct .rbrace) (h : (readGroups .code count cursor).run.run p = (.ok cursor', p'))
    (names : p.seen.Names N) : p'.seen.Names N := by
  induction count generalizing cursor p with
  | zero =>
    cases h
    exact names
  | succ count ih =>
    unfold readGroups at h
    split at h
    · cases h
    · cases h
      exact names
    · rename_i t next found
      obtain ⟨left, groups⟩ := Syntax.topLevel?_reads written found
      have bodiless : t.body = none := Option.not_isSome_iff_eq_none.mp fun body =>
        have ⟨brace, closes, inside⟩ := (groups t rfl).2 body
        braces brace (inside.subset List.mem_cons_self) closes
      obtain ⟨_, p₁, group, h⟩ := read_bind_ok h
      have still := Preserves.readGroup readable_undeferred Consumer.code t p enabled
      rw [group] at still
      obtain ⟨t', c, read⟩ := readGroup_ok enabled group
      have none := Analysis.analyze_bodiless read.accepted bodiless
      refine ih still (written.of_suffix left) (fun t mem => braces t (left.subset mem)) h (read.names (fun f _ body => ?_) names)
      rw [none] at body
      cases body

/-- A text that opens with a function and closes one brace only defines no function beside it. -/
theorem parseNamed_names (enabled : u.deferred.enabled = false)
    (head : ∀ file base tokens, tokenize text file base = .ok tokens → Syntax.opening function <+: tokens.toList.map (·.kind))
    (contained : ∀ file base tokens, tokenize text file base = .ok tokens → Syntax.Contained tokens.toList)
    (h : u.parseNamed files name text .code {} = ((.ok fragment, c), v)) : c.Names (· = function) := by
  obtain ⟨tokens, cursor, p, p', read, rfl⟩ := parseNamed_ok h
  obtain ⟨tokensWritten, empty⟩ := readTokens_written read.expanded
  obtain ⟨braces, -⟩ := readTokens_finds (P := fun tokens => tokens.countP (·.kind.isPunct .rbrace) ≤ 1)
    (fun search => (Include.Finds.addText_lexed contained name).bind fun tokens inside st out found => by
      rw [Include.Finds.expand_plain inside.plain st out found]
      exact inside.braces) read.expanded
  obtain ⟨t, next, p₁, t', c, found, announces, group, still, rest⟩ := read.opens enabled head
  have written : (Syntax.Cursor.ofTokens tokens u.analysis.names.typeNames u.nextId).Written :=
    fun t mem => tokensWritten t (List.mem_filter.mp mem).1
  obtain ⟨left, groups⟩ := Syntax.topLevel?_reads written found
  obtain ⟨brace, closes, inside⟩ := (groups t rfl).2 announces.1
  -- the body takes the only closing brace
  have taken : next.rest.countP (·.kind.isPunct .rbrace) + 1 ≤ 1 := by
    have fewer := (inside.sublist.trans List.filter_sublist).countP_le (p := (·.kind.isPunct .rbrace))
    rw [List.countP_cons_of_pos (by rw [closes]; rfl)] at fewer
    exact Nat.le_trans fewer braces
  have free : ∀ t ∈ next.rest, t.kind ≠ .punct .rbrace := by
    intro t mem same
    have none := List.countP_eq_zero.mp (Nat.le_zero.mp (Nat.le_of_succ_le_succ taken)) t mem
    rw [same] at none
    exact none rfl
  refine readGroups_names still (written.of_suffix left) free rest (group.names (fun f function body => ?_) ?_)
  · rcases Analysis.analyze_exposes group.accepted announces with ⟨_, _, _, _, _, _, other⟩ | ⟨f', _, function', _, same⟩
    · cases other
    · rw [function] at function'
      cases function'
      exact (Definition.function.inj same).symm
  · rw [empty]
    exact fun f mem => absurd mem (Array.not_mem_empty f)

end

end GrowingUnit

end IncrementalC
