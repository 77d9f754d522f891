import IncrementalC.Proofs.Syntax.Forms

/-!
# Names of types

The tokens of a base type, stars and array lengths are read by `typeName` as specifiers of that base and a declarator
with these stars and lengths.
-/
namespace IncrementalC.Syntax
set_option autoImplicit false

variable {T : List String} {ks rest : List TokenKind}

/-! ## Specifiers -/

/-- A token that ends a list of specifiers. -/
def EndsSpecifiers (T : List String) : TokenKind → Prop
  | .punct _ => True
  | .ident name => name ∉ T
  | _ => False

theorem specifiers_stop {s : Specifiers} (ends : EndsSpecifiers T (next rest)) {depth : Nat} (positive : 0 < depth) :
    Takes T (specifiers depth s) rest rest (· = s) := by
  obtain ⟨m, rfl⟩ : ∃ m, depth = m + 1 := ⟨depth - 1, by omega⟩
  refine .bind .kind fun k same => ?_
  subst same
  generalize next rest = k at ends
  cases k with
  | punct p => exact .pure rfl
  | ident name =>
    refine .get fun c standing => ?_
    have notType : (s.untyped && c.isTypeName name) = false := by
      have unknown : c.isTypeName name = false := by
        show c.typeNames.contains name = false
        rw [standing.types, List.contains_eq_mem, decide_eq_false ends]
      rw [unknown, Bool.and_false]
    rw [notType]
    exact .pure rfl
  | _ => exact ends.elim

theorem specifiers_words {words : List Keyword} (typed : ∀ k ∈ words, isTypeWord k)
    (ends : EndsSpecifiers T (next rest)) {s : Specifiers} (noBase : s.base = none) {depth : Nat}
    (enough : words.length < depth) :
    Takes T (specifiers depth s) (words.map .keyword ++ rest) rest (· = { s with words := s.words ++ words }) := by
  induction words generalizing s depth with
  | nil =>
    have same : s = { s with words := s.words ++ [] } := by rw [List.append_nil]
    rw [← same]
    exact specifiers_stop ends enough
  | cons k words ih =>
    obtain ⟨first, others⟩ := List.forall_mem_cons.mp typed
    rw [List.length_cons] at enough
    obtain ⟨m, rfl⟩ : ∃ m, depth = m + 1 := ⟨depth - 1, by omega⟩
    have noBase' : s.base.isSome = false := by rw [noBase]; rfl
    have goesOn := ih others (s := { s with words := s.words ++ [k] }) noBase (by omega : words.length < m)
    rw [List.append_assoc] at goesOn
    refine .bind .kind fun k' same => ?_
    subst same
    cases k with
    | void | bool | char | short | int | long | float | double | signed | unsigned | auto =>
      rw [noBase']
      exact .bind .advance fun _ _ => goesOn
    | _ => cases first

theorem specifiers_name {name : String} (known : name ∈ T) (ends : EndsSpecifiers T (next rest)) {depth : Nat}
    (enough : 1 < depth) :
    Takes T (specifiers depth {}) (.ident name :: rest) rest (· = { base := some (.named name) }) := by
  obtain ⟨m, rfl⟩ : ∃ m, depth = m + 1 := ⟨depth - 1, by omega⟩
  refine .bind .kind fun k same => ?_
  subst same
  refine .get fun c standing => ?_
  have isType : (({} : Specifiers).untyped && c.isTypeName name) = true := by
    show c.typeNames.contains name = true
    rw [standing.types, List.contains_eq_mem, decide_eq_true known]
  rw [if_pos isType]
  exact .bind .advance fun _ _ => specifiers_stop ends (by omega)

/-! ## Base types -/

/-- The tokens of a base type. -/
inductive NamesBase (T : List String) : List TokenKind → BaseType → Prop where
  | words {k : Keyword} {words : List Keyword} {b : BaseType} (typed : ∀ w ∈ k :: words, isTypeWord w)
      (means : wordsType? (k :: words) = some b) : NamesBase T ((k :: words).map .keyword) b
  | name {name : String} (known : name ∈ T) : NamesBase T [.ident name] (.named name)

theorem NamesBase.startsType {b : BaseType} (h : NamesBase T ks b) : ∃ k ls, ks = k :: ls ∧ Syntax.startsType T k := by
  cases h with
  | @words k words b typed means =>
    refine ⟨.keyword k, words.map .keyword, rfl, ?_⟩
    have first := typed k List.mem_cons_self
    cases k <;> first | rfl | cases first
  | @name name known =>
    refine ⟨.ident name, [], rfl, ?_⟩
    show T.contains name = true
    rw [List.contains_eq_mem, decide_eq_true known]

theorem declSpec_takes {b : BaseType} (h : NamesBase T ks b) (ends : EndsSpecifiers T (next rest)) {depth : Nat}
    (enough : ks.length + 2 ≤ depth) :
    Takes T (declSpec depth) (ks ++ rest) rest fun r => r.1.base = b ∧ r.1.storage = .none ∧ r.2 = none := by
  obtain ⟨m, rfl⟩ : ∃ m, depth = m + 1 := ⟨depth - 1, by omega⟩
  refine .bind .here fun start _ => ?_
  unfold Specifiers.finish
  cases h with
  | @words k words b typed means =>
    have length : ((k :: words).map TokenKind.keyword).length = (k :: words).length := List.length_map _
    refine .bind (specifiers_words typed ends rfl (by omega)) fun s same => ?_
    subst same
    dsimp only
    rw [List.nil_append, means]
    exact .bind (.pure rfl) fun b' same => .bind .prev fun _ _ => .pure ⟨same.symm, rfl, rfl⟩
  | @name name known =>
    refine .bind (specifiers_name known ends (Nat.le_of_succ_le_succ enough)) fun s same => ?_
    subst same
    exact .bind (.pure rfl) fun b' same => .bind .prev fun _ _ => .pure ⟨same.symm, rfl, rfl⟩

/-! ## Declarators -/

/-- A token that ends a list of stars. -/
def EndsPointers (k : TokenKind) : Prop :=
  k.isPunct .star = false ∧ k.isKeyword .const = false ∧ k.isKeyword .volatile = false

theorem pointers_takes {n : Nat} (ends : EndsPointers (next rest)) :
    Takes T Parser.pointers (List.replicate n (TokenKind.punct .star) ++ rest) rest (· = n) := by
  have stops (m : Nat) (prev : Span) (tokens : List Token) (kinds : tokens.map (·.kind) = rest) :
      Parser.pointers.go m prev tokens = (m, prev, tokens) := by
    cases tokens with
    | nil => rfl
    | cons t tokens =>
      subst kinds
      obtain ⟨star, const, volatile⟩ : EndsPointers t.kind := ends
      simp [Parser.pointers.go, star, const, volatile]
  have loop (n m : Nat) (prev : Span) (tokens : List Token)
      (kinds : tokens.map (·.kind) = List.replicate n (TokenKind.punct .star) ++ rest) :
      ∃ prev' left, Parser.pointers.go m prev tokens = (m + n, prev', left) ∧ left.map (·.kind) = rest := by
    induction n generalizing m prev tokens with
    | zero => exact ⟨prev, tokens, stops m prev tokens kinds, kinds⟩
    | succ n ih =>
      obtain ⟨t, tokens, rfl, kind, kinds⟩ := List.map_eq_cons_iff.mp kinds
      obtain ⟨prev', left, run, leftKinds⟩ := ih (m + 1) t.span tokens kinds
      refine ⟨prev', left, ?_, leftKinds⟩
      have star : t.kind.isPunct .star = true := by rw [kind]; rfl
      rw [Parser.pointers.go, if_pos star, run, Nat.add_right_comm, Nat.add_assoc]
  intro c standing
  obtain ⟨prev', left, run, kinds⟩ := loop n 0 c.prev c.rest standing.kinds
  refine ⟨n, { c with prev := prev', rest := left }, ?_, ⟨kinds, standing.types⟩, rfl⟩
  unfold Parser.pointers
  rw [run, Nat.zero_add]

def lengthTokens : Option Nat → List TokenKind
  | none => [.punct .lbracket, .punct .rbracket]
  | some n => [.punct .lbracket, .int n .none, .punct .rbracket]

/-- The suffix stands for an array of the length. -/
def IsLength (s : Suffix) (n : Option Nat) : Prop :=
  match n with
  | none => s = .unsized
  | some n => ∃ span, s = .sized (.int span n .none)

/-- A sign that ends a declarator. -/
def EndsDeclarator (p : Punct) : Prop := p = .rparen ∨ p = .semi

theorem suffixes_stop {p : Punct} (ends : EndsDeclarator p) (first : Bool) {depth : Nat} (positive : 0 < depth) :
    Takes T (suffixes depth first) (.punct p :: rest) (.punct p :: rest) (· = []) := by
  obtain ⟨m, rfl⟩ : ∃ m, depth = m + 1 := ⟨depth - 1, by omega⟩
  have notBracket : (next (.punct p :: rest)).isPunct .lbracket = false := by rcases ends with rfl | rfl <;> rfl
  have notParen : (next (.punct p :: rest)).isPunct .lparen = false := by rcases ends with rfl | rfl <;> rfl
  refine .bind (.eat_other notBracket) fun b same => ?_
  subst same
  refine .get fun c standing => ?_
  rw [standing.kind_eq, notParen]
  exact .pure rfl

theorem suffixes_takes {dims : List (Option Nat)} {p : Punct} (ends : EndsDeclarator p) (first : Bool) {depth : Nat}
    (enough : 8 * (dims.flatMap lengthTokens).length + 1 ≤ depth) :
    Takes T (suffixes depth first) (dims.flatMap lengthTokens ++ .punct p :: rest) (.punct p :: rest)
      fun ss => List.Forall₂ IsLength ss dims := by
  induction dims generalizing first depth with
  | nil =>
    refine (suffixes_stop ends first enough).mono fun ss same => ?_
    subst same
    exact .nil
  | cons n dims ih =>
    rw [List.flatMap_cons, List.length_append] at enough
    obtain ⟨m, rfl⟩ : ∃ m, depth = m + 1 := ⟨depth - 1, by omega⟩
    rw [List.flatMap_cons, List.append_assoc]
    cases n with
    | none =>
      have length : (lengthTokens none).length = 2 := rfl
      refine .bind .eat fun b same => ?_
      subst same
      refine .bind (.isAtPunct .rbracket) fun b same => ?_
      subst same
      refine .bind (.pure rfl) fun s same => ?_
      subst same
      exact .bind .expect fun _ _ => .bind (ih false (by omega)) fun ss hold => .pure (.cons rfl hold)
    | some n =>
      have length : (lengthTokens (some n)).length = 3 := rfl
      refine .bind .eat fun b same => ?_
      subst same
      have size : Takes T (conditional m) (.int n .none :: .punct .rbracket ::
          (dims.flatMap lengthTokens ++ .punct p :: rest)) (.punct .rbracket ::
          (dims.flatMap lengthTokens ++ .punct p :: rest)) fun e => ∃ span, e = .int span n .none :=
        (Parses.ofAtom (Q := fun e => ∃ span, e = .int span n .none) (k := .int n .none) trivial fun s =>
          ⟨_, rfl, s, rfl⟩).conditional (by decide) _ m (Nat.zero_le 2) (by rw [List.length_singleton]; omega)
      refine .bind (.isAtPunct .rbracket) fun b same => ?_
      subst same
      have sized : Takes T (Suffix.sized <$> conditional m) _ _ fun s => IsLength s (some n) :=
        size.mapTo fun e ⟨span, same⟩ => ⟨span, congrArg _ same⟩
      refine .bind sized fun s here => ?_
      exact .bind .expect fun _ _ => .bind (ih false (by omega)) fun ss hold => .pure (.cons here hold)

theorem ident?_takes {name : String} : Takes T Parser.ident? (.ident name :: rest) rest (· = some name) := by
  intro c standing
  refine ⟨some name, c.advance, ?_, standing.advance.2, rfl⟩
  unfold Parser.ident?
  rw [standing.kind_eq]
  rfl

/-- Stars, a name and lengths. -/
theorem declarator_takes {name : String} (stars : Nat) (dims : List (Option Nat)) {p : Punct} (ends : EndsDeclarator p)
    (abstract : Bool) {depth : Nat} (enough : 8 * (dims.flatMap lengthTokens).length + 2 ≤ depth) :
    Takes T (declarator depth abstract)
      (List.replicate stars (TokenKind.punct .star) ++ .ident name :: (dims.flatMap lengthTokens ++ .punct p :: rest))
      (.punct p :: rest)
      fun d => ∃ suffixes span, d = .mk (some name) stars suffixes span ∧ List.Forall₂ IsLength suffixes dims := by
  obtain ⟨m, rfl⟩ : ∃ m, depth = m + 1 := ⟨depth - 1, by omega⟩
  refine .bind .here fun start _ => .bind (pointers_takes ⟨rfl, rfl, rfl⟩) fun n same => .get fun c standing => ?_
  subst same
  rw [standing.kind_eq]
  refine .bind ident?_takes fun name' same => ?_
  subst same
  exact .bind (suffixes_takes ends true (by omega)) fun ss hold => .bind .prev fun _ _ => .pure ⟨ss, _, rfl, hold⟩

/-- Behind the stars of a declarator without a name stands a length or the end. -/
theorem next_lengths (dims : List (Option Nat)) (rest : List TokenKind) :
    ∃ p, next (dims.flatMap lengthTokens ++ .punct .rparen :: rest) = .punct p ∧ (p = .lbracket ∨ p = .rparen) := by
  cases dims with
  | nil => exact ⟨.rparen, rfl, .inr rfl⟩
  | cons n dims => cases n <;> exact ⟨.lbracket, rfl, .inl rfl⟩

/-- Stars and lengths, without a name. -/
theorem abstractDeclarator_takes (stars : Nat) (dims : List (Option Nat)) {depth : Nat}
    (enough : 8 * (dims.flatMap lengthTokens).length + 2 ≤ depth) :
    Takes T (declarator depth true)
      (List.replicate stars (TokenKind.punct .star) ++ (dims.flatMap lengthTokens ++ .punct .rparen :: rest))
      (.punct .rparen :: rest)
      fun d => ∃ suffixes span, d = .mk none stars suffixes span ∧ List.Forall₂ IsLength suffixes dims := by
  obtain ⟨m, rfl⟩ : ∃ m, depth = m + 1 := ⟨depth - 1, by omega⟩
  obtain ⟨p, behind, opens⟩ := next_lengths dims rest
  have noStar : EndsPointers (next (dims.flatMap lengthTokens ++ .punct .rparen :: rest)) := by
    rw [behind]
    rcases opens with rfl | rfl <;> exact ⟨rfl, rfl, rfl⟩
  have notParen : (TokenKind.punct p).isPunct .lparen = false := by rcases opens with rfl | rfl <;> rfl
  refine .bind .here fun start _ => .bind (pointers_takes noStar) fun n same => .get fun c standing => ?_
  subst same
  rw [standing.kind_eq, behind, notParen]
  refine .bind (.ident?_other fun name => by rw [behind]; nofun) fun name same => ?_
  subst same
  exact .bind (suffixes_takes (.inl rfl) true (by omega)) fun ss hold => .bind .prev fun _ _ => .pure ⟨ss, _, rfl, hold⟩

/-- A base, stars and lengths up to a parenthesis. -/
theorem typeName_takes {b : BaseType} (h : NamesBase T ks b) (stars : Nat) (dims : List (Option Nat))
    (rest : List TokenKind) {depth : Nat}
    (enough : 8 * (ks ++ (List.replicate stars (TokenKind.punct .star) ++ dims.flatMap lengthTokens)).length ≤ depth) :
    Takes T (typeName depth)
      (ks ++ (List.replicate stars (TokenKind.punct .star) ++ dims.flatMap lengthTokens) ++ .punct .rparen :: rest)
      (.punct .rparen :: rest)
      fun r => r.1.base = b ∧ ∃ suffixes span, r.2 = .mk none stars suffixes span ∧ List.Forall₂ IsLength suffixes dims := by
  obtain ⟨k, ls, some, -⟩ := h.startsType
  have positive : 0 < ks.length := by rw [some]; exact Nat.succ_pos _
  rw [List.length_append, List.length_append] at enough
  obtain ⟨m, rfl⟩ : ∃ m, depth = m + 1 := ⟨depth - 1, by omega⟩
  have ends : EndsSpecifiers T (next (List.replicate stars (TokenKind.punct .star) ++
      (dims.flatMap lengthTokens ++ .punct .rparen :: rest))) := by
    cases stars with
    | zero =>
      obtain ⟨p, behind, -⟩ := next_lengths dims rest
      show EndsSpecifiers T (next (dims.flatMap lengthTokens ++ .punct .rparen :: rest))
      rw [behind]
      trivial
    | succ n => trivial
  rw [List.append_assoc, List.append_assoc]
  refine .bind .here fun start _ => .bind (declSpec_takes h ends (by omega)) fun r spec => ?_
  obtain ⟨spec', definition⟩ := r
  obtain ⟨base, -, none⟩ : spec'.base = b ∧ spec'.storage = .none ∧ definition = .none := spec
  subst none
  refine .bind (abstractDeclarator_takes stars dims (by omega)) fun d holds => ?_
  obtain ⟨suffixes, span, same, lengths⟩ := holds
  subst same
  exact .pure ⟨base, suffixes, span, rfl, lengths⟩

/-! ## Casts and sizes -/

/-- The tokens are read as the name of a type. -/
structure NamesType (T : List String) (ks : List TokenKind) (P : DeclSpec → Declarator → Prop) : Prop where
  starts : ∃ k ls, ks = k :: ls ∧ Syntax.startsType T k
  takes : ∀ (rest : List TokenKind) (depth : Nat), 8 * ks.length ≤ depth →
    Takes T (typeName depth) (ks ++ .punct .rparen :: rest) (.punct .rparen :: rest) fun r => P r.1 r.2

variable {P : DeclSpec → Declarator → Prop} {ls : List TokenKind} {Q R : Expr → Prop}

theorem NamesType.isType (h : NamesType T ks P) {c : Cursor} {rest : List TokenKind}
    (standing : c.At T (.punct .lparen :: (ks ++ rest))) : (c.kind.isPunct .lparen && c.startsType c.second) = true := by
  obtain ⟨k, ks', rfl, starts⟩ := h.starts
  have second : Syntax.startsType T (next ((k :: ks') ++ rest)) = true := starts
  rw [standing.kind_eq, standing.second_eq, standing.startsType_eq]
  exact (Bool.and_eq_true _ _).mpr ⟨rfl, second⟩

theorem Parses.ofCast (h : NamesType T ks P) (he : Parses T 13 ls Q) (node : ∀ s spec d e, P spec d → Q e → R (.cast s spec d e)) :
    Parses T 13 (.punct .lparen :: (ks ++ .punct .rparen :: ls)) R := by
  refine AsUnary.parses (fun rest depth before enough => ?_) (.inl rfl)
  simp only [List.length_cons, List.length_append] at enough
  obtain ⟨m, rfl⟩ : ∃ m, depth = m + 1 := ⟨depth - 1, by omega⟩
  rw [List.cons_append, List.append_assoc, List.cons_append]
  refine .bind .here fun start _ => .get fun c standing => ?_
  rw [h.isType standing, standing.kind_eq]
  refine .bind .advance fun _ _ => .bind (h.takes (ls ++ rest) m (by omega)) fun r holds => ?_
  obtain ⟨spec, d⟩ := r
  refine .bind .expect fun _ _ => .bind (he.unary (Nat.le_refl 13) rest m before (by omega)) fun e he => ?_
  exact .pure (node _ spec d e holds he)

theorem Parses.ofSizeofType (h : NamesType T ks P) (node : ∀ s spec d, P spec d → R (.sizeofType s spec d)) :
    Parses T 13 (.keyword .sizeof :: .punct .lparen :: (ks ++ [.punct .rparen])) R := by
  refine AsUnary.parses (fun rest depth before enough => ?_) (.inl rfl)
  simp only [List.length_cons, List.length_append] at enough
  obtain ⟨m, rfl⟩ : ∃ m, depth = m + 1 := ⟨depth - 1, by omega⟩
  rw [List.cons_append, List.cons_append, List.append_assoc, List.singleton_append]
  refine .bind .here fun start _ => .get fun c standing => ?_
  rw [standing.kind_eq]
  refine .bind .advance fun _ _ => .get fun c standing => ?_
  rw [h.isType standing]
  refine .bind .advance fun _ _ => .bind (h.takes rest m (by omega)) fun r holds => ?_
  obtain ⟨spec, d⟩ := r
  exact .bind .expect fun close _ => .pure (node _ spec d holds)

end IncrementalC.Syntax
