import IncrementalC.Syntax.Expression

/-!
# The bound on nested calls does not matter

A rule of the grammar calls only rules of lower rank before it has read a token. So with 40 calls for every token that
is left, and as many more as the rule's rank, a greater bound changes nothing, and the bound is never used up:
`Alike c n m m'` says that two parsers do the same at `c`, that they move on over at least so many tokens that at most `n`
are left, and that they do not fail for want of calls; `Depths depth` says so of each rule with one call more. `Depths` is
proved by induction on the depth, with a step lemma for each rule.
-/
namespace IncrementalC.Syntax
set_option autoImplicit false

variable {α β : Type}

/-! ## Moving on -/

/-- `c'` stands at a token of `c` or where the input of `c` ends. -/
structure Cursor.Ahead (c c' : Cursor) : Prop where
  rest : c'.rest <:+ c.rest
  stop : c'.stop = c.stop

namespace Cursor.Ahead

variable {c c' c'' : Cursor}

theorem refl (c : Cursor) : c.Ahead c := ⟨List.suffix_rfl, rfl⟩

theorem trans (h : c.Ahead c') (h' : c'.Ahead c'') : c.Ahead c'' :=
  ⟨h'.rest.trans h.rest, h'.stop.trans h.stop⟩

theorem advance (c : Cursor) : c.Ahead c.advance := by
  unfold Cursor.advance
  split
  · rename_i t r rest
    exact ⟨⟨[t], rest.symm⟩, rfl⟩
  · exact refl c

end Cursor.Ahead

/-- The error of a rule that has used up its bound. -/
def ParseError.IsTooDeep (e : ParseError) : Prop := ∃ span, e = .unsupported .nesting span

/-- At `c` the parser moves on, or it fails for another reason than want of calls. -/
structure MovesOn (c : Cursor) (m : Parser α) : Prop where
  ahead : ∀ x c', m c = .ok (x, c') → c.Ahead c'
  shallow : ∀ e, m c = .error e → ¬e.IsTooDeep

/-! ## Parsers that do the same -/

/-- At `c` the parsers do the same, they move on, and they leave at most `n` tokens. -/
structure Alike (c : Cursor) (n : Nat) (m m' : Parser α) : Prop extends MovesOn c m where
  same : m c = m' c
  left : ∀ x c', m c = .ok (x, c') → c'.rest.length ≤ n

theorem Cursor.length_advance (c : Cursor) : c.advance.rest.length = c.rest.length - 1 := by
  unfold Cursor.advance
  cases rest : c.rest <;> simp [rest]

theorem Cursor.advance_lt {c : Cursor} (some : 0 < c.rest.length) : c.advance.rest.length < c.rest.length := by
  rw [c.length_advance]
  exact Nat.sub_lt some Nat.one_pos

/-- Where a token stands, there are tokens left. -/
theorem Cursor.length_pos {c : Cursor} (h : c.kind ≠ .eof) : 0 < c.rest.length := by
  unfold Cursor.kind Cursor.current at h
  cases rest : c.rest with
  | nil => simp [rest] at h
  | cons t r => simp

theorem Cursor.length_pos_of_isPunct {c : Cursor} {p : Punct} (h : c.kind.isPunct p) : 0 < c.rest.length := by
  refine length_pos fun eof => ?_
  rw [eof] at h
  cases h

namespace Alike

variable {c : Cursor} {k n : Nat}

/-- A parser that leaves at most `n` tokens where it is `m`, a part that calls no rule. -/
theorem of_movesOn {m : Parser α} (h : MovesOn c m) (left : ∀ x c', m c = .ok (x, c') → c'.rest.length ≤ n) :
    Alike c n m m :=
  ⟨h, rfl, left⟩

theorem mono {m m' : Parser α} (h : Alike c k m m') (more : k ≤ n) : Alike c n m m' :=
  ⟨h.toMovesOn, h.same, fun x c' run => Nat.le_trans (h.left x c' run) more⟩

theorem pure (x : α) (more : c.rest.length ≤ n) : Alike c n (Pure.pure x) (Pure.pure x) := by
  refine of_movesOn ⟨fun y c' run => ?_, fun e run => by cases run⟩ fun y c' run => ?_
  · cases run
    exact .refl c
  · cases run
    exact more

theorem throw (e : ParseError) (shallow : ¬e.IsTooDeep := by rintro ⟨_, ⟨⟩⟩) :
    Alike c n (MonadExcept.throw e : Parser α) (MonadExcept.throw e) := by
  refine of_movesOn ⟨fun x c' run => (by cases run), fun e' run => ?_⟩ fun x c' run => by cases run
  cases run
  exact shallow

theorem unexpected (what : Expected) : Alike c n (Parser.unexpected what : Parser α) (Parser.unexpected what) := by
  refine of_movesOn ⟨fun x c' run => (by cases run), fun e run => ?_⟩ fun x c' run => by cases run
  cases run
  rintro ⟨_, ⟨⟩⟩

/-- What follows is compared only where the first parser arrives. -/
theorem andThen {m m' : Parser α} {f f' : α → Parser β} (moves : MovesOn c m) (same : m c = m' c)
    (hf : ∀ x c', m c = .ok (x, c') → Alike c' n (f x) (f' x)) : Alike c n (m >>= f) (m' >>= f') := by
  have first : (m >>= f) c = (m c >>= fun r => f r.1 r.2) := rfl
  have second : (m' >>= f') c = (m c >>= fun r => f' r.1 r.2) := by rw [same]; rfl
  cases run : m c with
  | error e =>
    rw [run] at first second
    refine ⟨⟨fun x c' ok => ?_, fun e' failed => ?_⟩, first.trans second.symm, fun x c' ok => ?_⟩
    · cases first.symm.trans ok
    · cases first.symm.trans failed
      exact moves.shallow e run
    · cases first.symm.trans ok
  | ok r =>
    rw [run] at first second
    have rest := hf r.1 r.2 run
    exact {
      ahead x c' ok := (moves.ahead r.1 r.2 run).trans (rest.ahead x c' (first.symm.trans ok))
      shallow e failed := rest.shallow e (first.symm.trans failed)
      same := first.trans (rest.same.trans second.symm)
      left x c' ok := rest.left x c' (first.symm.trans ok) }

theorem bind {m m' : Parser α} {f f' : α → Parser β} (hm : Alike c k m m')
    (hf : ∀ x c', c'.rest.length ≤ k → Alike c' n (f x) (f' x)) : Alike c n (m >>= f) (m' >>= f') :=
  andThen hm.toMovesOn hm.same fun x c' run => hf x c' (hm.left x c' run)

theorem throw_bind {f f' : α → Parser β} (e : ParseError) (shallow : ¬e.IsTooDeep := by rintro ⟨_, ⟨⟩⟩) :
    Alike c n (MonadExcept.throw e >>= f) (MonadExcept.throw e >>= f') :=
  andThen (throw e shallow : Alike c n _ _).toMovesOn rfl fun x c' run => by cases run

theorem unexpected_bind {f f' : α → Parser β} (what : Expected) :
    Alike c n (Parser.unexpected what >>= f) (Parser.unexpected what >>= f') :=
  andThen (unexpected what : Alike c n _ _).toMovesOn rfl fun x c' run => by cases run

theorem map {m m' : Parser α} (f : α → β) (hm : Alike c n m m') : Alike c n (f <$> m) (f <$> m') :=
  bind hm fun x _ left => pure (f x) left

theorem ite {b : Prop} [Decidable b] {m₁ m₂ m₁' m₂' : Parser α} (yes : b → Alike c n m₁ m₁')
    (no : ¬b → Alike c n m₂ m₂') : Alike c n (if b then m₁ else m₂) (if b then m₁' else m₂') := by
  by_cases h : b
  · simpa [h] using yes h
  · simpa [h] using no h

/-! ### Steps -/

section Steps

variable {f f' : α → Parser β}

theorem get {f f' : Cursor → Parser β} (h : Alike c n (f c) (f' c)) :
    Alike c n (MonadState.get >>= f) (MonadState.get >>= f') :=
  ⟨⟨h.ahead, h.shallow⟩, h.same, h.left⟩

theorem kind {f f' : TokenKind → Parser β} (h : Alike c n (f c.kind) (f' c.kind)) :
    Alike c n (Parser.kind >>= f) (Parser.kind >>= f') :=
  ⟨⟨h.ahead, h.shallow⟩, h.same, h.left⟩

theorem here {f f' : Span → Parser β} (h : ∀ s, Alike c n (f s) (f' s)) :
    Alike c n (Parser.here >>= f) (Parser.here >>= f') :=
  ⟨⟨(h _).ahead, (h _).shallow⟩, (h _).same, (h _).left⟩

theorem prev {f f' : Span → Parser β} (h : ∀ s, Alike c n (f s) (f' s)) :
    Alike c n (Parser.prev >>= f) (Parser.prev >>= f') :=
  ⟨⟨(h _).ahead, (h _).shallow⟩, (h _).same, (h _).left⟩

theorem isAtPunct {p : Punct} {f f' : Bool → Parser β} (h : ∀ b, Alike c n (f b) (f' b)) :
    Alike c n (Parser.isAtPunct p >>= f) (Parser.isAtPunct p >>= f') :=
  ⟨⟨(h _).ahead, (h _).shallow⟩, (h _).same, (h _).left⟩

theorem atPunct {p : Punct} {f f' : Bool → Parser β} (yes : 0 < c.rest.length → Alike c n (f true) (f' true))
    (no : Alike c n (f false) (f' false)) : Alike c n (Parser.isAtPunct p >>= f) (Parser.isAtPunct p >>= f') := by
  have branch : Alike c n (f (c.kind.isPunct p)) (f' (c.kind.isPunct p)) := by
    cases at_p : c.kind.isPunct p with
    | true => exact yes (Cursor.length_pos_of_isPunct at_p)
    | false => exact no
  exact ⟨⟨branch.ahead, branch.shallow⟩, branch.same, branch.left⟩

/-- A step that calls no rule. -/
theorem step {m : Parser α} (moves : MovesOn c m) (hf : ∀ x c', m c = .ok (x, c') → Alike c' n (f x) (f' x)) :
    Alike c n (m >>= f) (m >>= f') :=
  andThen moves rfl hf

theorem advance {f f' : Token → Parser β}
    (h : ∀ t c', c'.rest.length = c.rest.length - 1 → Alike c' n (f t) (f' t)) :
    Alike c n (Parser.advance >>= f) (Parser.advance >>= f') := by
  refine step ⟨fun t c' run => ?_, fun e run => by cases run⟩ fun t c' run => h t c' ?_
  · cases run
    exact .advance c
  · cases run
    exact c.length_advance

/-- A step that reads the token if `b` holds of it. -/
theorem readIf {m : Parser α} {b : Prop} [Decidable b] {x : α} {e : ParseError}
    (run : m c = if b then .ok (x, c.advance) else .error e) (shallow : ¬e.IsTooDeep)
    (h : b → Alike c.advance n (f x) (f' x)) : Alike c n (m >>= f) (m >>= f') := by
  by_cases here : b
  · rw [if_pos here] at run
    refine step ⟨fun x' c' ok => ?_, fun e' failed => ?_⟩ fun x' c' ok => ?_
    · cases run.symm.trans ok
      exact .advance c
    · cases run.symm.trans failed
    · cases run.symm.trans ok
      exact h here
  · rw [if_neg here] at run
    refine step ⟨fun x' c' ok => ?_, fun e' failed => ?_⟩ fun x' c' ok => ?_
    · cases run.symm.trans ok
    · cases run.symm.trans failed
      exact shallow
    · cases run.symm.trans ok

theorem expect {p : Punct} {f f' : Span → Parser β}
    (h : ∀ s c', c'.rest.length < c.rest.length → Alike c' n (f s) (f' s)) :
    Alike c n (Parser.expect p >>= f) (Parser.expect p >>= f') :=
  readIf rfl (by rintro ⟨_, ⟨⟩⟩) fun here => h _ _ (Cursor.advance_lt (Cursor.length_pos_of_isPunct here))

theorem expectKeyword {k : Keyword} {f f' : Unit → Parser β}
    (h : ∀ s c', c'.rest.length ≤ c.rest.length → Alike c' n (f s) (f' s)) :
    Alike c n (Parser.expectKeyword k >>= f) (Parser.expectKeyword k >>= f') :=
  readIf rfl (by rintro ⟨_, ⟨⟩⟩) fun _ => h _ _ (Cursor.Ahead.advance c).rest.length_le

theorem expectIdent {f f' : String × Span → Parser β}
    (h : ∀ x c', c'.rest.length < c.rest.length → Alike c' n (f x) (f' x)) :
    Alike c n (Parser.expectIdent >>= f) (Parser.expectIdent >>= f') := by
  have run (r : Except ParseError ((String × Span) × Cursor)) (done : Parser.expectIdent c = r) :
      (∃ name, c.kind = .ident name ∧ r = .ok ((name, c.current.span), c.advance)) ∨
      ∃ k, r = .error (.unexpected .identifier k c.current.span) := by
    unfold Parser.expectIdent at done
    split at done
    · rename_i name here
      exact .inl ⟨name, here, done.symm⟩
    · exact .inr ⟨_, done.symm⟩
  refine step ⟨fun x c' ok => ?_, fun e failed => ?_⟩ fun x c' ok => h x c' ?_
  · obtain ⟨name, -, ⟨⟩⟩ | ⟨k, ⟨⟩⟩ := run _ ok
    exact .advance c
  · obtain ⟨name, -, ⟨⟩⟩ | ⟨k, ⟨⟩⟩ := run _ failed
    rintro ⟨_, ⟨⟩⟩
  · obtain ⟨name, here, ⟨⟩⟩ | ⟨k, ⟨⟩⟩ := run _ ok
    exact Cursor.advance_lt (Cursor.length_pos (by simp [here]))

theorem eat {p : Punct} {f f' : Bool → Parser β}
    (yes : ∀ c', c'.rest.length < c.rest.length → Alike c' n (f true) (f' true))
    (no : Alike c n (f false) (f' false)) : Alike c n (Parser.eat p >>= f) (Parser.eat p >>= f') := by
  by_cases here : c.kind.isPunct p
  · have run : Parser.eat p c = .ok (true, c.advance) := if_pos here
    refine step ⟨fun b c' ok => ?_, fun e failed => ?_⟩ fun b c' ok => ?_
    · cases run.symm.trans ok
      exact .advance c
    · cases run.symm.trans failed
    · cases run.symm.trans ok
      exact yes _ (Cursor.advance_lt (Cursor.length_pos_of_isPunct here))
  · have run : Parser.eat p c = .ok (false, c) := if_neg here
    refine step ⟨fun b c' ok => ?_, fun e failed => ?_⟩ fun b c' ok => ?_
    · cases run.symm.trans ok
      exact .refl c
    · cases run.symm.trans failed
    · cases run.symm.trans ok
      exact no

theorem ident? {f f' : Option String → Parser β}
    (h : ∀ x c', c'.rest.length ≤ c.rest.length → (x.isSome → c'.rest.length < c.rest.length) → Alike c' n (f x) (f' x)) :
    Alike c n (Parser.ident? >>= f) (Parser.ident? >>= f') := by
  have run (r : Except ParseError (Option String × Cursor)) (done : Parser.ident? c = r) :
      (∃ name, c.kind = .ident name ∧ r = .ok (some name, c.advance)) ∨ r = .ok (none, c) := by
    unfold Parser.ident? at done
    split at done
    · rename_i name here
      exact .inl ⟨name, here, done.symm⟩
    · exact .inr done.symm
  refine step ⟨fun x c' ok => ?_, fun e failed => ?_⟩ fun x c' ok => ?_
  · obtain ⟨name, -, ⟨⟩⟩ | ⟨⟨⟩⟩ := run _ ok
    · exact .advance c
    · exact .refl c
  · obtain ⟨name, -, ⟨⟩⟩ | ⟨⟨⟩⟩ := run _ failed
  · obtain ⟨name, here, ⟨⟩⟩ | ⟨⟨⟩⟩ := run _ ok
    · have less := Cursor.advance_lt (Cursor.length_pos (c := c) (by simp [here]))
      exact h _ _ (Nat.le_of_lt less) fun _ => less
    · exact h _ _ (Nat.le_refl _) nofun

theorem pointers_go_suffix (n : Nat) (prev : Span) (rest : List Token) :
    (Parser.pointers.go n prev rest).2.2 <:+ rest := by
  induction rest generalizing n prev with
  | nil => exact List.suffix_rfl
  | cons t r ih =>
    unfold Parser.pointers.go
    split
    · exact (ih _ _).trans (List.suffix_cons t r)
    · split
      · exact (ih _ _).trans (List.suffix_cons t r)
      · exact List.suffix_rfl

theorem pointers {f f' : Nat → Parser β} (h : ∀ x c', c'.rest.length ≤ c.rest.length → Alike c' n (f x) (f' x)) :
    Alike c n (Parser.pointers >>= f) (Parser.pointers >>= f') := by
  refine step ⟨fun x c' run => ?_, fun e run => by cases run⟩ fun x c' run => h x c' ?_
  · cases run
    exact ⟨pointers_go_suffix .., rfl⟩
  · cases run
    exact (pointers_go_suffix ..).length_le

end Steps

/-! ### Parts that call no rule -/

/-- The cursor stays at its token. -/
theorem of_rest {m : Parser α} (run : ∃ x c', m c = .ok (x, c') ∧ c'.rest = c.rest ∧ c'.stop = c.stop) :
    Alike c c.rest.length m m := by
  obtain ⟨y, c₁, run, rest, stop⟩ := run
  refine of_movesOn ⟨fun x c' ok => ?_, fun e failed => ?_⟩ fun x c' ok => ?_
  · cases run.symm.trans ok
    exact ⟨rest ▸ List.suffix_rfl, stop⟩
  · cases run.symm.trans failed
  · cases run.symm.trans ok
    exact Nat.le_of_eq (congrArg List.length rest)

theorem addTypeName (name : String) : Alike c c.rest.length (Parser.addTypeName name) (Parser.addTypeName name) :=
  of_rest ⟨_, _, rfl, rfl, rfl⟩

theorem freshName (stem : String) : Alike c c.rest.length (freshName stem) (Syntax.freshName stem) :=
  of_rest ⟨_, _, rfl, rfl, rfl⟩

theorem finish (s : Specifiers) (start : Span) : Alike c c.rest.length (s.finish start) (s.finish start) := by
  have rest (base : BaseType) (c' : Cursor) (left : c'.rest.length ≤ c.rest.length) : Alike c' c.rest.length (do
      let span := start.merge (← Parser.prev)
      return (({ base, storage := s.storage, isConst := s.isConst, isInline := s.isInline,
                 externC := s.externC, span } : DeclSpec), s.definition)) _ :=
    prev fun _ => pure _ left
  unfold Specifiers.finish
  dsimp only
  split
  · exact bind (pure _ (Nat.le_refl _)) rest
  · refine ite (fun _ => unexpected_bind _) fun _ => ?_
    split
    · exact bind (pure _ (Nat.le_refl _)) rest
    · exact throw_bind _

theorem tagKind (kw : Token) : Alike c c.rest.length (tagKind kw) (Syntax.tagKind kw) := by
  unfold Syntax.tagKind
  split
  · exact pure _ (Nat.le_refl _)
  · exact pure _ (Nat.le_refl _)
  · exact throw _
  · exact pure _ (Nat.le_refl _)

theorem tagName (kw : Token) (record? : Option RecordKind) (name? : Option String) (hasBody inTypedef : Bool) :
    Alike c c.rest.length (tagName kw record? name? hasBody inTypedef) (Syntax.tagName kw record? name? hasBody inTypedef) := by
  unfold Syntax.tagName
  cases name? with
  | some name => exact pure name (Nat.le_refl _)
  | none =>
    refine ite (fun _ => ?_) fun _ => ite (fun _ => freshName _) fun _ => throw _
    refine get ?_
    split
    · exact pure _ (Nat.le_refl _)
    · exact freshName _

theorem recordTag {kw : Token} {kind : RecordKind} {name : String} {hasBody : Bool} {body body' : Parser (List FieldDecl)}
    (h : ∀ c', c'.rest.length ≤ c.rest.length → Alike c' c'.rest.length body body') :
    Alike c c.rest.length (recordTag kw kind name hasBody body) (Syntax.recordTag kw kind name hasBody body') := by
  refine bind (addTypeName name) fun _ c₁ left₁ => ite (fun _ => ?_) fun _ => ?_
  · exact bind (h c₁ left₁) fun fields c₂ left₂ => prev fun _ => pure _ (by omega)
  · exact isAtPunct fun b => ite (fun _ => prev fun _ => pure _ left₁) fun _ => pure _ left₁

theorem enumTag {kw : Token} {name : String} {hasBody : Bool} {values values' : Parser (List Enumerator)}
    (h : ∀ c', c'.rest.length ≤ c.rest.length → Alike c' c'.rest.length values values') :
    Alike c c.rest.length (enumTag kw name hasBody values) (Syntax.enumTag kw name hasBody values') := by
  have rest (c' : Cursor) (left : c'.rest.length ≤ c.rest.length) (base : BaseType) (name? : Option String) :
      Alike c' c.rest.length (do
        if hasBody then
          let _ ← Parser.advance
          let variants ← values
          let _ ← Parser.expect .rbrace
          let span := kw.span.merge (← Parser.prev)
          return (base, some (⟨.enum name? variants, span⟩ : Decl))
        else return (base, none)) (do
        if hasBody then
          let _ ← Parser.advance
          let variants ← values'
          let _ ← Parser.expect .rbrace
          let span := kw.span.merge (← Parser.prev)
          return (base, some (⟨.enum name? variants, span⟩ : Decl))
        else return (base, none)) := by
    refine ite (fun _ => advance fun _ c₁ left₁ => ?_) fun _ => pure _ left
    refine bind (h c₁ (by omega)) fun variants c₂ left₂ => expect fun _ c₃ left₃ => prev fun _ => pure _ (by omega)
  exact ite (fun _ => bind (addTypeName name) fun _ c₁ left₁ => rest c₁ left₁ _ _) fun _ => rest c (Nat.le_refl _) _ _

end Alike

/-! ## The rules -/

/-- With 40 calls for each token that is left and `rank` more, one call more changes nothing. -/
def Settled (rank depth : Nat) (rule : Nat → Parser α) : Prop :=
  ∀ c : Cursor, 40 * c.rest.length + rank ≤ depth → Alike c c.rest.length (rule (depth + 1)) (rule depth)

/-- Each rule with its rank. -/
structure Depths (depth : Nat) : Prop where
  primary : Settled 1 depth primary
  postfixTail : ∀ e, Settled 1 depth (postfixTail · e)
  unary : Settled 2 depth unary
  binaryTail : ∀ min lhs, Settled 1 depth (binaryTail · min lhs)
  binary : ∀ min, Settled 3 depth (binary · min)
  conditional : Settled 4 depth conditional
  assignment : Settled 5 depth assignment
  commaTail : ∀ lhs, Settled 1 depth (commaTail · lhs)
  expr : Settled 6 depth expr
  argumentList : Settled 6 depth argumentList
  arguments : Settled 7 depth arguments
  paramList : Settled 5 depth paramList
  /-- Parameters begin with a parenthesis. -/
  params : ∀ c : Cursor, 40 * c.rest.length + 1 ≤ depth →
    Alike c (c.rest.length - 1) (params (depth + 1)) (params depth)
  suffixes : ∀ first, Settled 2 depth (suffixes · first)
  declarator : ∀ abstract, Settled 3 depth (declarator · abstract)
  /-- A declarator reads the name that it may not do without. -/
  named : ∀ c : Cursor, 40 * c.rest.length + 3 ≤ depth →
    Alike c (c.rest.length - 1) (Syntax.declarator (depth + 1) false) (Syntax.declarator depth false)
  fieldDeclarators : Settled 4 depth fieldDeclarators
  fieldDecls : Settled 5 depth fieldDecls
  recordBody : Settled 1 depth recordBody
  enumerators : Settled 1 depth enumerators
  /-- Tags begin with a keyword. -/
  tagged : ∀ inTypedef, ∀ c : Cursor, 40 * c.rest.length + 2 ≤ depth →
    Alike c (c.rest.length - 1) (tagged (depth + 1) inTypedef) (tagged depth inTypedef)
  specifiers : ∀ s, Settled 3 depth (specifiers · s)
  declSpec : Settled 4 depth declSpec
  typeName : Settled 5 depth typeName

namespace Alike

variable {depth : Nat}

theorem expr_succ (ih : Depths depth) : Settled 6 (depth + 1) expr := by
  intro c enough
  refine bind (ih.assignment c (by omega)) fun lhs c' left => ?_
  exact (ih.commaTail lhs c' (by omega)).mono left

theorem commaTail_succ (ih : Depths depth) (lhs : Expr) : Settled 1 (depth + 1) (commaTail · lhs) := by
  intro c enough
  refine eat (fun c₁ left₁ => ?_) (pure lhs (Nat.le_refl _))
  refine bind (ih.assignment c₁ (by omega)) fun rhs c₂ left₂ => ?_
  exact (ih.commaTail _ c₂ (by omega)).mono (by omega)

theorem assignment_succ (ih : Depths depth) : Settled 5 (depth + 1) assignment := by
  intro c enough
  refine bind (ih.conditional c (by omega)) fun lhs c₁ left₁ => kind ?_
  dsimp only
  split
  · exact pure lhs left₁
  · rename_i op found
    have some : 0 < c₁.rest.length := by
      refine Cursor.length_pos fun eof => ?_
      rw [eof] at found
      cases found
    refine advance fun t c₂ left₂ => bind (ih.assignment c₂ (by omega)) fun rhs c₃ left₃ => ?_
    exact pure _ (by omega)

theorem conditional_succ (ih : Depths depth) : Settled 4 (depth + 1) conditional := by
  intro c enough
  refine bind (ih.binary 0 c (by omega)) fun cond c₁ left₁ => eat (fun c₂ left₂ => ?_) (pure cond left₁)
  refine bind (ih.expr c₂ (by omega)) fun yes c₃ left₃ => expect fun _ c₄ left₄ => ?_
  refine bind (ih.conditional c₄ (by omega)) fun no c₅ left₅ => pure _ (by omega)

theorem binary_succ (ih : Depths depth) (min : Nat) : Settled 3 (depth + 1) (binary · min) := by
  intro c enough
  refine bind (ih.unary c (by omega)) fun lhs c' left => ?_
  exact (ih.binaryTail min lhs c' (by omega)).mono left

theorem binaryTail_succ (ih : Depths depth) (min : Nat) (lhs : Expr) :
    Settled 1 (depth + 1) (binaryTail · min lhs) := by
  intro c enough
  refine kind ?_
  dsimp only
  split
  · exact pure lhs (Nat.le_refl _)
  · rename_i op found
    have some : 0 < c.rest.length := by
      refine Cursor.length_pos fun eof => ?_
      rw [eof] at found
      cases found
    refine ite (fun _ => pure lhs (Nat.le_refl _)) fun _ => advance fun t c₁ left₁ => ?_
    refine bind (ih.binary _ c₁ (by omega)) fun rhs c₂ left₂ => ?_
    exact (ih.binaryTail _ _ c₂ (by omega)).mono (by omega)

theorem unary_succ (ih : Depths depth) : Settled 2 (depth + 1) unary := by
  intro c enough
  have operand : Alike c c.rest.length (do Syntax.postfixTail (depth + 1) (← Syntax.primary (depth + 1)))
      (do Syntax.postfixTail depth (← Syntax.primary depth)) :=
    bind (ih.primary c (by omega)) fun e c' left => (ih.postfixTail e c' (by omega)).mono left
  refine here fun start => get ?_
  dsimp only
  split
  · rename_i here
    have some : 0 < c.rest.length := Cursor.length_pos (by simp [here])
    refine advance fun _ c₁ left₁ => get (ite (fun _ => ?_) fun _ => ?_)
    · refine advance fun _ c₂ left₂ => bind (ih.typeName c₂ (by omega)) fun r c₃ left₃ => ?_
      exact expect fun close c₄ left₄ => pure _ (by omega)
    · exact bind (ih.unary c₁ (by omega)) fun e c₂ left₂ => pure _ (by omega)
  · rename_i p here
    have some : 0 < c.rest.length := Cursor.length_pos (by simp [here])
    split
    · exact advance fun _ c₁ left₁ => bind (ih.unary c₁ (by omega)) fun e c₂ left₂ => pure _ (by omega)
    · refine ite (fun _ => ?_) fun _ => operand
      refine advance fun _ c₁ left₁ => bind (ih.typeName c₁ (by omega)) fun r c₂ left₂ => ?_
      exact expect fun _ c₃ left₃ => bind (ih.unary c₃ (by omega)) fun e c₄ left₄ => pure _ (by omega)
  · exact operand

theorem primary_succ (ih : Depths depth) : Settled 1 (depth + 1) primary := by
  intro c enough
  refine here fun start => eat (fun c₁ left₁ => ?_) (kind ?_)
  · refine bind (ih.expr c₁ (by omega)) fun e c₂ left₂ => ?_
    exact expect fun close c₃ left₃ => pure _ (by omega)
  · split
    · exact advance fun _ c₁ left₁ => pure _ (by omega)
    · exact unexpected _

theorem postfixTail_succ (ih : Depths depth) (e : Expr) : Settled 1 (depth + 1) (postfixTail · e) := by
  intro c enough
  refine kind ?_
  split
  case h_7 => exact pure e (Nat.le_refl _)
  all_goals
    rename_i here
    have some : 0 < c.rest.length := Cursor.length_pos (by simp [here])
  · refine advance fun _ c₁ left₁ => bind (ih.expr c₁ (by omega)) fun index c₂ left₂ => expect fun close c₃ left₃ => ?_
    exact (ih.postfixTail _ c₃ (by omega)).mono (by omega)
  · refine advance fun _ c₁ left₁ => bind (ih.arguments c₁ (by omega)) fun args c₂ left₂ => expect fun close c₃ left₃ => ?_
    exact (ih.postfixTail _ c₃ (by omega)).mono (by omega)
  · refine advance fun _ c₁ left₁ => expectIdent fun _ c₂ left₂ => ?_
    exact (ih.postfixTail _ c₂ (by omega)).mono (by omega)
  · refine advance fun _ c₁ left₁ => expectIdent fun _ c₂ left₂ => ?_
    exact (ih.postfixTail _ c₂ (by omega)).mono (by omega)
  · exact advance fun _ c₁ left₁ => (ih.postfixTail _ c₁ (by omega)).mono (by omega)
  · exact advance fun _ c₁ left₁ => (ih.postfixTail _ c₁ (by omega)).mono (by omega)

theorem arguments_succ (ih : Depths depth) : Settled 7 (depth + 1) arguments := by
  intro c enough
  refine isAtPunct fun b => ite (fun _ => pure _ (Nat.le_refl _)) fun _ => ?_
  exact ih.argumentList c (by omega)

theorem argumentList_succ (ih : Depths depth) : Settled 6 (depth + 1) argumentList := by
  intro c enough
  refine bind (ih.assignment c (by omega)) fun e c₁ left₁ => eat (fun c₂ left₂ => ?_) (pure _ left₁)
  exact bind (ih.argumentList c₂ (by omega)) fun es c₃ left₃ => pure _ (by omega)

theorem typeName_succ (ih : Depths depth) : Settled 5 (depth + 1) typeName := by
  intro c enough
  refine here fun start => bind (ih.declSpec c (by omega)) fun r c₁ left₁ => ite (fun _ => throw_bind _) fun _ => ?_
  refine bind (ih.declarator true c₁ (by omega)) fun d c₂ left₂ => ite (fun _ => throw_bind _) fun _ => ?_
  exact pure _ (by omega)

theorem declSpec_succ (ih : Depths depth) : Settled 4 (depth + 1) declSpec := by
  intro c enough
  exact here fun start => bind (ih.specifiers {} c (by omega)) fun s c₁ left₁ => (finish s start).mono left₁

theorem specifiers_succ (ih : Depths depth) (s : Specifiers) : Settled 3 (depth + 1) (specifiers · s) := by
  intro c enough
  refine kind ?_
  dsimp only
  split
  case h_14 => exact pure s (Nat.le_refl _)
  all_goals
    rename_i here
    have some : 0 < c.rest.length := Cursor.length_pos (by simp [here])
    have again (s : Specifiers) (c' : Cursor) (left : c'.rest.length < c.rest.length) :
        Alike c' c.rest.length (Syntax.specifiers (depth + 1) s) (Syntax.specifiers depth s) :=
      (ih.specifiers s c' (by omega)).mono (by omega)
  case h_3 =>
    refine advance fun _ c₁ left₁ => kind ?_
    split
    · exact advance fun _ c₂ left₂ => again _ c₂ (by omega)
    · exact again _ c₁ (by omega)
  case h_8 | h_9 | h_10 | h_11 =>
    refine ite (fun _ => unexpected_bind _) fun _ => bind (ih.tagged _ c (by omega)) fun r c₁ left₁ => ?_
    exact again _ c₁ (by omega)
  case h_12 =>
    refine ite (fun _ => ite (fun _ => unexpected_bind _) fun _ => ?_) fun _ => pure s (Nat.le_refl _)
    exact advance fun _ c₁ left₁ => again _ c₁ (by omega)
  case h_13 =>
    refine get (ite (fun _ => ?_) fun _ => pure s (Nat.le_refl _))
    exact advance fun _ c₁ left₁ => again _ c₁ (by omega)
  all_goals exact advance fun _ c₁ left₁ => again _ c₁ (by omega)

theorem tagged_succ (ih : Depths depth) (inTypedef : Bool) (c : Cursor) (enough : 40 * c.rest.length + 2 ≤ depth + 1) :
    Alike c (c.rest.length - 1) (Syntax.tagged (depth + 2) inTypedef) (Syntax.tagged (depth + 1) inTypedef) := by
  refine advance fun kw c₁ left₁ => bind (tagKind kw) fun record? c₂ left₂ => ident? fun name? c₃ left₃ _ => ?_
  refine isAtPunct fun hasBody => bind (tagName kw record? name? hasBody inTypedef) fun name c₄ left₄ => ?_
  cases record? with
  | some kind =>
    exact (recordTag fun c' left => ih.recordBody c' (by omega)).mono (by omega)
  | none =>
    exact (enumTag fun c' left => ih.enumerators c' (by omega)).mono (by omega)

theorem enumerators_succ (ih : Depths depth) : Settled 1 (depth + 1) enumerators := by
  intro c enough
  refine isAtPunct fun b => ite (fun _ => pure _ (Nat.le_refl _)) fun _ => expectIdent fun x c₁ left₁ => ?_
  have rest (value : Option Expr) (c' : Cursor) (left : c'.rest.length ≤ c₁.rest.length) : Alike c' c.rest.length (do
      let e : Enumerator := { name := x.1, value, span := x.2.merge (← Parser.prev) }
      if ← Parser.eat .comma then return e :: (← Syntax.enumerators (depth + 1)) else return [e]) (do
      let e : Enumerator := { name := x.1, value, span := x.2.merge (← Parser.prev) }
      if ← Parser.eat .comma then return e :: (← Syntax.enumerators depth) else return [e]) := by
    refine prev fun _ => eat (fun c₂ left₂ => ?_) (pure _ (by omega))
    exact bind (ih.enumerators c₂ (by omega)) fun es c₃ left₃ => pure _ (by omega)
  refine eat (fun c₂ left₂ => ?_) ?_
  · exact bind (map _ (ih.conditional c₂ (by omega))) fun value c₃ left₃ => rest value c₃ (by omega)
  · exact bind (pure _ (Nat.le_refl _)) rest

theorem recordBody_succ (ih : Depths depth) : Settled 1 (depth + 1) recordBody := by
  intro c enough
  refine expect fun _ c₁ left₁ => bind (ih.fieldDecls c₁ (by omega)) fun fields c₂ left₂ => ?_
  exact expect fun _ c₃ left₃ => pure _ (by omega)

theorem fieldDecls_succ (ih : Depths depth) : Settled 5 (depth + 1) fieldDecls := by
  intro c enough
  refine kind ?_
  split
  · exact pure _ (Nat.le_refl _)
  · rename_i here
    have some : 0 < c.rest.length := Cursor.length_pos (by simp [here])
    refine advance fun _ c₁ left₁ => expect fun _ c₂ left₂ => ?_
    exact (ih.fieldDecls c₂ (by omega)).mono (by omega)
  · rename_i here
    have some : 0 < c.rest.length := Cursor.length_pos (by simp [here])
    refine advance fun _ c₁ left₁ => expect fun _ c₂ left₂ => ?_
    exact (ih.fieldDecls c₂ (by omega)).mono (by omega)
  · exact unexpected _
  · refine here fun start => bind (ih.declSpec c (by omega)) fun r c₁ left₁ => ite (fun _ => throw_bind _) fun _ => ?_
    refine bind (ih.fieldDeclarators c₁ (by omega)) fun ds c₂ left₂ => expect fun _ c₃ left₃ => prev fun _ => ?_
    exact bind (ih.fieldDecls c₃ (by omega)) fun fs c₄ left₄ => pure _ (by omega)

theorem fieldDeclarators_succ (ih : Depths depth) : Settled 4 (depth + 1) fieldDeclarators := by
  intro c enough
  refine bind (ih.declarator false c (by omega)) fun d c₁ left₁ => ite (fun _ => throw_bind _) fun _ => ?_
  refine ite (fun _ => unexpected_bind _) fun _ => eat (fun c₂ left₂ => ?_) (pure _ left₁)
  exact bind (ih.fieldDeclarators c₂ (by omega)) fun ds c₃ left₃ => pure _ (by omega)

/-- A name is read, unless the declarator may do without one. -/
theorem declarator_succ (ih : Depths depth) {abstract : Bool} {c : Cursor} (enough : 40 * c.rest.length + 3 ≤ depth + 1)
    {n : Nat} (more : ∀ k ≤ c.rest.length, (abstract = false → k < c.rest.length) → k ≤ n) :
    Alike c n (declarator (depth + 2) abstract) (declarator (depth + 1) abstract) := by
  refine here fun start => pointers fun stars c₁ left₁ => get (ite (fun _ => throw_bind _) fun _ => ?_)
  refine ident? fun name c₂ left₂ less => ite (fun _ => unexpected_bind _) fun named => ?_
  refine bind (ih.suffixes true c₂ (by omega)) fun ss c₃ left₃ => prev fun _ => pure _ (more _ (by omega) fun strict => ?_)
  have less := less (by simpa [strict, Option.isSome_iff_ne_none] using named)
  omega

theorem suffixes_succ (ih : Depths depth) (first : Bool) : Settled 2 (depth + 1) (suffixes · first) := by
  intro c enough
  refine eat (fun c₁ left₁ => ?_) (get (ite (fun params => ?_) fun _ => pure _ (Nat.le_refl _)))
  · have rest (s : Suffix) (c' : Cursor) (left : c'.rest.length ≤ c₁.rest.length) : Alike c' c.rest.length (do
        let _ ← Parser.expect .rbracket
        return s :: (← Syntax.suffixes (depth + 1) false)) (do
        let _ ← Parser.expect .rbracket
        return s :: (← Syntax.suffixes depth false)) :=
      expect fun _ c₂ left₂ => bind (ih.suffixes false c₂ (by omega)) fun ss c₃ left₃ => pure _ (by omega)
    refine isAtPunct fun b => ite (fun _ => ?_) fun _ => ?_
    · exact bind (pure _ (Nat.le_refl _)) rest
    · exact bind (map _ (ih.conditional c₁ (by omega))) rest
  · simp only [Bool.and_eq_true] at params
    have some := Cursor.length_pos_of_isPunct params.1.1
    refine bind (ih.params c (by omega)) fun s c₁ left₁ => ?_
    exact bind (ih.suffixes false c₁ (by omega)) fun ss c₂ left₂ => pure _ (by omega)

theorem params_succ (ih : Depths depth) (c : Cursor) (enough : 40 * c.rest.length + 1 ≤ depth + 1) :
    Alike c (c.rest.length - 1) (Syntax.params (depth + 2)) (Syntax.params (depth + 1)) := by
  have rest (r : List Param × Bool) (c' : Cursor) (left : c'.rest.length ≤ c.rest.length - 1) :
      Alike c' (c.rest.length - 1) (do
        let _ ← Parser.expect .rparen
        return Suffix.function r.1 r.2) (do
        let _ ← Parser.expect .rparen
        return Suffix.function r.1 r.2) :=
    expect fun _ c₁ left₁ => pure _ (by omega)
  refine expect fun _ c₁ left₁ => get (ite (fun _ => ?_) fun _ => ite (fun _ => ?_) fun _ => ?_)
  · exact advance fun _ c₂ left₂ => bind (pure _ (Nat.le_refl _)) fun r c₃ left₃ => rest r c₃ (by omega)
  · exact bind (pure _ (Nat.le_refl _)) fun r c₂ left₂ => rest r c₂ (by omega)
  · exact bind (ih.paramList c₁ (by omega)) fun r c₂ left₂ => rest r c₂ (by omega)

theorem paramList_succ (ih : Depths depth) : Settled 5 (depth + 1) paramList := by
  intro c enough
  refine eat (fun c₁ left₁ => pure _ (by omega)) (here fun start => ?_)
  refine bind (ih.declSpec c (by omega)) fun r c₁ left₁ => ite (fun _ => throw_bind _) fun _ => ?_
  refine bind (ih.declarator true c₁ (by omega)) fun d c₂ left₂ => prev fun _ => ?_
  refine eat (fun c₃ left₃ => ?_) (pure _ (by omega))
  exact bind (ih.paramList c₃ (by omega)) fun ps c₄ left₄ => pure _ (by omega)

end Alike

theorem depths (depth : Nat) : Depths depth := by
  induction depth with
  | zero => constructor <;> intros <;> first | omega | (intro c enough; omega)
  | succ depth ih =>
    exact {
      primary := Alike.primary_succ ih
      postfixTail := Alike.postfixTail_succ ih
      unary := Alike.unary_succ ih
      binaryTail := Alike.binaryTail_succ ih
      binary := Alike.binary_succ ih
      conditional := Alike.conditional_succ ih
      assignment := Alike.assignment_succ ih
      commaTail := Alike.commaTail_succ ih
      expr := Alike.expr_succ ih
      argumentList := Alike.argumentList_succ ih
      arguments := Alike.arguments_succ ih
      paramList := Alike.paramList_succ ih
      params := Alike.params_succ ih
      suffixes := Alike.suffixes_succ ih
      declarator := fun abstract c enough => Alike.declarator_succ ih enough fun k le _ => le
      named := fun c enough => Alike.declarator_succ ih enough fun k _ less => Nat.le_sub_one_of_lt (less rfl)
      fieldDeclarators := Alike.fieldDeclarators_succ ih
      fieldDecls := Alike.fieldDecls_succ ih
      recordBody := Alike.recordBody_succ ih
      enumerators := Alike.enumerators_succ ih
      tagged := Alike.tagged_succ ih
      specifiers := Alike.specifiers_succ ih
      declSpec := Alike.declSpec_succ ih
      typeName := Alike.typeName_succ ih }

/-- A depth that is enough gives the same result as any other one. -/
theorem Settled.eq {rank : Nat} {rule : Nat → Parser α} (h : ∀ depth, Settled rank depth rule) {c : Cursor} {d d' : Nat}
    (enough : 40 * c.rest.length + rank ≤ d) (enough' : 40 * c.rest.length + rank ≤ d') : rule d c = rule d' c := by
  have greater (n : Nat) : rule (40 * c.rest.length + rank + n) c = rule (40 * c.rest.length + rank) c := by
    induction n with
    | zero => rfl
    | succ n ih => exact (h _ c (Nat.le_add_right ..)).same.trans ih
  obtain ⟨n, rfl⟩ := Nat.exists_eq_add_of_le enough
  obtain ⟨n', rfl⟩ := Nat.exists_eq_add_of_le enough'
  rw [greater, greater]

theorem Settled.left {rank : Nat} {rule : Nat → Parser α} (h : ∀ depth, Settled rank depth rule) {c c' : Cursor} {d : Nat}
    {x : α} (enough : 40 * c.rest.length + rank ≤ d) (run : rule d c = .ok (x, c')) : c'.rest.length ≤ c.rest.length := by
  rw [Settled.eq h enough (Nat.le_succ _)] at run
  exact (h _ c (Nat.le_refl _)).left x c' run

/-- An operand is read in the same way at any depth that is enough. -/
theorem unary_eq {c : Cursor} {d : Nat} (enough : 40 * c.rest.length + 2 ≤ d) : unary d c = unary c.depthFor c :=
  Settled.eq (fun depth => (depths depth).unary) enough (by unfold Cursor.depthFor; omega)

end IncrementalC.Syntax
