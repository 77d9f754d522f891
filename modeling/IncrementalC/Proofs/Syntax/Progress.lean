import IncrementalC.Proofs.Syntax.Depth
import IncrementalC.Proofs.Unit.Rollback

/-!
# The parser makes progress

The rules for declarations and statements have ranks like those for expressions (`Depths`). A group of declarations reads at
least one token, and so does a statement; that is why `declarators` and `stmts` come back to themselves with fewer tokens.

`Cursor.StandsAt tokens pos c` says that `c` stands at token `pos` of a text that ends with its only end mark. Each call of
`topLevel?` there gives a result without using up a bound, goes on to a later token when it gives a group, and gives none
only at the end mark, outside of all linkage blocks (`parser_progresses`). So the loop over the groups of a fragment comes to
an end, `ReadsAll`, and the bound on its rounds plays no part.
-/
namespace IncrementalC.Syntax
set_option autoImplicit false

variable {α β : Type}

/-- Like `Settled`, for a rule that reads a token at least. -/
def SettledOn (rank depth : Nat) (rule : Nat → Parser α) : Prop :=
  ∀ c : Cursor, 40 * c.rest.length + rank ≤ depth → Alike c (c.rest.length - 1) (rule (depth + 1)) (rule depth)

namespace Alike

variable {c : Cursor} {n : Nat}

/-! ## Declarations -/

theorem initializer_settled (depth : Nat) : Settled 6 depth initializer ∧ Settled 7 depth initializers := by
  induction depth with
  | zero => constructor <;> (intro c enough; omega)
  | succ depth ih =>
    obtain ⟨one, all⟩ := ih
    refine ⟨fun c enough => ?_, fun c enough => ?_⟩
    · refine atPunct (fun some => ?_) ?_
      · refine here fun start => advance fun _ c₁ left₁ => bind (all c₁ (by omega)) fun items c₂ left₂ => ?_
        exact expect fun close c₃ left₃ => pure _ (by omega)
      · exact bind ((depths depth).assignment c (by omega)) fun e c₁ left₁ => pure _ left₁
    · refine isAtPunct fun b => ite (fun _ => pure _ (Nat.le_refl _)) fun _ => ?_
      refine bind (one c (by omega)) fun i c₁ left₁ => eat (fun c₂ left₂ => ?_) (pure _ left₁)
      exact bind (all c₂ (by omega)) fun is c₃ left₃ => pure _ (by omega)

theorem initialValue?_settled (depth : Nat) : Settled 0 depth initialValue? := by
  intro c enough
  refine eat (fun c₁ left₁ => ?_) (atPunct (fun some => ?_) (pure _ (Nat.le_refl _)))
  · exact bind ((initializer_settled depth).1 c₁ (by omega)) fun i c₂ left₂ => pure _ (by omega)
  · refine here fun start => advance fun _ c₁ left₁ => bind ((depths depth).arguments c₁ (by omega)) fun args c₂ left₂ => ?_
    exact expect fun close c₃ left₃ => pure _ (by omega)

theorem plainDecl_settled (spec : DeclSpec) (name : String) (d : Declarator) (depth : Nat) :
    Settled 0 depth (plainDecl · spec name d) := by
  intro c enough
  refine ite (fun _ => bind (addTypeName name) fun _ c₁ left₁ => pure _ left₁) fun _ => ?_
  refine ite (fun _ => pure _ (Nat.le_refl _)) fun _ => ?_
  exact bind (initialValue?_settled depth c enough) fun value c₁ left₁ => pure _ left₁

theorem declarators_settled (atTop : Bool) (start : Span) (spec : DeclSpec) (depth : Nat) (first : Bool) (before : List Decl) :
    SettledOn 4 depth (declarators atTop start spec · first before) := by
  induction depth generalizing first before with
  | zero => intro c enough; omega
  | succ depth ih =>
    intro c enough
    refine bind ((depths depth).named c (by omega)) fun d c₁ left₁ => isAtPunct fun atBody => ite (fun _ => ?_) fun _ => ?_
    · refine ite (fun _ => throw_bind _) fun _ => ite (fun _ => unexpected_bind _) fun _ => ?_
      exact pure _ left₁
    · refine bind (plainDecl_settled spec _ d depth c₁ (by omega)) fun kind c₂ left₂ => prev fun _ => ?_
      refine eat (fun c₃ left₃ => ?_) (expect fun _ c₃ left₃ => prev fun _ => pure _ (by omega))
      exact (ih false _ c₃ (by omega)).mono (by omega)

theorem groupOrHead_settled (atTop : Bool) (depth : Nat) : SettledOn 4 depth (groupOrHead atTop) := by
  intro c enough
  refine here fun start => bind ((depths depth).declSpec c (by omega)) fun r c₁ left₁ => eat (fun c₂ left₂ => ?_) ?_
  · cases r.2 with
    | none => exact throw _
    | some d => exact prev fun _ => pure _ (by omega)
  · exact (declarators_settled atTop start r.1 depth true _ c₁ (by omega)).mono (by omega)

theorem localGroup_settled (depth : Nat) : SettledOn 4 depth localGroup := by
  intro c enough
  refine bind (groupOrHead_settled false depth c enough) fun r c₁ left₁ => ?_
  cases r with
  | group g => exact pure g left₁
  | head start g => exact pure g left₁

/-! ## Statements -/

theorem freshId {f f' : Nat → Parser β} (h : ∀ i c', c'.rest.length ≤ c.rest.length → Alike c' n (f i) (f' i)) :
    Alike c n (Parser.freshId >>= f) (Parser.freshId >>= f') :=
  bind (of_rest ⟨_, _, rfl, rfl, rfl⟩) h

theorem node (start : Span) {f f' : Node → Parser β} (h : ∀ x c', c'.rest.length ≤ c.rest.length → Alike c' n (f x) (f' x)) :
    Alike c n (Parser.node start >>= f) (Parser.node start >>= f') :=
  bind (of_rest ⟨_, _, rfl, rfl, rfl⟩) h

theorem condition_settled (depth : Nat) : Settled 0 depth condition := by
  intro c enough
  refine expect fun _ c₁ left₁ => bind ((depths depth).expr c₁ (by omega)) fun e c₂ left₂ => ?_
  exact expect fun _ c₃ left₃ => pure e (by omega)

theorem exprUnless_settled (p : Punct) (depth : Nat) : Settled 6 depth (exprUnless p) := by
  intro c enough
  refine isAtPunct fun b => ite (fun _ => pure _ (Nat.le_refl _)) fun _ => ?_
  exact bind ((depths depth).expr c enough) fun e c₁ left₁ => pure _ left₁

theorem forInit_settled (depth : Nat) : Settled 6 depth forInit := by
  intro c enough
  refine eat (fun c₁ left₁ => pure _ (by omega)) (get (ite (fun _ => ?_) fun _ => ?_))
  · exact bind (localGroup_settled depth c (by omega)) fun g c₁ left₁ => freshId fun _ c₂ left₂ => pure _ (by omega)
  · refine bind ((depths depth).expr c enough) fun e c₁ left₁ => expect fun _ c₂ left₂ => prev fun _ => ?_
    exact freshId fun _ c₃ left₃ => pure _ (by omega)

end Alike

/-- The rules for statements with their ranks. -/
structure StatementDepths (depth : Nat) : Prop where
  block : SettledOn 1 depth block
  stmt : SettledOn 7 depth stmt
  stmts : Settled 8 depth stmts

namespace Alike

variable {depth : Nat}

theorem block_succ (ih : StatementDepths depth) : SettledOn 1 (depth + 1) block := by
  intro c enough
  refine expect fun start c₁ left₁ => bind (ih.stmts c₁ (by omega)) fun ss c₂ left₂ => expect fun close c₃ left₃ => ?_
  exact freshId fun _ c₄ left₄ => pure _ (by omega)

theorem stmts_succ (ih : StatementDepths depth) : Settled 8 (depth + 1) stmts := by
  intro c enough
  refine kind ?_
  split
  · exact pure _ (Nat.le_refl _)
  · exact unexpected _
  · rename_i notEnd
    have some : 0 < c.rest.length := Cursor.length_pos notEnd
    refine bind (ih.stmt c (by omega)) fun s c₁ left₁ => bind (ih.stmts c₁ (by omega)) fun ss c₂ left₂ => ?_
    exact pure _ (by omega)

theorem stmt_succ (ih : StatementDepths depth) : SettledOn 7 (depth + 1) stmt := by
  intro c enough
  refine here fun start => kind ?_
  split
  case h_16 =>
    refine get (ite (fun _ => ?_) fun _ => ?_)
    · exact bind (localGroup_settled depth c (by omega)) fun g c₁ left₁ => node start fun _ c₂ left₂ => pure _ (by omega)
    · refine bind ((depths depth).expr c (by omega)) fun e c₁ left₁ => expect fun _ c₂ left₂ => ?_
      exact node start fun _ c₃ left₃ => pure _ (by omega)
  all_goals
    rename_i here
    have some : 0 < c.rest.length := Cursor.length_pos (by simp [here])
  case h_1 => exact ih.block c (by omega)
  case h_2 | h_3 => exact advance fun _ c₁ left₁ => node start fun _ c₂ left₂ => pure _ (by omega)
  case h_4 =>
    refine advance fun _ c₁ left₁ => bind (condition_settled depth c₁ (by omega)) fun cond c₂ left₂ => ?_
    refine bind (ih.stmt c₂ (by omega)) fun yes c₃ left₃ => kind (ite (fun _ => ?_) fun _ => ?_)
    · refine advance fun _ c₄ left₄ => bind (ih.stmt c₄ (by omega)) fun no c₅ left₅ => ?_
      exact node start fun _ c₆ left₆ => pure _ (by omega)
    · exact node start fun _ c₄ left₄ => pure _ (by omega)
  case h_5 =>
    refine advance fun _ c₁ left₁ => bind (condition_settled depth c₁ (by omega)) fun cond c₂ left₂ => ?_
    exact bind (ih.stmt c₂ (by omega)) fun body c₃ left₃ => node start fun _ c₄ left₄ => pure _ (by omega)
  case h_6 =>
    refine advance fun _ c₁ left₁ => bind (ih.stmt c₁ (by omega)) fun body c₂ left₂ => expectKeyword fun _ c₃ left₃ => ?_
    refine bind (condition_settled depth c₃ (by omega)) fun cond c₄ left₄ => expect fun _ c₅ left₅ => ?_
    exact node start fun _ c₆ left₆ => pure _ (by omega)
  case h_7 =>
    refine advance fun _ c₁ left₁ => expect fun _ c₂ left₂ => bind (forInit_settled depth c₂ (by omega)) fun init c₃ left₃ => ?_
    refine bind (exprUnless_settled _ depth c₃ (by omega)) fun cond c₄ left₄ => expect fun _ c₅ left₅ => ?_
    refine bind (exprUnless_settled _ depth c₅ (by omega)) fun step c₆ left₆ => expect fun _ c₇ left₇ => ?_
    exact bind (ih.stmt c₇ (by omega)) fun body c₈ left₈ => node start fun _ c₉ left₉ => pure _ (by omega)
  case h_8 | h_9 =>
    exact advance fun _ c₁ left₁ => expect fun _ c₂ left₂ => node start fun _ c₃ left₃ => pure _ (by omega)
  case h_10 =>
    refine advance fun _ c₁ left₁ => bind (exprUnless_settled _ depth c₁ (by omega)) fun value c₂ left₂ => ?_
    exact expect fun _ c₃ left₃ => node start fun _ c₄ left₄ => pure _ (by omega)
  all_goals exact throw _

end Alike

theorem statementDepths (depth : Nat) : StatementDepths depth := by
  induction depth with
  | zero => constructor <;> (intro c enough; omega)
  | succ depth ih => exact ⟨Alike.block_succ ih, Alike.stmt_succ ih, Alike.stmts_succ ih⟩

/-! ## Top level -/

/-- What a rule does with the calls that `depthFor` gives it. -/
theorem SettledOn.atDepthFor {rank : Nat} {rule : Nat → Parser α} (h : ∀ depth, SettledOn rank depth rule)
    (small : rank ≤ 39) (c : Cursor) :
    MovesOn c (rule c.depthFor) ∧ ∀ x c', rule c.depthFor c = .ok (x, c') → c'.rest.length ≤ c.rest.length - 1 :=
  have run : Alike c (c.rest.length - 1) (rule c.depthFor) _ := h (40 * c.rest.length + 39) c (by omega)
  ⟨run.toMovesOn, run.left⟩

/-- What may come of moving over separators and marks of linkage blocks at `c`. -/
inductive Skipped (c : Cursor) : Except ParseError (Cursor × Bool) → Prop where
  | failed (e : ParseError) (shallow : ¬e.IsTooDeep) : Skipped c (.error e)
  /-- A group begins with a token. -/
  | atToken {c' : Cursor} (ahead : c.Ahead c') (notEnd : c'.kind ≠ .eof) : Skipped c (.ok (c', true))
  | ended {c' : Cursor} (ahead : c.Ahead c') (atEnd : c'.kind = .eof) (closed : c'.openBlocks = 0) : Skipped c (.ok (c', false))

theorem Skipped.after {c c₁ : Cursor} (ahead : c.Ahead c₁) {r : Except ParseError (Cursor × Bool)} (h : Skipped c₁ r) :
    Skipped c r := by
  cases h with
  | failed e shallow => exact .failed e shallow
  | atToken ahead' notEnd => exact .atToken (ahead.trans ahead') notEnd
  | ended ahead' atEnd closed => exact .ended (ahead.trans ahead') atEnd closed

/-- The bound, one more than the number of tokens, is not used up. -/
theorem Cursor.skipped_skipMarks {n : Nat} : ∀ {c : Cursor}, c.rest.length < n → Skipped c (c.skipMarks n) := by
  induction n with
  | zero => intro c lt; omega
  | succ n ih =>
    intro c lt
    have later {c₁ : Cursor} (ahead : c.Ahead c₁) (less : c₁.rest.length < c.rest.length) : Skipped c (c₁.skipMarks n) :=
      (ih (by omega)).after ahead
    have one := Ahead.advance c
    have less (notEnd : c.kind ≠ .eof) : c.advance.rest.length < c.rest.length :=
      Cursor.advance_lt (Cursor.length_pos notEnd)
    unfold Cursor.skipMarks
    split
    case h_1 here =>
      split
      · exact .failed _ (by rintro ⟨_, ⟨⟩⟩)
      · exact .ended (.refl c) here (by omega)
    case h_2 here | h_3 here => exact later one (less (by simp [here]))
    case h_4 => exact .failed _ (by rintro ⟨_, ⟨⟩⟩)
    case h_5 here =>
      split
      · exact later ⟨one.rest, one.stop⟩ (less (by simp [here]))
      · exact .atToken (.refl c) (by simp [here])
    case h_6 here =>
      split
      · have behind := (Ahead.advance c.advance).trans (Ahead.advance c.advance.advance)
        exact later ⟨(one.trans behind).rest, (one.trans behind).stop⟩
          (Nat.lt_of_le_of_lt behind.rest.length_le (less (by simp [here])))
      · exact .atToken (.refl c) (by simp [here])
    case h_7 => exact .atToken (.refl c) (by assumption)

/-- What may come of a call of `topLevel?` at `c`. -/
inductive Group (c : Cursor) : Except ParseFailure (Option TopLevel × Cursor) → Prop where
  | failed (e : ParseFailure) (shallow : ¬e.error.IsTooDeep) : Group c (.error e)
  | read (t : TopLevel) {c' : Cursor} (ahead : c.Ahead c') (fewer : c'.rest.length < c.rest.length) : Group c (.ok (some t, c'))
  | ended {c' : Cursor} (ahead : c.Ahead c') (atEnd : c'.kind = .eof) (closed : c'.openBlocks = 0) : Group c (.ok (none, c'))

theorem group_topLevel? (c : Cursor) : Group c (topLevel? c) := by
  have skipped := Cursor.skipped_skipMarks (Nat.lt_succ_self c.rest.length)
  unfold topLevel?
  dsimp only
  split
  case h_1 e run =>
    rw [run] at skipped
    cases skipped with
    | failed _ shallow => exact .failed _ shallow
  case h_2 c₁ run =>
    rw [run] at skipped
    cases skipped with
    | ended ahead atEnd closed => exact .ended ahead atEnd closed
  case h_3 c₁ run =>
    rw [run] at skipped
    cases skipped with
    | atToken ahead₁ notEnd =>
      have some := Cursor.length_pos notEnd
      have fewer₁ := ahead₁.rest.length_le
      obtain ⟨moves, left⟩ := SettledOn.atDepthFor (Alike.groupOrHead_settled true) (by decide) c₁
      split
      case h_1 e run => exact .failed _ (moves.shallow e run)
      case h_2 g c₂ run =>
        have left₂ := left _ _ run
        exact .read _ (ahead₁.trans (moves.ahead _ _ run)) (by omega)
      case h_3 start g c₂ run =>
        have left₂ := left _ _ run
        have ahead₂ := ahead₁.trans (moves.ahead _ _ run)
        obtain ⟨moves', left'⟩ := SettledOn.atDepthFor (fun depth => (statementDepths depth).block) (by decide) c₂
        split
        case h_1 body c₃ run' =>
          have left₃ := left' _ _ run'
          exact .read _ (ahead₂.trans (moves'.ahead _ _ run')) (by omega)
        case h_2 e run' => exact .failed _ (moves'.shallow e run')

/-! ## Places in a text -/

/-- The last token, and no other one, is an end mark. -/
def EndsOnce (tokens : List Token) : Prop :=
  ∃ body stop, tokens = body ++ [⟨.eof, stop⟩] ∧ ∀ t ∈ body, t.kind ≠ .eof

/-- The cursor stands at token `pos`. What it has read, and which names it takes for types, does not matter. -/
structure Cursor.StandsAt (tokens : List Token) (pos : Nat) (c : Cursor) : Prop where
  inside : pos < tokens.length
  rest : c.rest ++ [⟨.eof, c.stop⟩] = tokens.drop pos

namespace Cursor.StandsAt

variable {tokens : List Token} {pos : Nat} {c c' : Cursor}

theorem length (h : c.StandsAt tokens pos) : pos + c.rest.length + 1 = tokens.length := by
  have lengths := congrArg List.length h.rest
  have inside := h.inside
  simp only [List.length_append, List.length_singleton, List.length_drop] at lengths
  omega

/-- What the cursor reads ahead is in the text; behind its end the end mark is read again. -/
theorem getElem? (h : c.StandsAt tokens pos) (n : Nat) :
    tokens[min (pos + n) (tokens.length - 1)]? = some (c.rest[n]?.getD ⟨.eof, c.stop⟩) := by
  have length := h.length
  rcases Nat.lt_or_ge n c.rest.length with inside | behind
  · rw [Nat.min_eq_left (by omega), ← List.getElem?_drop, ← h.rest, List.getElem?_append_left inside]
    simp [inside]
  · have last : min (pos + n) (tokens.length - 1) = pos + c.rest.length := by omega
    rw [last, ← List.getElem?_drop, ← h.rest, List.getElem?_append_right (Nat.le_refl _), List.getElem?_eq_none behind]
    simp

theorem current (h : c.StandsAt tokens pos) : tokens[pos]? = some c.current := by
  have read := h.getElem? 0
  have inside := h.inside
  rw [Nat.add_zero, Nat.min_eq_left (by omega)] at read
  rw [read, Cursor.current, List.headD_eq_head?_getD, List.head?_eq_getElem?]

/-- From a place the cursor gets to later ones. -/
theorem ahead (h : c.StandsAt tokens pos) (ahead : c.Ahead c') : c'.StandsAt tokens (pos + (c.rest.length - c'.rest.length)) := by
  obtain ⟨read, rest⟩ := ahead.rest
  have skipped : c.rest.length - c'.rest.length = read.length := by
    rw [← rest, List.length_append, Nat.add_sub_cancel]
  have length := h.length
  rw [skipped]
  refine ⟨?_, ?_⟩
  · have whole := congrArg List.length rest
    rw [List.length_append] at whole
    omega
  · rw [← List.drop_drop, ← h.rest, ← rest, List.append_assoc, List.drop_left, ahead.stop]

/-- Where the end mark is read, the text ends. -/
theorem last (h : c.StandsAt tokens pos) (ends : EndsOnce tokens) (atEnd : c.kind = .eof) : pos = tokens.length - 1 := by
  obtain ⟨body, stop, rfl, noEnd⟩ := ends
  have inside := h.inside
  have current := h.current
  rw [List.length_append, List.length_singleton] at inside ⊢
  by_contra before
  rw [List.getElem?_append_left (by omega)] at current
  exact noEnd _ (List.mem_of_getElem? current) atEnd

end Cursor.StandsAt

theorem Cursor.at_ofTokens {tokens : List Token} (ends : EndsOnce tokens) (typeNames : List String) (nextId : Nat) :
    (Cursor.ofTokens tokens typeNames nextId).StandsAt tokens 0 := by
  obtain ⟨body, stop, rfl, noEnd⟩ := ends
  have notEnd : ∀ t ∈ body, t.kind.isEof = false := fun t mem => by
    have := noEnd t mem
    cases kind : t.kind <;> first | rfl | contradiction
  have kept : (body ++ [(⟨.eof, stop⟩ : Token)]).filter (fun t : Token => !t.kind.isEof) = body := by
    rw [List.filter_append, List.filter_eq_self.mpr fun t mem => by simp [notEnd t mem]]
    exact List.append_nil body
  have found : (body ++ [(⟨.eof, stop⟩ : Token)]).find? (fun t : Token => t.kind.isEof) = some ⟨.eof, stop⟩ := by
    rw [List.find?_append, List.find?_eq_none.mpr fun t mem => by simp [notEnd t mem]]
    rfl
  refine ⟨by simp, ?_⟩
  show List.filter _ _ ++ [_] = _
  unfold Cursor.ofTokens
  rw [kept, found]
  rfl

/-! ## All groups of a text -/

/-- The groups that are read from `c` on, until the text ends or an error is found. -/
inductive ReadsAll : Cursor → List TopLevel → Option ParseFailure → Prop where
  | ended {c c' : Cursor} (here : topLevel? c = .ok (none, c')) : ReadsAll c [] none
  | failed {c : Cursor} {e : ParseFailure} (here : topLevel? c = .error e) : ReadsAll c [] (some e)
  | group {c c' : Cursor} {t : TopLevel} {ts : List TopLevel} {e? : Option ParseFailure}
      (here : topLevel? c = .ok (some t, c')) (behind : ReadsAll c' ts e?) : ReadsAll c (t :: ts) e?

/-- Each group is a token long at least, so there are no more of them than tokens. -/
theorem exists_readsAll (c : Cursor) : ∃ ts e?, ReadsAll c ts e? ∧ ts.length ≤ c.rest.length := by
  induction h : c.rest.length using Nat.strongRecOn generalizing c with
  | _ n ih =>
    subst h
    have group := group_topLevel? c
    generalize run : topLevel? c = r at group
    cases group with
    | failed e shallow => exact ⟨[], some e, .failed run, Nat.zero_le _⟩
    | ended ahead atEnd closed => exact ⟨[], none, .ended run, Nat.zero_le _⟩
    | read t ahead fewer =>
      obtain ⟨ts, e?, behind, few⟩ := ih _ fewer _ rfl
      exact ⟨t :: ts, e?, .group run behind, by rw [List.length_cons]; omega⟩

/-- The loop over the groups of a fragment stops at the end of the input, not because its rounds are used up. -/
theorem readGroups_ended {σ : Type} {consumer : Consumer σ} {count : Nat} : ∀ {c c' : Cursor}
    {p p' : GrowingUnit.Progress σ}, c.rest.length < count →
    (GrowingUnit.readGroups consumer count c).run.run p = (.ok c', p') → c.Ahead c' ∧ c'.kind = .eof ∧ c'.openBlocks = 0 := by
  induction count with
  | zero => intro c c' p p' enough; omega
  | succ count ih =>
    intro c c' p p' enough run
    have group := group_topLevel? c
    unfold GrowingUnit.readGroups at run
    generalize topLevel? c = r at group run
    cases group with
    | failed e shallow => cases run
    | ended ahead atEnd closed =>
      cases run
      exact ⟨ahead, atEnd, closed⟩
    | read t ahead fewer =>
      obtain ⟨_, p₁, -, run⟩ := GrowingUnit.read_bind_ok run
      exact (ih (by omega) run).imp_left ahead.trans

/-- A cursor starts at the first token of a text, and wherever it stands, whatever it has met before:

* what it reads ahead is in the text;
* a call of `topLevel?` does not use up a bound, moves on when it gives a group, and gives none only at the end mark, with all
  linkage blocks closed;
* so the calls for all groups come to an end, and the loop that works them off ends where the text does. -/
theorem parser_progresses {tokens : List Token} (ends : EndsOnce tokens) :
    (∀ typeNames nextId, (Cursor.ofTokens tokens typeNames nextId).StandsAt tokens 0) ∧
    ∀ (pos : Nat) (c : Cursor), c.StandsAt tokens pos →
      (tokens[pos]? = some c.current ∧
        (tokens[min (pos + 1) (tokens.length - 1)]?).map (·.kind) = some c.second ∧
        (tokens[min (pos + 2) (tokens.length - 1)]?).map (·.kind) = some c.third) ∧
      (∀ e, topLevel? c = .error e → ¬e.error.IsTooDeep) ∧
      (∀ t c', topLevel? c = .ok (some t, c') → ∃ pos', pos < pos' ∧ c'.StandsAt tokens pos') ∧
      (∀ c', topLevel? c = .ok (none, c') → c'.StandsAt tokens (tokens.length - 1) ∧ c'.kind = .eof ∧ c'.openBlocks = 0) ∧
      (∃ ts e?, ReadsAll c ts e? ∧ ts.length + pos < tokens.length) ∧
      ∀ {σ : Type} (consumer : Consumer σ) (count : Nat) (c' : Cursor) (p p' : GrowingUnit.Progress σ),
        tokens.length ≤ pos + count → (GrowingUnit.readGroups consumer count c).run.run p = (.ok c', p') →
        c'.StandsAt tokens (tokens.length - 1) ∧ c'.kind = .eof ∧ c'.openBlocks = 0 := by
  refine ⟨Cursor.at_ofTokens ends, fun pos c here => ?_⟩
  have length := here.length
  have finished {c' : Cursor} (ahead : c.Ahead c') (atEnd : c'.kind = .eof) : c'.StandsAt tokens (tokens.length - 1) := by
    have there := here.ahead ahead
    rwa [there.last ends atEnd] at there
  have group := group_topLevel? c
  refine ⟨⟨here.current, ?_, ?_⟩, ?_, ?_, ?_, ?_, ?_⟩
  · rw [here.getElem? 1, Cursor.second, Option.map_some]
    cases c.rest[1]? <;> rfl
  · rw [here.getElem? 2, Cursor.third, Option.map_some]
    cases c.rest[2]? <;> rfl
  · intro e run
    rw [run] at group
    cases group with
    | failed _ shallow => exact shallow
  · intro t c' run
    rw [run] at group
    cases group with
    | read _ ahead fewer => exact ⟨_, by omega, here.ahead ahead⟩
  · intro c' run
    rw [run] at group
    cases group with
    | ended ahead atEnd closed => exact ⟨finished ahead atEnd, atEnd, closed⟩
  · obtain ⟨ts, e?, all, few⟩ := exists_readsAll c
    exact ⟨ts, e?, all, by omega⟩
  · intro σ consumer count c' p p' enough run
    obtain ⟨ahead, atEnd, closed⟩ := readGroups_ended (by omega) run
    exact ⟨finished ahead atEnd, atEnd, closed⟩

/-- One declaration of `x` is one group. -/
theorem parser_progresses_declaration :
    let tokens : List Token := [⟨.keyword .int, .none⟩, ⟨.ident "x", .none⟩, ⟨.punct .semi, .none⟩, ⟨.eof, .none⟩]
    EndsOnce tokens ∧ ∃ ts e?, ReadsAll (.ofTokens tokens [] 0) ts e? ∧ ts.length < 4 := by
  intro tokens
  have ends : EndsOnce tokens := ⟨tokens.take 3, .none, rfl, by simp [tokens]⟩
  have progress := parser_progresses ends
  have all := ((progress.2 0 _ (progress.1 [] 0)).2.2.2.2.1)
  exact ⟨ends, all⟩

end IncrementalC.Syntax
