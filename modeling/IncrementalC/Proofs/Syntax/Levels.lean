import IncrementalC.Syntax.Expression

/-!
# What the parser reads at each precedence

`Takes T m ks rest Q`: where tokens of the kinds `ks` are left and the names in `T` are types, the parser `m` reads
something that satisfies `Q` and leaves tokens of the kinds `rest`.

`Parses T k ks Q`: tokens of the kinds `ks` are read as a tree with `Q` by each rule that asks for precedence `k` or
less, if nothing follows that would be read as a part of them (`Before`). A rule that goes on in a loop is followed up
to the loop, so that what stands behind `ks` may be another round.

A rule with `n` tokens to read makes at most `8 * n + 7` nested calls.
-/
namespace IncrementalC.Syntax
set_option autoImplicit false

section Cursors

/-! ## Cursors -/

/-- The kinds of the tokens that are left, and the names that are types. -/
structure Cursor.At (T : List String) (c : Cursor) (ks : List TokenKind) : Prop where
  kinds : c.rest.map (·.kind) = ks
  types : c.typeNames = T

def startsType (T : List String) : TokenKind → Bool
  | .ident name => T.contains name
  | k => k.startsType

/-- The kind of the next token. -/
def next (ks : List TokenKind) : TokenKind := ks.headD .eof

namespace Cursor.At

variable {T : List String} {c : Cursor} {k : TokenKind} {ks : List TokenKind}

theorem kind_eq (h : c.At T ks) : c.kind = next ks := by
  unfold Cursor.kind Cursor.current next
  rw [← h.kinds]
  cases c.rest <;> rfl

theorem second_eq (h : c.At T ks) : c.second = next ks.tail := by
  unfold Cursor.second next
  rw [← h.kinds]
  match c.rest with
  | [] | [_] | _ :: _ :: _ => rfl

theorem startsType_eq (h : c.At T ks) (k : TokenKind) : c.startsType k = Syntax.startsType T k := by
  cases k with
  | ident name =>
    show c.typeNames.contains name = T.contains name
    rw [h.types]
  | _ => rfl

theorem advance (h : c.At T (k :: ks)) : c.current.kind = k ∧ c.advance.At T ks := by
  obtain ⟨t, r, rest, kind, kinds⟩ := List.map_eq_cons_iff.mp h.kinds
  unfold Cursor.current Cursor.advance
  rw [rest]
  exact ⟨kind, kinds, h.types⟩

end Cursor.At

/-! ## Steps -/

variable {α β : Type}

def Takes (T : List String) (m : Parser α) (ks rest : List TokenKind) (Q : α → Prop) : Prop :=
  ∀ c : Cursor, c.At T ks → ∃ x c', m c = .ok (x, c') ∧ c'.At T rest ∧ Q x

namespace Takes

variable {T : List String} {ks mid rest : List TokenKind} {k : TokenKind} {p : Punct} {Q M : α → Prop}

theorem mono {m : Parser α} {Q' : α → Prop} (h : Takes T m ks rest Q) (weaker : ∀ x, Q x → Q' x) :
    Takes T m ks rest Q' := by
  intro c standing
  obtain ⟨x, c', run, standing', holds⟩ := h c standing
  exact ⟨x, c', run, standing', weaker x holds⟩

theorem pure {x : α} (h : Q x) : Takes T (Pure.pure x) ks ks Q :=
  fun c standing => ⟨x, c, rfl, standing, h⟩

theorem bind {m : Parser α} {f : α → Parser β} {R : β → Prop} (hm : Takes T m ks mid M)
    (hf : ∀ x, M x → Takes T (f x) mid rest R) : Takes T (m >>= f) ks rest R := by
  intro c standing
  obtain ⟨x, c₁, run, standing₁, holds⟩ := hm c standing
  obtain ⟨y, c', run', standing', result⟩ := hf x holds c₁ standing₁
  refine ⟨y, c', ?_, standing', result⟩
  show (m c >>= fun r => f r.1 r.2) = _
  rw [run]
  exact run'

theorem mapTo {m : Parser α} {f : α → β} {R : β → Prop} (hm : Takes T m ks rest Q) (hf : ∀ x, Q x → R (f x)) :
    Takes T (f <$> m) ks rest R :=
  bind hm fun x hx => pure (hf x hx)

theorem get {f : Cursor → Parser α} (h : ∀ c : Cursor, c.At T ks → Takes T (f c) ks rest Q) :
    Takes T (MonadState.get >>= f) ks rest Q :=
  fun c standing => h c standing c standing

theorem kind : Takes T Parser.kind ks ks (· = next ks) :=
  get fun _ standing => pure standing.kind_eq

theorem here : Takes T Parser.here ks ks fun _ => True := get fun _ _ => pure trivial

theorem prev : Takes T Parser.prev ks ks fun _ => True := get fun _ _ => pure trivial

theorem isAtPunct (p : Punct) : Takes T (Parser.isAtPunct p) ks ks (· = (next ks).isPunct p) :=
  get fun _ standing => pure (by rw [standing.kind_eq])

theorem advance : Takes T Parser.advance (k :: ks) ks fun t => t.kind = k :=
  fun c standing => ⟨c.current, c.advance, rfl, standing.advance.2, standing.advance.1⟩

theorem isPunct_self (p : Punct) : (TokenKind.punct p).isPunct p = true := beq_self_eq_true p

theorem eat : Takes T (Parser.eat p) (.punct p :: ks) ks (· = true) := by
  intro c standing
  refine ⟨true, c.advance, ?_, standing.advance.2, rfl⟩
  unfold Parser.eat
  rw [standing.kind_eq]
  exact if_pos (isPunct_self p)

theorem eat_other (other : (next ks).isPunct p = false) : Takes T (Parser.eat p) ks ks (· = false) := by
  intro c standing
  refine ⟨false, c, ?_, standing, rfl⟩
  unfold Parser.eat
  rw [standing.kind_eq, other]
  rfl

theorem expect : Takes T (Parser.expect p) (.punct p :: ks) ks fun _ => True := by
  intro c standing
  refine ⟨c.current.span, c.advance, ?_, standing.advance.2, trivial⟩
  unfold Parser.expect
  rw [standing.kind_eq]
  exact if_pos (isPunct_self p)

theorem expectIdent {name : String} : Takes T Parser.expectIdent (.ident name :: ks) ks fun r => r.1 = name := by
  intro c standing
  refine ⟨(name, c.current.span), c.advance, ?_, standing.advance.2, rfl⟩
  unfold Parser.expectIdent
  rw [standing.kind_eq]
  rfl

theorem ident?_other (other : ∀ name, next ks ≠ .ident name) : Takes T Parser.ident? ks ks (· = none) := by
  intro c standing
  refine ⟨none, c, ?_, standing, rfl⟩
  unfold Parser.ident?
  rw [standing.kind_eq]
  split
  · rename_i name same
    exact (other name same).elim
  · rfl

end Takes

end Cursors

/-! ## What may follow -/

/-- The least precedence with which a text may bind that stands in front of the token. -/
def tightness : TokenKind → Nat
  | .punct p =>
    match p with
    | .lbracket | .lparen | .dot | .arrow | .plusPlus | .minusMinus => 14
    | .question => 3
    | p => ((binaryOp? p).map (·.precedence)).getD (if (assignOp? p).isSome then 2 else 0)
  | _ => 0

/-- No text of precedence `k` goes on with the token that is next. -/
def Before (k : Nat) (rest : List TokenKind) : Prop := tightness (next rest) ≤ k

theorem Before.mono {k l : Nat} {rest : List TokenKind} (h : Before k rest) (le : k ≤ l) : Before l rest :=
  Nat.le_trans h le

theorem tightness_op {p : Punct} {op : BinaryOp} (h : binaryOp? p = some op) :
    tightness (.punct p) = op.precedence := by
  cases p <;> cases h <;> rfl

theorem tightness_assign {p : Punct} {op : Option BinaryOp} (h : assignOp? p = some op) : tightness (.punct p) = 2 := by
  cases p <;> cases h <;> rfl

theorem three_le_precedence (op : BinaryOp) : 3 ≤ op.precedence := by cases op <;> decide

theorem precedence_le_twelve (op : BinaryOp) : op.precedence ≤ 12 := by cases op <;> decide

/-! ## How a text begins -/

/-- An expression may begin with the token. -/
def Opens (T : List String) : TokenKind → Prop
  | .punct p => p = .lparen ∨ (leadingOp? p).isSome
  | .keyword k => k = .sizeof ∨ k = .true ∨ k = .false ∨ k = .nullptr
  | .ident name => name ∉ T
  | .int .. | .char _ | .str _ => True
  | _ => False

/-- The tokens begin with an operand: a token of its own, or a parenthesis that no type follows. -/
inductive OpensOperand (T : List String) : List TokenKind → Prop where
  | atom {k : TokenKind} {ks : List TokenKind} (isAtom : (atom? .none k).isSome) : OpensOperand T (k :: ks)
  | paren {k : TokenKind} {ks : List TokenKind} (free : startsType T k = false) :
      OpensOperand T (.punct .lparen :: k :: ks)

variable {T : List String}

theorem next_append {ks : List TokenKind} (some : ks ≠ []) (rest : List TokenKind) : next (ks ++ rest) = next ks := by
  cases ks with
  | nil => exact (some rfl).elim
  | cons k ks => rfl

theorem Opens.ne_nil {ks : List TokenKind} (h : Opens T (next ks)) : ks ≠ [] := by
  rintro rfl
  exact h

theorem Opens.append {ks : List TokenKind} (h : Opens T (next ks)) (rest : List TokenKind) :
    Opens T (next (ks ++ rest)) := by
  rw [next_append h.ne_nil]
  exact h

theorem Opens.not_startsType {k : TokenKind} (h : Opens T k) : startsType T k = false := by
  cases k with
  | keyword k => rcases h with rfl | rfl | rfl | rfl <;> rfl
  | ident name =>
    show T.contains name = false
    rw [List.contains_eq_mem, decide_eq_false h]
  | _ => rfl

theorem OpensOperand.append {ks : List TokenKind} (h : OpensOperand T ks) (rest : List TokenKind) :
    OpensOperand T (ks ++ rest) := by
  cases h with
  | atom isAtom => exact .atom isAtom
  | paren free => exact .paren free

/-! ## The rules on a text -/

/-- Read by `primary` and, with the suffixes behind it, by `postfixTail`. -/
def AsOperand (T : List String) (ks : List TokenKind) (Q : Expr → Prop) : Prop :=
  ∀ (rest left : List TokenKind) (R : Expr → Prop) (d depth : Nat), d + 8 * ks.length ≤ depth →
    (∀ d' e, d ≤ d' → Q e → Takes T (postfixTail d' e) rest left R) →
      Takes T (do postfixTail depth (← primary depth)) (ks ++ rest) left R

def AsUnary (T : List String) (ks : List TokenKind) (Q : Expr → Prop) : Prop :=
  ∀ (rest : List TokenKind) (depth : Nat), Before 13 rest → 8 * ks.length + 2 ≤ depth →
    Takes T (unary depth) (ks ++ rest) rest Q

/-- Read by `binary` with operators of precedence `k` and more. -/
def AsBinary (T : List String) (k : Nat) (ks : List TokenKind) (Q : Expr → Prop) : Prop :=
  ∀ (rest left : List TokenKind) (R : Expr → Prop) (min d depth : Nat), min ≤ k → Before k rest →
    d + 8 * ks.length + 3 ≤ depth →
    (∀ d' e, d ≤ d' → Q e → Takes T (binaryTail d' min e) rest left R) →
      Takes T (binary depth min) (ks ++ rest) left R

def AsConditional (T : List String) (ks : List TokenKind) (Q : Expr → Prop) : Prop :=
  ∀ (rest : List TokenKind) (depth : Nat), Before 2 rest → 8 * ks.length + 5 ≤ depth →
    Takes T (conditional depth) (ks ++ rest) rest Q

def AsAssignment (T : List String) (ks : List TokenKind) (Q : Expr → Prop) : Prop :=
  ∀ (rest : List TokenKind) (depth : Nat), Before 1 rest → 8 * ks.length + 6 ≤ depth →
    Takes T (assignment depth) (ks ++ rest) rest Q

def AsExpr (T : List String) (ks : List TokenKind) (Q : Expr → Prop) : Prop :=
  ∀ (rest left : List TokenKind) (R : Expr → Prop) (d depth : Nat), Before 0 rest → d + 8 * ks.length + 7 ≤ depth →
    (∀ d' e, d ≤ d' → Q e → Takes T (commaTail d' e) rest left R) → Takes T (expr depth) (ks ++ rest) left R

structure Parses (T : List String) (k : Nat) (ks : List TokenKind) (Q : Expr → Prop) : Prop where
  opens : Opens T (next ks)
  operand : 14 ≤ k → OpensOperand T ks ∧ AsOperand T ks Q
  unary : 13 ≤ k → AsUnary T ks Q
  binary : ∀ l, 3 ≤ l → l ≤ 13 → l ≤ k → AsBinary T l ks Q
  conditional : 2 ≤ k → AsConditional T ks Q
  assignment : 1 ≤ k → AsAssignment T ks Q
  expr : AsExpr T ks Q

/-- What binds tight may stand where less is asked for. -/
theorem Parses.mono {k l : Nat} {ks : List TokenKind} {Q : Expr → Prop} (h : Parses T k ks Q) (le : l ≤ k) :
    Parses T l ks Q where
  opens := h.opens
  operand enough := h.operand (Nat.le_trans enough le)
  unary enough := h.unary (Nat.le_trans enough le)
  binary m low high enough := h.binary m low high (Nat.le_trans enough le)
  conditional enough := h.conditional (Nat.le_trans enough le)
  assignment enough := h.assignment (Nat.le_trans enough le)
  expr := h.expr

/-! ## Where the loops stop -/

section Stops

variable {rest : List TokenKind} {e : Expr} {Q : Expr → Prop}

theorem postfixTail_stops (before : Before 13 rest) (h : Q e) {d : Nat} (positive : 0 < d) :
    Takes T (postfixTail d e) rest rest Q := by
  obtain ⟨d, rfl⟩ := Nat.exists_eq_add_of_lt positive
  rw [Nat.zero_add]
  have other {p : Punct} (same : next rest = .punct p) (suffix : tightness (.punct p) = 14) : False := by
    unfold Before at before
    rw [same, suffix] at before
    exact absurd before (by decide)
  refine .bind .kind fun k same => ?_
  subst same
  split
  iterate 6
    · rename_i same
      exact (other same rfl).elim
  · exact .pure h

/-- The loop over binary operators stops where none follows that binds tight enough. -/
theorem binaryTail_stops {min : Nat}
    (low : ∀ p op, next rest = .punct p → binaryOp? p = some op → op.precedence < min) (h : Q e) {d : Nat}
    (positive : 0 < d) : Takes T (binaryTail d min e) rest rest Q := by
  obtain ⟨d, rfl⟩ := Nat.exists_eq_add_of_lt positive
  rw [Nat.zero_add]
  refine .bind .kind fun k same => ?_
  subst same
  dsimp only
  split
  · exact .pure h
  · rename_i op found
    split at found
    · rename_i p same
      rw [if_pos (low p op same found)]
      exact .pure h
    · cases found

theorem commaTail_stops (h : Q e) (notComma : (next rest).isPunct .comma = false) {d : Nat} (positive : 0 < d) :
    Takes T (commaTail d e) rest rest Q := by
  obtain ⟨d, rfl⟩ := Nat.exists_eq_add_of_lt positive
  rw [Nat.zero_add]
  refine .bind (.eat_other notComma) fun b same => ?_
  subst same
  exact .pure h

end Stops

/-! ## From one level to the next -/

section Chain

variable {ks : List TokenKind} {Q : Expr → Prop}

theorem AsOperand.unary (h : AsOperand T ks Q) (opens : OpensOperand T ks) : AsUnary T ks Q := by
  intro rest depth before enough
  obtain ⟨m, rfl⟩ : ∃ m, depth = m + 1 := ⟨depth - 1, by omega⟩
  have operand := h rest rest Q 1 m (by omega) fun d' e positive holds => postfixTail_stops before holds positive
  refine .bind .here fun start _ => .get fun c standing => ?_
  rw [standing.kind_eq, standing.second_eq, standing.startsType_eq]
  cases opens with
  | @atom k ks isAtom =>
    cases k with
    | keyword k => cases k <;> first | exact operand | cases isAtom
    | punct p => cases isAtom
    | _ => exact operand
  | @paren k ks free =>
    have notType : ((TokenKind.punct .lparen).isPunct .lparen && startsType T k) = false := by
      rw [free, Bool.and_false]
    show Takes T (if ((TokenKind.punct .lparen).isPunct .lparen && startsType T k) = true then _ else _) _ _ _
    rw [notType]
    exact operand

theorem AsUnary.binary (h : AsUnary T ks Q) : AsBinary T 13 ks Q := by
  intro rest left R min d depth le before enough goesOn
  obtain ⟨m, rfl⟩ : ∃ m, depth = m + 1 := ⟨depth - 1, by omega⟩
  exact .bind (h rest m before (by omega)) fun e holds => goesOn m e (by omega) holds

theorem AsBinary.lower {k l : Nat} (h : AsBinary T k ks Q) (le : l ≤ k) : AsBinary T l ks Q :=
  fun rest left R min d depth below before enough goesOn =>
    h rest left R min d depth (Nat.le_trans below le) (before.mono le) enough goesOn

theorem AsBinary.conditional {k : Nat} (h : AsBinary T k ks Q) (le : 2 ≤ k) : AsConditional T ks Q := by
  intro rest depth before enough
  obtain ⟨m, rfl⟩ : ∃ m, depth = m + 1 := ⟨depth - 1, by omega⟩
  have noOp : ∀ p op, next rest = .punct p → binaryOp? p = some op → op.precedence < 0 := by
    intro p op same found
    have tight := three_le_precedence op
    unfold Before at before
    rw [same, tightness_op found] at before
    omega
  have notQuestion : (next rest).isPunct .question = false := by
    refine Bool.eq_false_iff.mpr fun isQuestion => ?_
    unfold Before at before
    generalize next rest = k at before isQuestion
    cases k with
    | punct p =>
      obtain rfl := beq_iff_eq.mp isQuestion
      exact absurd before (by decide)
    | _ => cases isQuestion
  have test := h rest rest Q 0 1 m (Nat.zero_le k) (before.mono le) (by omega) fun d' e positive holds =>
    binaryTail_stops noOp holds positive
  refine .bind test fun e holds => .bind (.eat_other notQuestion) fun b same => ?_
  subst same
  exact .pure holds

theorem AsConditional.assignment (h : AsConditional T ks Q) : AsAssignment T ks Q := by
  intro rest depth before enough
  obtain ⟨m, rfl⟩ : ∃ m, depth = m + 1 := ⟨depth - 1, by omega⟩
  refine .bind (h rest m (before.mono (by decide)) (by omega)) fun e holds => .bind .kind fun k same => ?_
  subst same
  dsimp only
  split
  · exact .pure holds
  · rename_i op found
    split at found
    · rename_i p same
      unfold Before at before
      rw [same, tightness_assign found] at before
      exact absurd before (by decide)
    · cases found

theorem AsAssignment.expr (h : AsAssignment T ks Q) : AsExpr T ks Q := by
  intro rest left R d depth before enough goesOn
  obtain ⟨m, rfl⟩ : ∃ m, depth = m + 1 := ⟨depth - 1, by omega⟩
  exact .bind (h rest m (before.mono (by decide)) (by omega)) fun e holds => goesOn m e (by omega) holds

theorem AsExpr.parses (h : AsExpr T ks Q) (opens : Opens T (next ks)) : Parses T 0 ks Q where
  opens := opens
  operand := nofun
  unary := nofun
  binary l low _ enough := by omega
  conditional := nofun
  assignment := nofun
  expr := h

theorem AsAssignment.parses (h : AsAssignment T ks Q) (opens : Opens T (next ks)) : Parses T 1 ks Q where
  opens := opens
  operand := nofun
  unary := nofun
  binary l low _ enough := by omega
  conditional := nofun
  assignment _ := h
  expr := h.expr

theorem AsConditional.parses (h : AsConditional T ks Q) (opens : Opens T (next ks)) : Parses T 2 ks Q where
  opens := opens
  operand := nofun
  unary := nofun
  binary l low _ enough := by omega
  conditional _ := h
  assignment _ := h.assignment
  expr := h.assignment.expr

theorem AsBinary.parses {k : Nat} (h : AsBinary T k ks Q) (opens : Opens T (next ks)) (low : 3 ≤ k) (high : k ≤ 12) :
    Parses T k ks Q where
  opens := opens
  operand enough := by omega
  unary enough := by omega
  binary l _ _ enough := h.lower enough
  conditional _ := h.conditional (by omega)
  assignment _ := (h.conditional (by omega)).assignment
  expr := (h.conditional (by omega)).assignment.expr

theorem AsUnary.parses (h : AsUnary T ks Q) (opens : Opens T (next ks)) : Parses T 13 ks Q where
  opens := opens
  operand := nofun
  unary _ := h
  binary l _ high _ := h.binary.lower high
  conditional _ := h.binary.conditional (by decide)
  assignment _ := (h.binary.conditional (by decide)).assignment
  expr := (h.binary.conditional (by decide)).assignment.expr

theorem AsOperand.parses (h : AsOperand T ks Q) (opens : Opens T (next ks)) (opensOperand : OpensOperand T ks) :
    Parses T 15 ks Q where
  opens := opens
  operand _ := ⟨opensOperand, h⟩
  unary _ := h.unary opensOperand
  binary l _ high _ := (h.unary opensOperand).binary.lower high
  conditional _ := ((h.unary opensOperand).binary.conditional (by decide))
  assignment _ := ((h.unary opensOperand).binary.conditional (by decide)).assignment
  expr := ((h.unary opensOperand).binary.conditional (by decide)).assignment.expr

end Chain

end IncrementalC.Syntax
