import IncrementalC.Proofs.Syntax.Levels
import Mathlib.Data.List.Forall2

/-!
# Texts of the forms of expressions

For each form a lemma says from which levels of its parts the text of the whole is read, and at which level. The
predicates on the trees are free but for the node that puts the parts together.
-/
namespace IncrementalC.Syntax
set_option autoImplicit false

variable {T : List String} {ks ls ms : List TokenKind} {Q Q' Q'' R : Expr → Prop}

/-! ## Operands -/

theorem Parses.ofAtom {k : TokenKind} (opens : Opens T k) (node : ∀ s, ∃ e, atom? s k = some e ∧ Q e) :
    Parses T 15 [k] Q := by
  have isAtom : (atom? .none k).isSome := by
    obtain ⟨e, found, -⟩ := node .none
    rw [found]
    rfl
  refine AsOperand.parses (fun rest left R d depth enough goesOn => ?_) opens (.atom isAtom)
  have length : [k].length = 1 := rfl
  obtain ⟨m, rfl⟩ : ∃ m, depth = m + 1 := ⟨depth - 1, by omega⟩
  have notParen : (next (k :: rest)).isPunct .lparen = false := by
    cases k with
    | punct p => cases isAtom
    | _ => rfl
  have operand : Takes T (primary (m + 1)) (k :: rest) rest Q := by
    refine .bind .here fun start _ => .bind (.eat_other notParen) fun b same => ?_
    subst same
    refine .bind .kind fun k' same => ?_
    obtain ⟨e, found, holds⟩ := node start
    have read : atom? start k' = some e := by rwa [same]
    rw [read]
    exact .bind .advance fun _ _ => .pure holds
  exact .bind operand fun e holds => goesOn (m + 1) e (by omega) holds

/-- Parentheses around any text. -/
theorem Parses.ofParens (h : Parses T 0 ks Q) (spans : ∀ s e, Q e → Q (e.withSpan s)) :
    Parses T 15 (.punct .lparen :: (ks ++ [.punct .rparen])) Q := by
  obtain ⟨k, ks', rfl⟩ := List.exists_cons_of_ne_nil h.opens.ne_nil
  refine AsOperand.parses (fun rest left R d depth enough goesOn => ?_) (.inl rfl) (.paren h.opens.not_startsType)
  simp only [List.length_cons, List.length_append, List.length_nil] at enough
  obtain ⟨m, rfl⟩ : ∃ m, depth = m + 1 := ⟨depth - 1, by omega⟩
  have inside : Takes T (Syntax.expr m) ((k :: ks') ++ .punct .rparen :: rest) (.punct .rparen :: rest) Q :=
    h.expr _ _ Q 1 m (Nat.le_refl 0) (by simp only [List.length_cons]; omega) fun d' e positive holds =>
      commaTail_stops holds rfl positive
  have operand : Takes T (primary (m + 1)) (.punct .lparen :: ((k :: ks') ++ .punct .rparen :: rest)) rest Q := by
    refine .bind .here fun start _ => .bind .eat fun b same => ?_
    subst same
    exact .bind inside fun e holds => .bind .expect fun close _ => .pure (spans _ e holds)
  rw [List.cons_append, List.append_assoc, List.singleton_append]
  exact .bind operand fun e holds => goesOn (m + 1) e (by omega) holds

/-! ## Suffixes -/

/-- Behind an operand with `Q` the tokens make one with `R` of it. -/
def AsSuffix (T : List String) (Q : Expr → Prop) (ls : List TokenKind) (R : Expr → Prop) : Prop :=
  ∀ (rest left : List TokenKind) (S : Expr → Prop) (d depth : Nat) (e : Expr), Q e → d + 8 * ls.length ≤ depth →
    (∀ d' e', d ≤ d' → R e' → Takes T (postfixTail d' e') rest left S) →
      Takes T (postfixTail depth e) (ls ++ rest) left S

theorem Parses.suffixed (h : Parses T 14 ks Q) (suffix : AsSuffix T Q ls R) : Parses T 15 (ks ++ ls) R := by
  obtain ⟨opens, operand⟩ := h.operand (by decide)
  refine AsOperand.parses (fun rest left S d depth enough goesOn => ?_) (h.opens.append ls) (opens.append ls)
  rw [List.length_append] at enough
  rw [List.append_assoc]
  exact operand _ _ S (d + 8 * ls.length) depth (by omega) fun d' e le holds =>
    suffix rest left S d d' e holds le goesOn

theorem Parses.ofPostInc (h : Parses T 14 ks Q) (node : ∀ s e, Q e → R (.unary s .postInc e)) :
    Parses T 15 (ks ++ [.punct .plusPlus]) R := by
  refine h.suffixed fun rest left S d depth e holds enough goesOn => ?_
  have length : [TokenKind.punct .plusPlus].length = 1 := rfl
  obtain ⟨m, rfl⟩ : ∃ m, depth = m + 1 := ⟨depth - 1, by omega⟩
  refine .bind .kind fun k same => ?_
  subst same
  exact .bind .advance fun t _ => goesOn m _ (by omega) (node _ e holds)

theorem Parses.ofPostDec (h : Parses T 14 ks Q) (node : ∀ s e, Q e → R (.unary s .postDec e)) :
    Parses T 15 (ks ++ [.punct .minusMinus]) R := by
  refine h.suffixed fun rest left S d depth e holds enough goesOn => ?_
  have length : [TokenKind.punct .minusMinus].length = 1 := rfl
  obtain ⟨m, rfl⟩ : ∃ m, depth = m + 1 := ⟨depth - 1, by omega⟩
  refine .bind .kind fun k same => ?_
  subst same
  exact .bind .advance fun t _ => goesOn m _ (by omega) (node _ e holds)

theorem Parses.ofMember {name : String} (h : Parses T 14 ks Q) (arrow : Bool)
    (node : ∀ s e, Q e → R (.member s e name arrow)) :
    Parses T 15 (ks ++ [.punct (if arrow then .arrow else .dot), .ident name]) R := by
  refine h.suffixed fun rest left S d depth e holds enough goesOn => ?_
  have length : [TokenKind.punct (if arrow then .arrow else .dot), .ident name].length = 2 := rfl
  obtain ⟨m, rfl⟩ : ∃ m, depth = m + 1 := ⟨depth - 1, by omega⟩
  refine .bind .kind fun k same => ?_
  subst same
  cases arrow with
  | false =>
    refine .bind .advance fun _ _ => .bind .expectIdent fun x same => ?_
    subst same
    exact goesOn m _ (by omega) (node _ e holds)
  | true =>
    refine .bind .advance fun _ _ => .bind .expectIdent fun x same => ?_
    subst same
    exact goesOn m _ (by omega) (node _ e holds)

theorem Parses.ofIndex (h : Parses T 14 ks Q) (hi : Parses T 0 ls Q') (node : ∀ s x y, Q x → Q' y → R (.index s x y)) :
    Parses T 15 (ks ++ .punct .lbracket :: (ls ++ [.punct .rbracket])) R := by
  refine h.suffixed fun rest left S d depth e holds enough goesOn => ?_
  simp only [List.length_cons, List.length_append, List.length_nil] at enough
  obtain ⟨m, rfl⟩ : ∃ m, depth = m + 1 := ⟨depth - 1, by omega⟩
  rw [List.cons_append, List.append_assoc, List.singleton_append]
  refine .bind .kind fun k same => ?_
  subst same
  refine .bind .advance fun _ _ => ?_
  have inside : Takes T (Syntax.expr m) (ls ++ .punct .rbracket :: rest) (.punct .rbracket :: rest) Q' :=
    hi.expr _ _ Q' 1 m (Nat.le_refl 0) (by omega) fun d' e positive holds => commaTail_stops holds rfl positive
  exact .bind inside fun i hi => .bind .expect fun close _ => goesOn m _ (by omega) (node _ e i holds hi)

/-! ## Arguments -/

/-- The tokens of arguments with commas between them. -/
def commaSeparated : List (List TokenKind) → List TokenKind
  | [] => []
  | ks :: kss => ks ++ kss.flatMap (.punct .comma :: ·)

theorem argumentList_takes {ps : List (Expr → Prop)} {kss : List (List TokenKind)} {P : Expr → Prop}
    (first : Parses T 1 ks P) (others : List.Forall₂ (Parses T 1) kss ps) (rest : List TokenKind) {depth : Nat}
    (enough : 8 * (commaSeparated (ks :: kss)).length + 7 ≤ depth) :
    Takes T (argumentList depth) (commaSeparated (ks :: kss) ++ .punct .rparen :: rest) (.punct .rparen :: rest)
      fun es => List.Forall₂ (fun p e => p e) (P :: ps) es := by
  induction others generalizing ks P depth with
  | nil =>
    have whole : commaSeparated [ks] = ks := List.append_nil ks
    rw [whole] at enough ⊢
    obtain ⟨m, rfl⟩ : ∃ m, depth = m + 1 := ⟨depth - 1, by omega⟩
    refine .bind (first.assignment (Nat.le_refl 1) _ m (by decide : (0 : Nat) ≤ 1) (by omega)) fun e holds => ?_
    refine .bind (.eat_other rfl) fun b same => ?_
    subst same
    exact .pure (.cons holds .nil)
  | @cons ls p kss ps second others ih =>
    have whole : commaSeparated (ks :: ls :: kss) = ks ++ .punct .comma :: commaSeparated (ls :: kss) := rfl
    rw [whole] at enough ⊢
    rw [List.length_append, List.length_cons] at enough
    rw [List.append_assoc, List.cons_append]
    obtain ⟨m, rfl⟩ : ∃ m, depth = m + 1 := ⟨depth - 1, by omega⟩
    refine .bind (first.assignment (Nat.le_refl 1) _ m (by decide : (0 : Nat) ≤ 1) (by omega)) fun e holds => ?_
    refine .bind .eat fun b same => ?_
    subst same
    exact .bind (ih second (by omega)) fun es hold => .pure (.cons holds hold)

theorem arguments_takes {ps : List (Expr → Prop)} {kss : List (List TokenKind)}
    (h : List.Forall₂ (Parses T 1) kss ps) (rest : List TokenKind) {depth : Nat}
    (enough : 8 * (commaSeparated kss).length + 8 ≤ depth) :
    Takes T (arguments depth) (commaSeparated kss ++ .punct .rparen :: rest) (.punct .rparen :: rest)
      fun es => List.Forall₂ (fun p e => p e) ps es := by
  obtain ⟨m, rfl⟩ : ∃ m, depth = m + 1 := ⟨depth - 1, by omega⟩
  cases h with
  | nil =>
    refine .bind (.isAtPunct .rparen) fun b same => ?_
    subst same
    exact .pure .nil
  | @cons ks p kss ps first others =>
    have notClosed : (next (commaSeparated (ks :: kss) ++ .punct .rparen :: rest)).isPunct .rparen = false := by
      obtain ⟨k, ks', rfl⟩ := List.exists_cons_of_ne_nil first.opens.ne_nil
      have opens : Opens T k := first.opens
      show k.isPunct .rparen = false
      cases k with
      | punct p =>
        refine Bool.eq_false_iff.mpr fun same => ?_
        obtain rfl := beq_iff_eq.mp same
        rcases opens with impossible | impossible <;> cases impossible
      | _ => rfl
    refine .bind (.isAtPunct .rparen) fun b same => ?_
    rw [notClosed] at same
    subst same
    exact argumentList_takes first others rest (by omega)

theorem Parses.ofCall {ps : List (Expr → Prop)} {kss : List (List TokenKind)} (h : Parses T 14 ks Q)
    (hargs : List.Forall₂ (Parses T 1) kss ps)
    (node : ∀ s e es, Q e → List.Forall₂ (fun p e => p e) ps es → R (.call s e es)) :
    Parses T 15 (ks ++ .punct .lparen :: (commaSeparated kss ++ [.punct .rparen])) R := by
  refine h.suffixed fun rest left S d depth e holds enough goesOn => ?_
  simp only [List.length_cons, List.length_append, List.length_nil] at enough
  obtain ⟨m, rfl⟩ : ∃ m, depth = m + 1 := ⟨depth - 1, by omega⟩
  rw [List.cons_append, List.append_assoc, List.singleton_append]
  refine .bind .kind fun k same => ?_
  subst same
  refine .bind .advance fun _ _ => .bind (arguments_takes hargs rest (by omega)) fun es hold => ?_
  exact .bind .expect fun close _ => goesOn m _ (by omega) (node _ e es holds hold)

/-! ## Operators in front -/

theorem Parses.ofLeading {p : Punct} {op : UnaryOp} (sign : leadingOp? p = some op) (h : Parses T 13 ks Q)
    (node : ∀ s e, Q e → R (.unary s op e)) : Parses T 13 (.punct p :: ks) R := by
  refine AsUnary.parses (fun rest depth before enough => ?_) (.inr (by rw [sign]; rfl))
  rw [List.length_cons] at enough
  obtain ⟨m, rfl⟩ : ∃ m, depth = m + 1 := ⟨depth - 1, by omega⟩
  refine .bind .here fun start _ => .get fun c standing => ?_
  rw [standing.kind_eq]
  have read : next (.punct p :: ks ++ rest) = .punct p := rfl
  rw [read]
  dsimp only
  rw [sign]
  exact .bind .advance fun _ _ => .bind (h.unary (Nat.le_refl 13) rest m before (by omega)) fun e holds =>
    .pure (node _ e holds)

theorem Parses.ofSizeof (h : Parses T 0 ks Q) (spans : ∀ s e, Q e → Q (e.withSpan s))
    (node : ∀ s e, Q e → R (.sizeofExpr s e)) :
    Parses T 13 (.keyword .sizeof :: .punct .lparen :: (ks ++ [.punct .rparen])) R := by
  refine AsUnary.parses (fun rest depth before enough => ?_) (.inl rfl)
  rw [List.length_cons] at enough
  obtain ⟨m, rfl⟩ : ∃ m, depth = m + 1 := ⟨depth - 1, by omega⟩
  refine .bind .here fun start _ => .get fun c standing => ?_
  rw [standing.kind_eq]
  refine .bind .advance fun _ _ => .get fun c standing => ?_
  have notType : (c.kind.isPunct .lparen && c.startsType c.second) = false := by
    obtain ⟨k, ks', rfl⟩ := List.exists_cons_of_ne_nil h.opens.ne_nil
    have free : startsType T (next (k :: ks' ++ [.punct .rparen] ++ rest)) = false :=
      h.opens.not_startsType
    rw [standing.second_eq, standing.startsType_eq]
    exact (congrArg _ free).trans (Bool.and_false _)
  rw [notType]
  have operand := (h.ofParens spans).unary (by decide) rest m before (by omega)
  exact .bind operand fun e holds => .pure (node _ e holds)

/-! ## Operators between -/

theorem Parses.ofBinary {p : Punct} {op : BinaryOp} (sign : binaryOp? p = some op) (ha : Parses T op.precedence ks Q)
    (hb : Parses T (op.precedence + 1) ls Q') (node : ∀ s x y, Q x → Q' y → R (.binary s op x y)) :
    Parses T op.precedence (ks ++ .punct p :: ls) R := by
  have low := three_le_precedence op
  have high := precedence_le_twelve op
  refine AsBinary.parses (fun rest left S min d depth le before enough goesOn => ?_) (ha.opens.append _) low high
  rw [List.length_append, List.length_cons] at enough
  rw [List.append_assoc, List.cons_append]
  have first := ha.binary op.precedence low (by omega) (Nat.le_refl _)
  refine first _ left S min (d + 8 * (ls.length + 1)) depth le (Nat.le_of_eq (tightness_op sign)) (by omega) ?_
  intro d' x far hx
  obtain ⟨m, rfl⟩ : ∃ m, d' = m + 1 := ⟨d' - 1, by omega⟩
  -- the loop goes on with the operator and stops behind its right side
  refine .bind .kind fun k same => ?_
  subst same
  dsimp only [next, List.headD]
  rw [sign]
  dsimp only
  rw [if_neg (Nat.not_lt.mpr le)]
  refine .bind .advance fun _ _ => ?_
  have stops : ∀ q op', next rest = .punct q → binaryOp? q = some op' → op'.precedence < op.precedence + 1 := by
    intro q op' same found
    unfold Before at before
    rw [same, tightness_op found] at before
    omega
  have second := hb.binary (op.precedence + 1) (by omega) (by omega) (Nat.le_refl _) rest rest Q' (op.precedence + 1) 1 m
    (Nat.le_refl _) (before.mono (Nat.le_succ _)) (by omega) fun d'' y positive hy => binaryTail_stops stops hy positive
  exact .bind second fun y hy => goesOn m _ (by omega) (node _ x y hx hy)

theorem Parses.ofAssign {p : Punct} {op : Option BinaryOp} (sign : assignOp? p = some op) (ha : Parses T 2 ks Q)
    (hb : Parses T 1 ls Q') (node : ∀ s x y, Q x → Q' y → R (.assign s op x y)) :
    Parses T 1 (ks ++ .punct p :: ls) R := by
  refine AsAssignment.parses (fun rest depth before enough => ?_) (ha.opens.append _)
  rw [List.length_append, List.length_cons] at enough
  rw [List.append_assoc, List.cons_append]
  obtain ⟨m, rfl⟩ : ∃ m, depth = m + 1 := ⟨depth - 1, by omega⟩
  have first := ha.conditional (Nat.le_refl 2) (.punct p :: (ls ++ rest)) m (Nat.le_of_eq (tightness_assign sign))
    (by omega)
  refine .bind first fun x hx => .bind .kind fun k same => ?_
  subst same
  dsimp only [next, List.headD]
  rw [sign]
  exact .bind .advance fun _ _ => .bind (hb.assignment (Nat.le_refl 1) rest m before (by omega)) fun y hy =>
    .pure (node _ x y hx hy)

theorem Parses.ofConditional (hc : Parses T 3 ks Q) (ha : Parses T 0 ls Q') (hb : Parses T 2 ms Q'')
    (node : ∀ s c x y, Q c → Q' x → Q'' y → R (.conditional s c x y)) :
    Parses T 2 (ks ++ .punct .question :: (ls ++ .punct .colon :: ms)) R := by
  refine AsConditional.parses (fun rest depth before enough => ?_) (hc.opens.append _)
  simp only [List.length_append, List.length_cons] at enough
  rw [List.append_assoc, List.cons_append, List.append_assoc, List.cons_append]
  obtain ⟨m, rfl⟩ : ∃ m, depth = m + 1 := ⟨depth - 1, by omega⟩
  have test := hc.binary 3 (Nat.le_refl 3) (by decide) (Nat.le_refl 3)
    (.punct .question :: (ls ++ .punct .colon :: (ms ++ rest))) (.punct .question :: (ls ++ .punct .colon :: (ms ++ rest)))
    Q 0 1 m (Nat.zero_le 3) (Nat.le_refl 3) (by omega) fun d' c positive hc => by
      refine binaryTail_stops (fun q op same found => ?_) hc positive
      cases same
      cases found
  refine .bind test fun c hc => .bind .eat fun b same => ?_
  subst same
  have yes := ha.expr (.punct .colon :: (ms ++ rest)) (.punct .colon :: (ms ++ rest)) Q' 1 m (Nat.le_refl 0) (by omega)
    fun d' x positive hx => commaTail_stops hx rfl positive
  refine .bind yes fun x hx => .bind .expect fun _ _ => ?_
  exact .bind (hb.conditional (Nat.le_refl 2) rest m before (by omega)) fun y hy => .pure (node _ c x y hc hx hy)

theorem Parses.ofComma (ha : Parses T 0 ks Q) (hb : Parses T 1 ls Q') (node : ∀ s x y, Q x → Q' y → R (.comma s x y)) :
    Parses T 0 (ks ++ .punct .comma :: ls) R := by
  refine AsExpr.parses (fun rest left S d depth before enough goesOn => ?_) (ha.opens.append _)
  rw [List.length_append, List.length_cons] at enough
  rw [List.append_assoc, List.cons_append]
  refine ha.expr _ left S (d + 8 * (ls.length + 1)) depth (Nat.le_refl 0) (by omega) fun d' x far hx => ?_
  obtain ⟨m, rfl⟩ : ∃ m, d' = m + 1 := ⟨d' - 1, by omega⟩
  refine .bind .eat fun b same => ?_
  subst same
  have second := hb.assignment (Nat.le_refl 1) rest m (before.mono (Nat.zero_le 1)) (by omega)
  exact .bind second fun y hy => goesOn m _ (by omega) (node _ x y hx hy)

end IncrementalC.Syntax
