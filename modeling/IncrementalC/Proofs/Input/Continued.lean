import IncrementalC.Proofs.Input.Nesting

/-!
# Input that goes on

What is read behind a line break depends on the text in front of it through very little, its `Cut`:
the brackets that the text leaves open, and whether it ends in a comment or right behind a backslash
of a literal. `Cut.verdict` is the verdict on the text as it stands, `Cut.resume` the one on the text
with more lines behind it (`exists_cut`). From this follows what each verdict says of further lines
(`verdict_lines`).
-/
namespace IncrementalC.Input
set_option autoImplicit false

variable {stack stack' r s s' t u : List Char} {c quote : Char} {n : Nat}

/-! ## Comments and literals with more text behind them -/

/-- What stands behind `s` is no part of its last piece: `s` has more pieces, or a line break follows. -/
def Apart (s u : List Char) : Prop := s ≠ [] ∨ ∃ t, u = '\n' :: t

theorem lineLength_append (apart : Apart (r.drop (Lexer.lineLength r)) u) :
    Lexer.lineLength (r ++ u) = Lexer.lineLength r := by
  unfold Lexer.lineLength at *
  rw [List.takeWhile_append]
  split
  · rename_i whole
    rw [whole, List.drop_length] at apart
    obtain ⟨t, rfl⟩ := apart.resolve_left fun some => some rfl
    simpa using whole.symm
  · rfl

theorem lineLength_le : Lexer.lineLength r ≤ r.length :=
  (List.takeWhile_sublist _).length_le

theorem commentLength?_cons (apart : c = '*' → ∀ d ∈ r.head?, d ≠ '/') :
    Lexer.commentLength? (c :: r) = (Lexer.commentLength? r).map (· + 1) := by
  refine Lexer.commentLength?.eq_2 c r ?_
  rintro r' rfl rfl
  exact apart rfl '/' rfl rfl

/-- Where a comment ends does not depend on what stands behind it. -/
theorem commentLength?_append (ends : Lexer.commentLength? r = some n) :
    Lexer.commentLength? (r ++ t) = some n ∧ n ≤ r.length := by
  fun_induction Lexer.commentLength? r generalizing n with
  | case1 r =>
    cases ends
    exact ⟨rfl, by simp⟩
  | case2 c r other ih =>
    obtain ⟨m, inner, rfl⟩ := Option.map_eq_some_iff.mp ends
    obtain ⟨same, bound⟩ := ih inner
    refine ⟨?_, by simpa using bound⟩
    rw [List.cons_append, commentLength?_cons, same]
    · rfl
    · rintro rfl d next rfl
      cases r with
      | nil => cases inner
      | cons d r =>
        cases next
        exact other r rfl rfl
  | case3 => cases ends

/-- A line break does not complete the end of a comment: the search begins anew behind it. -/
theorem commentLength?_open (goesOn : Lexer.commentLength? r = none) :
    Lexer.commentLength? (r ++ '\n' :: t) = (Lexer.commentLength? t).map (· + (r.length + 1)) := by
  fun_induction Lexer.commentLength? r with
  | case1 r => cases goesOn
  | case2 c r other ih =>
    rw [List.cons_append, commentLength?_cons, ih (Option.map_eq_none_iff.mp goesOn), Option.map_map]
    · rfl
    · rintro rfl d next rfl
      cases r with
      | nil => cases next
      | cons d r =>
        cases next
        exact other r rfl rfl
  | case3 => exact commentLength?_cons (by rintro ⟨⟩)

theorem literalLength?_append (ends : literalLength? quote r = some n) :
    literalLength? quote (r ++ t) = some n ∧ n ≤ r.length := by
  fun_induction literalLength? quote r generalizing n with
  | case1 => cases ends
  | case2 c r ih =>
    obtain ⟨m, inner, rfl⟩ := Option.map_eq_some_iff.mp ends
    obtain ⟨same, bound⟩ := ih inner
    refine ⟨?_, by simpa using bound⟩
    show (literalLength? quote (r ++ t)).map (· + 2) = some (m + 2)
    rw [same]
    rfl
  | case3 c r pair stop => cases ends
  | case4 c r pair stop isQuote =>
    cases ends
    simp only [Bool.or_eq_true, beq_iff_eq, not_or] at stop
    refine ⟨?_, by simp⟩
    rw [List.cons_append, literalLength?.eq_3 _ _ _ fun _ _ same => (stop.2 same).elim]
    simp [stop, isQuote]
  | case5 c r pair stop other ih =>
    obtain ⟨m, inner, rfl⟩ := Option.map_eq_some_iff.mp ends
    obtain ⟨same, bound⟩ := ih inner
    simp only [Bool.or_eq_true, beq_iff_eq, not_or] at stop other
    refine ⟨?_, by simpa using bound⟩
    rw [List.cons_append, literalLength?_cons stop.1 stop.2 other, same]
    rfl

/-- A literal that does not end stays so, unless the text ends right behind a backslash: this one
hides the line break. -/
theorem literalLength?_open (goesOn : literalLength? quote r = none) :
    (∀ t, literalLength? quote (r ++ '\n' :: t) = none) ∨
      r.getLast? = some '\\' ∧
        ∀ t, literalLength? quote (r ++ '\n' :: t) = (literalLength? quote t).map (· + (r.length + 1)) := by
  fun_induction literalLength? quote r with
  | case1 =>
    refine .inl fun t => ?_
    cases t <;> rfl
  | case2 c r ih =>
    have step (u : List Char) : literalLength? quote ('\\' :: c :: u) = (literalLength? quote u).map (· + 2) := rfl
    obtain none | ⟨last, later⟩ := ih (Option.map_eq_none_iff.mp goesOn)
    · exact .inl fun t => by rw [List.cons_append, List.cons_append, step, none]; rfl
    · refine .inr ⟨?_, fun t => ?_⟩
      · rw [List.getLast?_cons, List.getLast?_cons, last]
        rfl
      · rw [List.cons_append, List.cons_append, step, later, Option.map_map]
        rfl
  | case3 c r pair stop =>
    cases r with
    | nil =>
      rcases (Bool.or_eq_true _ _).mp stop with line | back
      · obtain rfl := beq_iff_eq.mp line
        exact .inl fun t => rfl
      · obtain rfl := beq_iff_eq.mp back
        exact .inr ⟨rfl, fun t => rfl⟩
    | cons d r =>
      have line : c = '\n' := by
        rcases (Bool.or_eq_true _ _).mp stop with line | back
        · exact beq_iff_eq.mp line
        · exact (pair d r (beq_iff_eq.mp back) rfl).elim
      subst line
      exact .inl fun t => rfl
  | case4 c r pair stop isQuote => cases goesOn
  | case5 c r pair stop other ih =>
    simp only [Bool.or_eq_true, beq_iff_eq, not_or] at stop other
    have step (u : List Char) := literalLength?_cons (r := u) stop.1 stop.2 other
    obtain none | ⟨last, later⟩ := ih (Option.map_eq_none_iff.mp goesOn)
    · exact .inl fun t => by rw [List.cons_append, step, none]; rfl
    · refine .inr ⟨?_, fun t => ?_⟩
      · rw [List.getLast?_cons, last]
        rfl
      · rw [List.cons_append, step, later, Option.map_map]
        rfl

/-! ## Where a text is cut -/

/-- Where the check stands at the end of a text. -/
inductive Cut where
  /-- Outside comments and literals, with the brackets in `stack` open. -/
  | between (stack : List Char)
  /-- In a block comment. -/
  | comment (stack : List Char)
  /-- In a literal, right behind a backslash. -/
  | escape (quote : Char) (stack : List Char)
  /-- Behind a closing bracket without its opening one. -/
  | stray
  /-- In a literal that its line breaks. -/
  | broken

namespace Cut

/-- The verdict on a text that ends here. -/
def verdict : Cut → Verdict
  | between stack => if stack.isEmpty then .valid else .incomplete
  | comment _ => .incomplete
  | escape .. | broken => .unterminatedLiteral
  | stray => .mismatch

/-- The verdict on a text that ends here, once `t` stands on the lines behind it. -/
def resume : Cut → List Char → Verdict
  | between stack, t => verdictFrom stack t
  | comment stack, t => (Lexer.commentLength? t).elim .incomplete fun n => verdictFrom stack (t.drop n)
  | escape quote stack, t =>
    (literalLength? quote t).elim .unterminatedLiteral fun n => verdictFrom stack (t.drop n)
  | stray, _ => .mismatch
  | broken, _ => .unterminatedLiteral

/-- The brackets that are open. -/
def opened : Cut → List Char
  | between stack | comment stack | escape _ stack => stack
  | stray | broken => []

def isEscape : Cut → Bool
  | escape .. => true
  | _ => false

end Cut

/-- Behind the brackets in `stack`, the text `s` ends at the given place. -/
structure Leaves (stack s : List Char) (cut : Cut) : Prop where
  verdict : verdictFrom stack s = cut.verdict
  resume : ∀ t, verdictFrom stack (s ++ '\n' :: t) = cut.resume t
  /-- A stray bracket stays one, whatever stands behind the text. -/
  stray : cut = .stray → ∀ u, verdictFrom stack (s ++ u) = .mismatch
  opened : (∀ c ∈ stack, isOpener c) → ∀ c ∈ cut.opened, isOpener c
  escaped : cut.isEscape → s.getLast? = some '\\'

/-- A piece that is passed over at the head of a text does not matter. -/
theorem Leaves.pass {cut : Cut} (suffix : s' <:+ s) (here : verdictFrom stack s = verdictFrom stack' s')
    (later : ∀ u, Apart s' u → verdictFrom stack (s ++ u) = verdictFrom stack' (s' ++ u))
    (opened : (∀ c ∈ stack, isOpener c) → ∀ c ∈ stack', isOpener c) (h : Leaves stack' s' cut) :
    Leaves stack s cut where
  verdict := here.trans h.verdict
  resume t := (later _ (.inr ⟨t, rfl⟩)).trans (h.resume t)
  stray isStray u := by
    refine (later u (.inl fun none => ?_)).trans (h.stray isStray u)
    have verdict := h.verdict
    rw [isStray, none, verdictFrom] at verdict
    split at verdict <;> cases verdict
  opened all := h.opened (opened all)
  escaped isEscape := by
    obtain ⟨p, rfl⟩ := suffix
    rw [List.getLast?_append, h.escaped isEscape]
    rfl

/-- No comment begins with `c` in front of `r`. -/
def NoComment (c : Char) (r : List Char) : Prop := c = '/' → ∀ d ∈ r.head?, d ≠ '/' ∧ d ≠ '*'

theorem noComment (line : ∀ r', c = '/' → r = '/' :: r' → False) (block : ∀ r', c = '/' → r = '*' :: r' → False) :
    NoComment c r := by
  rintro slash d next
  cases r with
  | nil => cases next
  | cons e r =>
    cases next
    exact ⟨fun same => line r slash (by rw [same]), fun same => block r slash (by rw [same])⟩

theorem NoComment.append (free : NoComment c r) (apart : Apart r u) : NoComment c (r ++ u) := by
  intro slash d next
  cases r with
  | nil =>
    obtain ⟨t, rfl⟩ := apart.resolve_left fun some => some rfl
    cases next
    decide
  | cons e r => exact free slash d next

theorem verdictFrom_line : verdictFrom stack ('/' :: '/' :: r) = verdictFrom stack (r.drop (Lexer.lineLength r)) := by
  rw [verdictFrom]

theorem verdictFrom_block : verdictFrom stack ('/' :: '*' :: r) =
    (Lexer.commentLength? r).elim .incomplete fun n => verdictFrom stack (r.drop n) := by
  rw [verdictFrom]
  cases Lexer.commentLength? r <;> rfl

theorem verdictFrom_quote (isQuote : (c == '"' || c == '\'') = true) : verdictFrom stack (c :: r) =
    (literalLength? c r).elim .unterminatedLiteral fun n => verdictFrom stack (r.drop n) := by
  have free : NoComment c r := by
    rintro rfl
    cases isQuote
  rw [verdictFrom_cons free, if_pos isQuote]
  cases literalLength? c r <;> rfl

theorem drop_line : (r ++ '\n' :: t).drop (n + (r.length + 1)) = t.drop n := by
  rw [Nat.add_comm, ← List.drop_drop, ← List.drop_drop, List.drop_left, List.drop_succ_cons, List.drop_zero]

/-- A closing bracket that does not fit the innermost open one. -/
theorem leaves_stray (notQuote : ¬(c == '"' || c == '\'') = true) (notOpener : ¬isOpener c = true) {o : Char}
    (closes : opener? c = some o) (other : stack.head? ≠ some o) : Leaves stack (c :: r) .stray := by
  have free {u : List Char} : NoComment c u := by
    rintro rfl
    cases closes
  have step (u : List Char) : verdictFrom stack (c :: u) = .mismatch := by
    rw [verdictFrom_cons free, if_neg notQuote, if_neg notOpener, closes]
    cases stack with
    | nil => rfl
    | cons top stack => exact if_neg fun same => other (congrArg some (beq_iff_eq.mp same))
  exact ⟨step r, fun t => step _, fun _ u => step _, fun _ => List.forall_mem_nil _, (by rintro ⟨⟩)⟩

/-- Each text ends somewhere. -/
theorem exists_cut (stack s : List Char) : ∃ cut, Leaves stack s cut := by
  have behind {r : List Char} {c : Char} {n : Nat} : r.drop n <:+ c :: r :=
    (List.drop_suffix n r).trans (List.suffix_cons c r)
  fun_induction verdictFrom stack s with
  | case1 stack empty | case2 stack nonempty =>
    refine ⟨.between stack, ?_, fun t => verdictFrom_plain (by decide), (by rintro ⟨⟩), id, (by rintro ⟨⟩)⟩
    rw [verdictFrom]
    rfl
  | case3 stack r ih =>
    refine ih.imp fun cut => .pass (behind.trans (List.suffix_cons _ _)) verdictFrom_line (fun u apart => ?_) id
    rw [List.cons_append, List.cons_append, verdictFrom_line, lineLength_append apart,
      List.drop_append_of_le_length lineLength_le]
  | case4 stack r n ends ih =>
    refine ih.imp fun cut => .pass (behind.trans (List.suffix_cons _ _)) ?_ (fun u apart => ?_) id
    · rw [verdictFrom_block, ends, Option.elim_some]
    · obtain ⟨same, bound⟩ := commentLength?_append (t := u) ends
      rw [List.cons_append, List.cons_append, verdictFrom_block, same, Option.elim_some,
        List.drop_append_of_le_length bound]
  | case5 stack r goesOn =>
    refine ⟨.comment stack, by rw [verdictFrom_block, goesOn]; rfl, fun t => ?_, (by rintro ⟨⟩), id,
      (by rintro ⟨⟩)⟩
    rw [List.cons_append, List.cons_append, verdictFrom_block, commentLength?_open goesOn, Option.elim_map]
    simp only [Function.comp_def, drop_line]
    rfl
  | case6 stack c r line block isQuote n ends ih =>
    refine ih.imp fun cut => .pass behind ?_ (fun u apart => ?_) id
    · rw [verdictFrom_quote isQuote, ends, Option.elim_some]
    · obtain ⟨same, bound⟩ := literalLength?_append (t := u) ends
      rw [List.cons_append, verdictFrom_quote isQuote, same, Option.elim_some, List.drop_append_of_le_length bound]
  | case7 stack c r line block isQuote goesOn =>
    have here : verdictFrom stack (c :: r) = .unterminatedLiteral := by rw [verdictFrom_quote isQuote, goesOn]; rfl
    obtain none | ⟨last, later⟩ := literalLength?_open goesOn
    · refine ⟨.broken, here, fun t => ?_, (by rintro ⟨⟩), fun _ => List.forall_mem_nil _, (by rintro ⟨⟩)⟩
      rw [List.cons_append, verdictFrom_quote isQuote, none]
      rfl
    · refine ⟨.escape c stack, here, fun t => ?_, (by rintro ⟨⟩), id, fun _ => ?_⟩
      · rw [List.cons_append, verdictFrom_quote isQuote, later, Option.elim_map]
        simp only [Function.comp_def, drop_line]
        rfl
      · rw [List.getLast?_cons, last]
        rfl
  | case8 stack c r line block notQuote isOpener ih =>
    have step {u : List Char} (free : NoComment c u) : verdictFrom stack (c :: u) = verdictFrom (c :: stack) u := by
      rw [verdictFrom_cons free, if_neg notQuote, if_pos isOpener]
    have free := noComment line block
    exact ih.imp fun cut => .pass (List.suffix_cons c r) (step free) (fun u apart => step (free.append apart))
      fun all => List.forall_mem_cons.mpr ⟨isOpener, all⟩
  | case9 stack c r line block notQuote notOpener notCloser ih =>
    have step {u : List Char} (free : NoComment c u) : verdictFrom stack (c :: u) = verdictFrom stack u := by
      rw [verdictFrom_cons free, if_neg notQuote, if_neg notOpener, notCloser]
    have free := noComment line block
    exact ih.imp fun cut => .pass (List.suffix_cons c r) (step free) (fun u apart => step (free.append apart)) id
  | case10 c r line block notQuote notOpener o closes top stack same ih =>
    have step {u : List Char} (free : NoComment c u) : verdictFrom (top :: stack) (c :: u) = verdictFrom stack u := by
      rw [verdictFrom_cons free, if_neg notQuote, if_neg notOpener, closes]
      exact if_pos same
    have free := noComment line block
    exact ih.imp fun cut => .pass (List.suffix_cons c r) (step free) (fun u apart => step (free.append apart))
      fun all => (List.forall_mem_cons.mp all).2
  | case11 c r line block notQuote notOpener o closes top stack other =>
    exact ⟨.stray, leaves_stray notQuote notOpener closes fun same => other (beq_iff_eq.mpr (Option.some.inj same))⟩
  | case12 c r line block notQuote notOpener o closes => exact ⟨.stray, leaves_stray notQuote notOpener closes (Option.some_ne_none o).symm⟩

/-! ## What the verdicts say of further lines -/

/-- A text is valid as far as it goes if it ends outside comments and literals with no bracket open. -/
theorem Leaves.valid {cut : Cut} (h : Leaves stack s cut) (valid : verdictFrom stack s = .valid) : cut = .between [] := by
  rw [h.verdict] at valid
  cases cut with
  | between stack =>
    cases stack with
    | nil => rfl
    | cons c stack => cases valid
  | _ => cases valid

/-- Closing the open brackets. -/
def closer : Char → Char
  | '(' => ')'
  | '[' => ']'
  | _ => '\x7d'

theorem verdictFrom_closers (opened : ∀ c ∈ stack, isOpener c) : verdictFrom stack (stack.map closer) = .valid := by
  induction stack with
  | nil =>
    rw [List.map_nil, verdictFrom]
    rfl
  | cons c stack ih =>
    obtain ⟨first, others⟩ := List.forall_mem_cons.mp opened
    have closes : closer c ≠ '/' ∧ (closer c == '"' || closer c == '\'') = false ∧ isOpener (closer c) = false ∧
        opener? (closer c) = some c := by
      simp only [isOpener, Bool.or_eq_true, beq_iff_eq] at first
      obtain (rfl | rfl) | rfl := first <;> decide
    obtain ⟨notSlash, notQuote, notOpener, closes⟩ := closes
    rw [List.map_cons, verdictFrom_cons fun slash => (notSlash slash).elim, notQuote, notOpener, closes]
    simpa using ih others

/-- An incomplete text can be completed: the comment is ended, and the brackets are closed. -/
theorem Leaves.completed {cut : Cut} (h : Leaves [] s cut) (incomplete : verdictFrom [] s = .incomplete) :
    ∃ t, verdictFrom [] (s ++ '\n' :: t) = .valid := by
  have opened := h.opened (List.forall_mem_nil _)
  have closed := verdictFrom_closers opened
  rw [h.verdict] at incomplete
  cases cut with
  | between stack => exact ⟨stack.map closer, (h.resume _).trans closed⟩
  | comment stack => exact ⟨'*' :: '/' :: stack.map closer, (h.resume _).trans closed⟩
  | _ => cases incomplete

theorem Leaves.mismatched {cut : Cut} (h : Leaves stack s cut) (mismatch : verdictFrom stack s = .mismatch) :
    cut = .stray := by
  rw [h.verdict] at mismatch
  cases cut with
  | between stack => cases stack <;> cases mismatch
  | stray => rfl
  | _ => cases mismatch

theorem Leaves.unterminated {cut : Cut} (h : Leaves stack s cut) (unterminated : verdictFrom stack s = .unterminatedLiteral)
    (noBackslash : s.getLast? ≠ some '\\') : cut = .broken := by
  rw [h.verdict] at unterminated
  cases cut with
  | between stack => cases stack <;> cases unterminated
  | escape quote stack => exact absurd (h.escaped rfl) noBackslash
  | broken => rfl
  | _ => cases unterminated

/-- A valid text has no part in what is read behind it, a mismatch is final, an incomplete text can be completed,
and a literal broken by its line stays broken. -/
theorem verdict_lines (s t : String) :
    (verdict s = .valid → verdict (s ++ "\n" ++ t) = verdict t) ∧
    (verdict s = .mismatch → verdict (s ++ t) = .mismatch) ∧
    (verdict s = .incomplete → ∃ u, verdict (s ++ "\n" ++ u) = .valid) ∧
    (verdict s = .unterminatedLiteral → s.toList.getLast? ≠ some '\\' →
      verdict (s ++ "\n" ++ t) = .unterminatedLiteral) := by
  have line (u : String) : (s ++ "\n" ++ u).toList = s.toList ++ '\n' :: u.toList := by
    simp [String.toList_append]
  obtain ⟨cut, h⟩ := exists_cut [] s.toList
  unfold verdict
  refine ⟨fun valid => ?_, fun mismatch => ?_, fun incomplete => ?_, fun unterminated noBackslash => ?_⟩
  · obtain rfl := h.valid valid
    rw [line, h.resume]
    rfl
  · rw [String.toList_append]
    exact h.stray (h.mismatched mismatch) t.toList
  · obtain ⟨u, valid⟩ := h.completed incomplete
    exact ⟨String.ofList u, by rw [line, String.toList_ofList, valid]⟩
  · obtain rfl := h.unterminated unterminated noBackslash
    rw [line, h.resume]
    rfl

theorem verdict_lines_of_each_kind :
    verdict "puts(\"(\"); // )" = .valid ∧ verdict ("puts(\"(\"); // )" ++ "\n" ++ "f(1, ") = verdict "f(1, " ∧
    verdict "f(1]" = .mismatch ∧ verdict ("f(1]" ++ ")") = .mismatch ∧
    verdict "int f(int a[ /* size" = .incomplete ∧ (∃ u, verdict ("int f(int a[ /* size" ++ "\n" ++ u) = .valid) ∧
    verdict "char c = 'a" = .unterminatedLiteral ∧ "char c = 'a".toList.getLast? ≠ some '\\' ∧
    verdict ("char c = 'a" ++ "\n" ++ "';") = .unterminatedLiteral := by
  have valid : verdict "puts(\"(\"); // )" = .valid := by decide +kernel
  have mismatch : verdict "f(1]" = .mismatch := by decide +kernel
  have incomplete : verdict "int f(int a[ /* size" = .incomplete := by decide +kernel
  have unterminated : verdict "char c = 'a" = .unterminatedLiteral := by decide +kernel
  have last : "char c = 'a".toList.getLast? ≠ some '\\' := by decide +kernel
  exact ⟨valid, (verdict_lines _ _).1 valid, mismatch, (verdict_lines _ _).2.1 mismatch,
    incomplete, (verdict_lines _ "").2.2.1 incomplete, unterminated, last, (verdict_lines _ _).2.2.2 unterminated last⟩

end IncrementalC.Input
