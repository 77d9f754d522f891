import IncrementalC.Proofs.Lowering.Piece

/-!
# The code of operators

What each operator trades, given what its operands leave and that their types have machine kinds.
-/
namespace IncrementalC.Lowering
set_option autoImplicit false
open Typed (Expr Binding)

variable {S : Signatures} {r i j k : Nat} {value x y : Piece}

/-- A value of the type fits a slot. -/
def HasKind (ty : Ty) : Prop := (kindOf? ty).isSome

/-! ## Values and addresses -/

theorem trades_load {types : TypeTable} {ty : Ty} {span : Span}
    (h : ty.isAggregate = false → HasKind ty) : (load types ty span).Trades S r 1 1 := by
  refine .gen ?_
  split
  · exact .pure .nil
  · rename_i scalar
    refine .bind (.need (P := fun _ => True) (h (Bool.eq_false_iff.mpr scalar)) fun _ _ => trivial)
      fun kind _ => .pure ?_
    exact .straight rfl

theorem trades_discard {ty : Ty} (h : value.Trades S r 0 ty.values) :
    (discard ty value).Trades S r 0 0 := by
  unfold discard Ty.values at *
  split at h
  · rename_i void
    rw [if_pos void]
    exact h
  · rename_i void
    rw [if_neg void]
    exact h.append (.code (.straight rfl))

theorem trades_movePointer (ty : Ty) (negate : Bool) (stride : Int64) :
    (movePointer ty negate stride).Trades S r 2 1 := by
  refine .code ((((Trades.convert ty .long).frame 1).append ?_).append (.straight rfl))
  split
  · exact (Trades.straight (x := .unary .neg .i64) rfl).frame 1
  · exact .nil

/-- Two values, the second one above the first. -/
theorem trades_both (hx : x.Trades S r 0 1) (hy : y.Trades S r 0 1) : (x ++ y).Trades S r 0 2 :=
  hx.append (hy.frame 1)

theorem trades_elementAddress {types : TypeTable} {elem baseTy indexTy : Ty}
    (hx : x.Trades S r 0 1) (hy : y.Trades S r 0 1) :
    (elementAddress types elem baseTy indexTy x y).Trades S r 0 1 := by
  unfold elementAddress
  split
  · exact (trades_both hx hy).append (trades_movePointer _ _ _)
  · exact (trades_both hy hx).append (trades_movePointer _ _ _)

theorem trades_fieldOffset {types : TypeTable} {id : RecordId} {field : String} {span : Span}
    (found : ((types.record? id).bind (·.field? field)).isSome) :
    (fieldOffset types (some (.record id)) field span).Trades S r 1 1 := by
  refine .gen (.bind (.need (P := fun _ => True) found fun _ _ => trivial) fun f _ => ?_)
  refine .pure ?_
  split
  · exact .cons ((Trades.straight (x := .pushInt _) rfl).frame 1) (.straight (x := .ptrAdd 1) rfl)
  · exact .nil

theorem trades_variableAddress {binding : Binding} {problem : LoweringProblem} {span : Span}
    (isVariable : binding.isVariable) :
    (variableAddress binding problem span).Trades S r 0 1 := by
  unfold variableAddress
  cases binding with
  | «local» slot => exact .gen (.pure (.straight (x := .localAddr slot) rfl))
  | global name => exact .gen (.pure (.straight (x := .globalAddr name) rfl))
  | _ => cases isVariable

theorem trades_stringAddress (s : String) : (stringAddress s).Trades S r 0 1 :=
  .gen (.bind (.intern s) fun n _ => .pure (.straight (x := .pushStr n) rfl))

theorem trades_push {instr : Instr} (straight : instr.isStraight) (takes : instr.takes = 0)
    (gives : instr.gives = 1) : (Piece.code [instr]).Trades S r 0 1 := by
  have single := Trades.straight (S := S) (r := r) straight
  rw [takes, gives] at single
  exact .code single

/-! ## Jumps -/

theorem trades_logical {op : BinaryOp} (hx : x.Trades S r 0 1) (hy : y.Trades S r 0 1) :
    (logical op x y).Trades S r 0 1 := by
  intro start
  unfold logical
  refine .bind (hx start) fun c hc => .bind (hy _) fun d hd => .pure ?_
  intro n
  generalize hshort : start + c.length + 1 + d.length + 3 = short
  generalize hjump : (if op = .and then Instr.jumpIfFalse short else .jumpIfTrue short) = jump
  have test (at_ : Nat) : Flows S r (fun h => h short = n ∧ h (short + 1) = n + 1) at_ (n + 1)
      [.instr jump] n := by
    rw [← hjump]
    split
    · exact .jumpIfFalse fun _ => And.left
    · exact .jumpIfTrue fun _ => And.left
  have push (at_ : Nat) (v : Int64) : Flows S r (fun h => h short = n ∧ h (short + 1) = n + 1) at_ n
      [.instr (.pushInt v)] (n + 1) := .straight (i := .pushInt v) rfl
  have right : Flows S r (fun h => h short = n ∧ h (short + 1) = n + 1)
      (start + (c.map Step.instr ++ [Step.instr jump]).length) n (d.map .instr) (n + 1) :=
    ((hd n).mono fun _ _ => trivial).at_ (by
      rw [List.length_append, List.length_map, List.length_singleton, Nat.add_assoc])
  have first := (((((hc n).mono fun _ _ => trivial).seq (test _)).seq right).seq (test _)).seq
    (push _ (boolWord (op = .and)))
  have body := first.seq (Flows.jump (m := n) fun _ => And.right)
  have shape : (c ++ jump :: d ++ [jump, .pushInt (boolWord (op = .and)), .jump (short + 1),
      .pushInt (boolWord (op != .and))]).map Step.instr
      = (c.map .instr ++ [.instr jump] ++ d.map .instr ++ [.instr jump]
        ++ [.instr (.pushInt (boolWord (op = .and)))] ++ [.instr (.jump (short + 1))])
        ++ [.instr (.pushInt (boolWord (op != .and)))] := by
    simp only [List.map_append, List.map_cons, List.map_nil, List.append_assoc, List.cons_append,
      List.nil_append]
  show Flows S r _ start n _ (n + 1)
  rw [shape]
  refine Flows.close (Flows.append (k := n) (body.mono ?_) ((push _ _).mono ?_))
  all_goals
    rintro h ⟨⟨-, -, stop⟩, between⟩
    simp only [List.length_append, List.length_map, List.length_singleton] at stop between
    refine ⟨?_, ?_⟩
    · rw [← between]
      exact congrArg h (by omega)
    · rw [← stop]
      exact congrArg h (by omega)

theorem trades_conditional {c : Piece} (hc : c.Trades S r 0 1) (hx : x.Trades S r 0 j)
    (hy : y.Trades S r 0 j) : (conditional c x y).Trades S r 0 j := by
  intro start
  unfold conditional
  refine .bind (hc start) fun c hc => .bind (hx _) fun x hx => .bind (hy _) fun y hy => .pure ?_
  intro n
  generalize hother : start + c.length + 1 + x.length + 1 = other at hy
  have yes : Flows S r (fun h => h other = n ∧ h (other + y.length) = n + j)
      (start + (c.map Step.instr ++ [Step.instr (.jumpIfFalse other)]).length) n (x.map .instr) (n + j) :=
    ((hx n).mono fun _ _ => trivial).at_ (by
      rw [List.length_append, List.length_map, List.length_singleton, Nat.add_assoc])
  have body := ((((hc n).mono fun _ _ => trivial).seq (Flows.jumpIfFalse fun _ => And.left)).seq yes).seq
    (Flows.jump (m := n) fun _ => And.right)
  have shape : (c ++ .jumpIfFalse other :: x ++ .jump (other + y.length) :: y).map Step.instr
      = (c.map .instr ++ [.instr (.jumpIfFalse other)] ++ x.map .instr
        ++ [.instr (.jump (other + y.length))]) ++ y.map .instr := by
    simp only [List.map_append, List.map_cons, List.append_assoc, List.cons_append,
      List.nil_append]
  have place : start + (c.map Step.instr ++ [Step.instr (.jumpIfFalse other)] ++ x.map Step.instr
      ++ [Step.instr (.jump (other + y.length))]).length = other := by
    simp only [List.length_append, List.length_map, List.length_singleton]
    omega
  show Flows S r _ start n _ (n + j)
  rw [shape]
  refine Flows.close (Flows.append (k := n) (body.mono ?_) ?_)
  · rintro h ⟨⟨-, -, stop⟩, between⟩
    rw [place] at between
    rw [List.length_append, List.length_map, ← Nat.add_assoc, place] at stop
    exact ⟨between, stop⟩
  · exact ((hy n).mono fun _ _ => trivial).at_ place.symm

/-! ## Arithmetic -/

theorem machineOp?_isSome {op : BinaryOp} (h : op.isLogical = false) : (machineOp? op).isSome := by
  cases op <;> first | rfl | cases h

theorem trades_instr {c : Instr} (straight : c.isStraight) (takes : c.takes = i)
    (gives : c.gives = j) : Trades S r i j [c] := by
  subst takes gives
  exact .straight straight

theorem trades_binary {types : TypeTable} {op : BinaryOp} {a b : Ty} {info : Typed.Info}
    (hx : x.Trades S r 0 1) (hy : y.Trades S r 0 1)
    (kind : op.isLogical = false → ∀ ty, operation types op a.decay b.decay info.ty = .arithmetic ty →
      HasKind ty) : (binary types op a b info x y).Trades S r 0 1 := by
  unfold binary
  split
  · exact trades_logical hx hy
  · rename_i notLogical
    have notLogical := Bool.eq_false_iff.mpr notLogical
    dsimp only
    split
    · exact (trades_both hx hy).append (trades_movePointer _ _ _)
    · exact (trades_both hy hx).append (trades_movePointer _ _ _)
    · exact (trades_both hx hy).append (.code (trades_instr rfl rfl rfl))
    · rename_i ty act
      have converted := (hx.append (.code (.convert a.decay ty))).append (hy.frame 1)
      refine (converted.append (.code ((Trades.convert b.decay ty).frame 1))).append (.gen ?_)
      refine .bind (.need (P := fun _ => True) (kind notLogical ty act) fun _ _ => trivial) fun k _ => ?_
      refine .bind (.need (P := fun _ => True) (machineOp?_isSome notLogical) fun _ _ => trivial)
        fun o _ => .pure ?_
      exact trades_instr rfl rfl rfl

theorem trades_compound {types : TypeTable} {op : BinaryOp} {kind : Scalar} {a b : Ty} {span : Span}
    (hx : x.Trades S r 0 1) (hy : y.Trades S r 0 1) (notLogical : op.isLogical = false)
    (common : a.isPointer = false → HasKind (Typed.operationType op a b.decay)) :
    (compound types op kind a b span x y).Trades S r 0 1 := by
  have store : Trades S r 2 1 [.store kind] := trades_instr rfl rfl rfl
  have old : (x ++ Piece.code [.dup, .load kind]).Trades S r 0 2 :=
    hx.append (.code (.cons (j := 2) (trades_instr rfl rfl rfl)
      ((trades_instr (i := 1) (j := 1) rfl rfl rfl).frame 1)))
  unfold compound
  dsimp only
  split
  · exact ((old.append (hy.frame 2)).append ((trades_movePointer _ _ _).frame 1)).append (.code store)
  · rename_i scalar
    have converted := (old.append (.code ((Trades.convert a (Typed.operationType op a b.decay)).frame 1))).append
      (hy.frame 2)
    refine (converted.append (.code ((Trades.convert b.decay _).frame 2))).append (.gen ?_)
    refine .bind (.need (P := fun _ => True) (machineOp?_isSome notLogical) fun _ _ => trivial) fun o _ => ?_
    refine .bind (.need (P := fun _ => True) (common (Bool.eq_false_iff.mpr scalar)) fun _ _ => trivial)
      fun k _ => .pure ?_
    refine .cons (j := 2) ((trades_instr (i := 2) (j := 1) rfl rfl rfl).frame 1) ?_
    exact ((Trades.convert _ a).frame 1).append store

theorem trades_assign {types : TypeTable} {op : Option BinaryOp} {a b : Ty} {span : Span}
    (hx : x.Trades S r 0 1) (hy : y.Trades S r 0 1) (record : a.isRecord → op = none)
    (kind : a.isRecord = false → HasKind a)
    (operator : ∀ o, op = some o → o.isLogical = false ∧
      (a.isPointer = false → HasKind (Typed.operationType o a b.decay))) :
    (assign types op a b span x y).Trades S r 0 1 := by
  unfold assign
  split
  · rename_i isRecord
    rw [record isRecord]
    exact (trades_both hx hy).append (.code (trades_instr rfl rfl rfl))
  · rename_i scalar
    have kind := kind (Bool.eq_false_iff.mpr scalar)
    unfold HasKind at kind
    split
    · rename_i missing
      rw [missing] at kind
      cases kind
    · cases op with
      | none =>
        refine (trades_both hx hy).append (.code (((Trades.convert b a).frame 1).append ?_))
        exact trades_instr rfl rfl rfl
      | some o => exact trades_compound hx hy (operator o rfl).1 (operator o rfl).2

theorem trades_increment {types : TypeTable} {ty : Ty} {up post : Bool} {span : Span}
    (hx : x.Trades S r 0 1) (kind : HasKind ty) : (increment types ty up post span x).Trades S r 0 1 := by
  refine hx.append (.gen ?_)
  refine .bind (.need (P := fun _ => True) kind fun _ _ => trivial) fun k _ => .pure ?_
  exact trades_instr rfl rfl rfl

theorem trades_unary {types : TypeTable} {op : UnaryOp} {ty : Ty} {info : Typed.Info}
    (hx : x.Trades S r 0 1) (arithmetic : op = .neg ∨ op = .bitNot → HasKind info.ty)
    (truth : op = .not → HasKind ty)
    (loads : op = .deref → info.ty.isAggregate = false → HasKind info.ty) :
    (unary types op ty info x).Trades S r 0 1 := by
  have computed (o : Code.UnaryOp) (kind : HasKind info.ty) :
      (x ++ Piece.code (convert ty info.ty) ++ .gen do
        return [.unary o (← need (kindOf? info.ty) .unaryOperand info.span)]).Trades S r 0 1 := by
    refine (hx.append (.code (.convert _ _))).append (.gen ?_)
    refine .bind (.need (P := fun _ => True) kind fun _ _ => trivial) fun k _ => .pure ?_
    exact trades_instr rfl rfl rfl
  unfold unary
  cases op with
  | neg => exact computed _ (arithmetic (.inl rfl))
  | bitNot => exact computed _ (arithmetic (.inr rfl))
  | not =>
    refine hx.append (.gen ?_)
    refine .bind (.need (P := fun _ => True) (truth rfl) fun _ _ => trivial) fun k _ => .pure ?_
    exact trades_instr rfl rfl rfl
  | deref => exact hx.append (trades_load (loads rfl))
  | _ => exact hx.append (.code (.convert _ _))

/-! ## Arguments -/

/-- Arguments are passed one by one. Structures are not passed at all. -/
theorem trades_passed (params : List Ty) {args : List (Expr × Piece)}
    (h : ∀ arg ∈ args, arg.1.ty.isRecord = false → arg.2.Trades S r 0 1) :
    (passed params args).Trades S r 0 args.length := by
  induction args generalizing params with
  | nil => exact .code .nil
  | cons arg args ih =>
    obtain ⟨e, value⟩ := arg
    have rest := (ih params.tail fun arg harg => h arg (List.mem_cons_of_mem _ harg)).frame 1
    rw [Nat.add_comm 1 args.length] at rest
    refine Piece.Trades.append (j := 1) ?_ rest
    refine .ite (fun _ => .gen (.fail rfl)) fun scalar => ?_
    exact (h _ List.mem_cons_self (Bool.eq_false_iff.mpr scalar)).append (.code (.convert _ _))

end IncrementalC.Lowering
