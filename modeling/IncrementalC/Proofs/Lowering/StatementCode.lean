import IncrementalC.Lowering.Unit
import IncrementalC.Proofs.Lowering.ExpressionCode
import IncrementalC.Proofs.Lowering.Piece

/-!
# The code of accepted declarations and statements

Initial values and statements leave the operand stack as they find it. So the code of a function whose
body gives a value wherever one is taken is balanced (`gives_function`), and so is the module that a
group of declarations is lowered to (`fits_lower`).

Conditions leave one value, which a jump takes. Everything else in a statement begins and ends with an
empty stack, so the places that jumps and marks lead to have height zero.
-/
namespace IncrementalC.Lowering
set_option autoImplicit false
open Typed

/-! ## Branches and loops -/

section Control

variable {S : Signatures} {r : Nat} {cond : Piece} {b yes no : Block}

theorem stays_ifThen (hc : cond.Trades S r 0 1) (hy : yes.Stays S r) : (ifThen cond yes).Stays S r := by
  intro start
  unfold ifThen
  refine .bind (hc start) fun c hc => .bind (hy _) fun y hy => .pure ?_
  generalize hstop : start + c.length + 1 + y.length = stop
  have test : Flows S r (fun h => h stop = 0) start 0 (c.map .instr ++ [Step.instr (.jumpIfFalse stop)]) 0 :=
    ((hc 0).mono fun _ _ => trivial).seq (Flows.jumpIfFalse fun _ => id)
  have body := test.seq ((hy.mono fun _ _ => trivial).at_ (by
    rw [List.length_append, List.length_map, List.length_singleton, Nat.add_assoc]))
  rw [← List.singleton_append, ← List.append_assoc]
  refine Flows.close (body.mono ?_)
  rintro h ⟨-, -, last⟩
  rw [← last, ← hstop]
  refine congrArg h ?_
  simp only [List.length_append, List.length_map, List.length_singleton]
  omega

theorem stays_ifElse (hc : cond.Trades S r 0 1) (hy : yes.Stays S r) (hn : no.Stays S r) :
    (ifElse cond yes no).Stays S r := by
  intro start
  unfold ifElse
  refine .bind (hc start) fun c hc => .bind (hy _) fun y hy => .bind (hn _) fun n hn => .pure ?_
  generalize hother : start + c.length + 1 + y.length + 1 = other at hn
  have test : Flows S r (fun h => h other = 0 ∧ h (other + n.length) = 0) start 0
      (c.map .instr ++ [Step.instr (.jumpIfFalse other)]) 0 :=
    ((hc 0).mono fun _ _ => trivial).seq (Flows.jumpIfFalse fun _ => And.left)
  have body := (test.seq ((hy.mono fun _ _ => trivial).at_ (by
    rw [List.length_append, List.length_map, List.length_singleton, Nat.add_assoc]))).seq
      (Flows.jump (m := 0) fun _ => And.right)
  have place : start + (c.map Step.instr ++ [Step.instr (.jumpIfFalse other)] ++ y
      ++ [Step.instr (.jump (other + n.length))]).length = other := by
    simp only [List.length_append, List.length_map, List.length_singleton]
    omega
  have shape : c.map Step.instr ++ .instr (.jumpIfFalse other) :: y ++ .instr (.jump (other + n.length)) :: n
      = (c.map Step.instr ++ [.instr (.jumpIfFalse other)] ++ y ++ [.instr (.jump (other + n.length))]) ++ n := by
    simp only [List.append_assoc, List.cons_append, List.nil_append]
  rw [shape]
  refine Flows.close (Flows.append (k := 0) (body.mono ?_) ?_)
  · rintro h ⟨⟨-, -, last⟩, between⟩
    rw [place] at between
    rw [List.length_append, ← Nat.add_assoc, place] at last
    exact ⟨between, last⟩
  · exact (hn.mono fun _ _ => trivial).at_ place.symm

theorem stays_whileLoop (hc : cond.Trades S r 0 1) (hb : b.Stays S r) :
    (whileLoop cond b).Stays S r := by
  intro start
  unfold whileLoop
  refine .bind (hc start) fun c hc => .bind (hb _) fun b hb => .pure ?_
  generalize hstop : start + c.length + 1 + b.length + 1 = stop
  have test : Flows S r (fun h => h stop = 0 ∧ h start = 0) start 0
      (c.map .instr ++ [Step.instr (.jumpIfFalse stop)]) 0 :=
    ((hc 0).mono fun _ _ => trivial).seq (Flows.jumpIfFalse fun _ => And.left)
  have round := (test.seq (((hb.resolve stop start).mono fun _ h => ⟨trivial, h⟩).at_ (by
    rw [List.length_append, List.length_map, List.length_singleton, Nat.add_assoc]))).seq
      (Flows.jump (m := 0) fun _ => And.right)
  have shape : (c ++ Instr.jumpIfFalse stop :: resolved stop start b ++ [Instr.jump start]).map Step.instr
      = (c.map Step.instr ++ [Step.instr (.jumpIfFalse stop)] ++ (resolved stop start b).map Step.instr)
        ++ [Step.instr (.jump start)] := by
    simp only [List.map_append, List.map_cons, List.map_nil, List.append_assoc, List.cons_append,
      List.nil_append]
  show Flows S r _ start 0 ((c ++ Instr.jumpIfFalse stop :: resolved stop start b ++ [_]).map .instr) 0
  rw [shape]
  refine Flows.close (round.mono ?_)
  rintro h ⟨-, first, last⟩
  refine ⟨?_, first⟩
  rw [← last, ← hstop]
  refine congrArg h ?_
  simp only [List.length_append, List.length_map, List.length_singleton, length_resolved]
  omega

theorem stays_doLoop (hb : b.Stays S r) (hc : cond.Trades S r 0 1) : (doLoop b cond).Stays S r := by
  intro start
  unfold doLoop
  refine .bind (hb start) fun b hb => .bind (hc _) fun c hc => .pure ?_
  generalize hnext : start + b.length = next at hc
  generalize hstop : next + c.length + 1 = stop
  have body : Flows S r (fun h => h stop = 0 ∧ h next = 0) start 0
      ((resolved stop next b).map .instr) 0 := (hb.resolve stop next).mono fun _ h => ⟨trivial, h⟩
  have place : start + ((resolved stop next b).map Step.instr).length = next := by
    rw [List.length_map, length_resolved, hnext]
  have test : Flows S r (fun h => h start = 0) next 0 (c.map .instr ++ [Step.instr (.jumpIfTrue start)]) 0 :=
    ((hc 0).mono fun _ _ => trivial).seq (Flows.jumpIfTrue fun _ => id)
  have shape : (resolved stop next b ++ c ++ [Instr.jumpIfTrue start]).map Step.instr
      = (resolved stop next b).map Step.instr
        ++ (c.map Step.instr ++ [Step.instr (.jumpIfTrue start)]) := by
    simp only [List.map_append, List.map_cons, List.map_nil, List.append_assoc]
  show Flows S r _ start 0 ((resolved stop next b ++ c ++ [_]).map .instr) 0
  rw [shape]
  refine Flows.round body test place ?_
  rw [List.length_append, List.length_map, List.length_singleton, ← hstop, Nat.add_assoc]

/-- The rounds of a `for` loop behind the test, if there is one. -/
theorem stays_rounds (c exit : List Instr) {b : List Step} {s : List Instr}
    {start stop next : Nat}
    (test : Flows S r (fun h => h stop = 0) start 0 ((c ++ exit).map .instr) 0)
    (hb : Flows S r (fun _ => True) (start + (c ++ exit).length) 0 b 0)
    (hs : Flows S r (fun _ => True) next 0 (s.map .instr) 0)
    (hnext : start + (c ++ exit).length + b.length = next) (hstop : next + s.length + 1 = stop) :
    Flows S r (fun _ => True) start 0
      ((c ++ exit ++ resolved stop next b ++ s ++ [Instr.jump start]).map .instr) 0 := by
  have round : Flows S r (fun h => h stop = 0 ∧ h next = 0) start 0
      ((c ++ exit).map Step.instr ++ (resolved stop next b).map Step.instr) 0 :=
    (test.mono fun _ => And.left).seq (((hb.resolve stop next).mono fun _ h => ⟨trivial, h⟩).at_ (by
      rw [List.length_map]))
  have place : start + ((c ++ exit).map Step.instr ++ (resolved stop next b).map Step.instr).length = next := by
    rw [List.length_append, List.length_map, List.length_map, length_resolved, ← Nat.add_assoc, hnext]
  have step : Flows S r (fun h => h start = 0) next 0 (s.map .instr ++ [Step.instr (.jump start)]) 0 :=
    (hs.mono fun _ _ => trivial).seq (Flows.jump (m := 0) fun _ => id)
  have shape : (c ++ exit ++ resolved stop next b ++ s ++ [Instr.jump start]).map Step.instr
      = ((c ++ exit).map Step.instr ++ (resolved stop next b).map Step.instr)
        ++ (s.map Step.instr ++ [Step.instr (.jump start)]) := by
    simp only [List.map_append, List.map_cons, List.map_nil, List.append_assoc]
  rw [shape]
  refine Flows.round round step place ?_
  rw [List.length_append, List.length_map, List.length_singleton, ← hstop, Nat.add_assoc]

theorem stays_forLoop {cond : Option Piece} {step : Piece}
    (hc : ∀ c, cond = some c → c.Trades S r 0 1) (hb : b.Stays S r) (hs : step.Trades S r 0 0) :
    (forLoop cond b step).Stays S r := by
  intro start
  cases cond with
  | none =>
    unfold forLoop
    refine .bind (.pure (P := fun c : List Instr => c = []) rfl) fun c hc => ?_
    refine .bind (hb _) fun b hb => .bind (hs _) fun s hs => .pure ?_
    subst hc
    exact stays_rounds [] [] .nil hb (hs 0) rfl rfl
  | some cond =>
    unfold forLoop
    refine .bind (hc cond rfl start) fun c hc => .bind (hb _) fun b hb => .bind (hs _) fun s hs => .pure ?_
    have place (target : Nat) :
        start + (c ++ [Instr.jumpIfFalse target]).length = start + c.length + 1 := by
      rw [List.length_append, List.length_singleton, Nat.add_assoc]
    refine stays_rounds c [.jumpIfFalse _] ?_ (hb.at_ (place _).symm) (hs 0)
      (congrArg (· + b.length) (place _)) rfl
    rw [List.map_append]
    exact ((hc 0).mono fun _ _ => trivial).seq (Flows.jumpIfFalse fun _ => id)

end Control

variable {S : Signatures} {r : Nat} {a : Analysis}

/-! ## Initial values -/

theorem trades_address (place : Place) (offset : Nat) : Trades S r 0 1 (place.address offset) := by
  cases place with
  | «local» slot => exact .straight (x := .localAddr _) rfl
  | global name =>
    refine .cons (j := 1) (.straight (x := .globalAddr name) rfl) ?_
    split
    · exact .cons ((Trades.straight (x := .pushInt _) rfl).frame 1) (.straight (x := .ptrAdd 1) rfl)
    · exact .nil

theorem trades_storeWord (place : Place) (slot : Nat) (word : Int64) (kind : Scalar) :
    Trades S r 0 0 (place.address slot ++ [.pushInt word, .store kind, .pop]) := by
  refine (trades_address place slot).append ?_
  refine .cons (j := 2) ((Trades.straight (x := .pushInt word) rfl).frame 1) ?_
  exact .cons (.straight (x := .store kind) rfl) (.straight (x := .pop) rfl)

theorem trades_flatMap {α : Type} {f : α → List Instr} {xs : List α}
    (h : ∀ x, Trades S r 0 0 (f x)) : Trades S r 0 0 (xs.flatMap f) := by
  induction xs with
  | nil => exact .nil
  | cons x xs ih =>
    rw [List.flatMap_cons]
    exact (h x).append ih

theorem trades_storeExpr {place : Place} {offset : Nat} {ty : Ty} {e : Expr} (declared : Declared S a)
    (accepted : e.Accepted a) (filled : filledPart ty e) (definite : ty.Definite) :
    (storeExpr a place offset ty e).Trades S r 0 0 := by
  unfold filledPart at filled
  rw [Bool.and_eq_true, Bool.and_eq_true, Bool.not_eq_true', Bool.not_eq_true'] at filled
  obtain ⟨⟨part, value⟩, filled⟩ := filled
  have coded := (coded (r := r) declared accepted filled).value
  rw [values_of_isVoid value] at coded
  have given := (Piece.Trades.code (trades_address (S := S) (r := r) place offset)).append (coded.frame 1)
  have notVoid : ty ≠ .void := by
    rintro rfl
    cases part
  refine Piece.Trades.append (j := 1) (given.append ?_) (.code (.straight (x := .pop) rfl))
  split
  · exact .code (trades_instr rfl rfl rfl)
  · rename_i notRecord
    refine Piece.Trades.append (.code ((Trades.convert _ _).frame 1)) (.gen ?_)
    have kind := hasKind_of_definite definite notVoid (Bool.eq_false_iff.mpr notRecord)
    exact .bind (.need (P := fun _ => True) kind fun _ _ => trivial) fun k _ =>
      .pure (trades_instr rfl rfl rfl)

mutual

theorem trades_storeInitial (declared : Declared S a) (sound : a.Sound) (place : Place) :
    ∀ {init : Initializer} {ty : Ty} (offset : Nat), AcceptedInit a ty init →
      filledInit a.types ty init → ty.Definite → (storeInitial a place offset ty init).Trades S r 0 0
  | .expr e, ty, offset, h, f, d => by
    cases ty with
    | array elem n =>
      obtain ⟨-, i, s, rfl⟩ := h.2
      exact .code (trades_flatMap fun x => trades_storeWord place x.1 x.2 _)
    | _ => exact trades_storeExpr declared h.1 f d
  | .list items s, ty, offset, h, f, d => by
    rw [AcceptedInit.eq_def] at h
    rw [filledInit.eq_def] at f
    rw [storeInitial.eq_def]
    dsimp only at h f ⊢
    cases ty with
    | array elem n => exact trades_storeElements declared sound place _ offset h f d
    | record id =>
      obtain ⟨record, found, complete, members⟩ := h
      dsimp only at f ⊢
      rw [found] at f ⊢
      exact trades_storeFields declared sound place offset members f
        fun x hx => ((sound.record id record found).fields x hx).definite
    | _ =>
      match items, h, f with
      | [], _, _ => exact .code .nil
      | [item], h, f => exact trades_storeInitial declared sound place offset h f d
  | .construct args s, ty, offset, h, f, d => by
    rw [AcceptedInit.eq_def] at h
    match args, h, f with
    | [], _, _ => exact .code .nil
    | [e], h, f => exact trades_storeExpr declared h.2.1 f d

theorem trades_storeElements (declared : Declared S a) (sound : a.Sound) (place : Place) {elem : Ty}
    (stride : Nat) : ∀ {items : List Initializer} (offset : Nat), AcceptedElements a elem items →
      filledElements a.types elem items → elem.Definite →
        (storeElements a place elem stride offset items).Trades S r 0 0
  | [], _, _, _, _ => .code .nil
  | _ :: _, offset, h, f, d => by
    have f := Bool.and_eq_true_iff.mp f
    exact (trades_storeInitial declared sound place offset h.1 f.1 d).append
      (trades_storeElements declared sound place stride _ h.2 f.2 d)

theorem trades_storeFields (declared : Declared S a) (sound : a.Sound) (place : Place) :
    ∀ {items : List Initializer} {fields : List Field} (offset : Nat), AcceptedMembers a fields items →
      filledMembers a.types fields items → (∀ x ∈ fields, x.ty.Definite) →
        (storeFields a place fields offset items).Trades S r 0 0
  | [], _, _, _, _, _ => .code .nil
  | item :: items, fields, offset, h, f, d => by
    cases fields with
    | nil => exact h.elim
    | cons x fields =>
      rw [AcceptedMembers.eq_def] at h
      have f := Bool.and_eq_true_iff.mp f
      exact (trades_storeInitial declared sound place _ h.1 f.1 (d x List.mem_cons_self)).append
        (trades_storeFields declared sound place offset h.2 f.2 fun x hx => d x (List.mem_cons_of_mem _ hx))

end

theorem trades_initObject {place : Place} {ty : Ty} {init : Initializer} (declared : Declared S a)
    (sound : a.Sound) (accepted : AcceptedInit a ty init) (filled : filledInit a.types ty init)
    (definite : ty.Definite) : (initObject a place ty init).Trades S r 0 0 := by
  have store := trades_storeInitial (r := r) declared sound place 0 accepted filled definite
  unfold initObject
  refine .ite (fun _ => ?_) fun _ => store
  exact Piece.Trades.append (.code (trades_flatMap fun slot => trades_storeWord place slot 0 .i64)) store

/-! ## Declarations -/

theorem gives_addGlobal (v : VarDecl) (image : List (Nat × Constant)) :
    Gives (addGlobal a v image) fun _ => True := by
  unfold addGlobal
  refine .bind (P := fun _ => True) (Gives.mono (.mapM (R := fun _ => True) fun x _ => ?_) fun _ _ => trivial)
    fun _ _ => .modify fun _ => rfl
  refine .bind (P := fun _ => True) ?_ fun _ _ => .pure trivial
  unfold addGlobal.constant
  split <;> first | exact .pure trivial | exact .bind (.intern _) fun _ _ => .pure trivial

theorem trades_localDecls (declared : Declared S a) (sound : a.Sound) {ds : List Decl}
    (accepted : AcceptedDecls a ds) (filled : ds.all (·.filled a.types)) :
    (localDecls a ds).Trades S r 0 0 := by
  induction ds with
  | nil => exact .code .nil
  | cons d ds ih =>
    rw [List.all_cons, Bool.and_eq_true] at filled
    refine Piece.Trades.append ?_ (ih (fun d hd => accepted d (List.mem_cons_of_mem _ hd)) filled.2)
    have accepted := accepted d List.mem_cons_self
    have filled := filled.1
    unfold Decl.filled at filled
    obtain ⟨kind, span⟩ := d
    cases kind with
    | var v =>
      dsimp only at accepted filled ⊢
      split
      · exact .gen (.bind (gives_addGlobal v _) fun _ _ => .pure .nil)
      · rename_i slot init storage hinit
        rw [hinit, Option.all_some] at filled
        exact trades_initObject declared sound (accepted.init init hinit) filled accepted.object.definite
      · exact .code .nil
    | _ => exact .code .nil

/-! ## Statements -/

theorem stays_mark_returnVoid (void : r = 0) : (Block.mark (.instr .returnVoid)).Stays S r :=
  fun _ => .pure (.single fun _ _ _ _ => void)

theorem stays_return {p : Piece} {source target : Ty} (value : p.Trades S 1 0 1) :
    (p ++ Piece.code (convert source target ++ [.return])).Stays S 1 := by
  refine Piece.Trades.stays (value.append (.code ((Trades.convert source target).append ?_)))
  intro start n
  refine .single fun h _ before _ => ⟨rfl, ?_⟩
  rw [before]
  exact Nat.succ_pos n

/-- A condition leaves a value. -/
theorem trades_condition (declared : Declared S a) {e : Expr} (accepted : AcceptedCondition a e)
    (filled : e.filled) : (rvalue a e).Trades S r 0 1 := by
  obtain ⟨he, kind⟩ := accepted
  rw [(he.definite declared.noFallback).not_isDependent] at kind
  exact (coded declared he filled).one (isScalar_facts (isScalar_decay (kind.resolve_right nofun))).2.1

mutual

/-- The code of an accepted statement begins and ends with an empty stack. -/
theorem stays_statement (declared : Declared S a) (sound : a.Sound) {ret : Ty} (hr : r = ret.values)
    {inLoop : Bool} : ∀ {s : Stmt}, AcceptedStmt a ret inLoop s → filledStmt a.types s →
      (statement a ret inLoop s).Stays S r
  | .null _, _, _ => .empty
  | .expr _ e, h, f => .ofPiece (trades_discard (coded declared h f).value).stays
  | .decl _ g, h, f => .ofPiece (trades_localDecls declared sound h f).stays
  | .compound _ ss, h, f => stays_statements declared sound hr h f
  | .ifThen _ c yes, h, f => by
    have f := Bool.and_eq_true_iff.mp f
    exact stays_ifThen (trades_condition declared h.1 f.1) (stays_statement declared sound hr h.2 f.2)
  | .ifElse _ c yes no, h, f => by
    unfold filledStmt at f
    rw [Bool.and_eq_true, Bool.and_eq_true] at f
    exact stays_ifElse (trades_condition declared h.1 f.1.1) (stays_statement declared sound hr h.2.1 f.1.2)
      (stays_statement declared sound hr h.2.2 f.2)
  | .while _ c body, h, f => by
    have f := Bool.and_eq_true_iff.mp f
    exact .ofPiece (stays_whileLoop (trades_condition declared h.1 f.1)
      (stays_statement declared sound hr h.2 f.2))
  | .doWhile _ body c, h, f => by
    have f := Bool.and_eq_true_iff.mp f
    exact .ofPiece (stays_doLoop (stays_statement declared sound hr h.2 f.2)
      (trades_condition declared h.1 f.1))
  | .for _ init c step body, h, f => by
    unfold filledStmt at f
    rw [Bool.and_eq_true, Bool.and_eq_true, Bool.and_eq_true] at f
    obtain ⟨hinit, hc, hstep, hbody⟩ := h
    obtain ⟨⟨⟨finit, fc⟩, fstep⟩, fbody⟩ := f
    refine .ofPiece (.append ?_ (stays_forLoop ?_ (stays_statement declared sound hr hbody fbody) ?_))
    · cases init with
      | none => exact Piece.Trades.stays (.code .nil)
      | decl _ g => exact (trades_localDecls declared sound hinit finit).stays
      | expr _ e => exact (trades_discard (coded declared hinit finit).value).stays
    · intro piece hpiece
      obtain ⟨e, rfl, rfl⟩ := Option.map_eq_some_iff.mp hpiece
      exact trades_condition declared (hc e rfl) fc
    · cases step with
      | none => exact .code .nil
      | some e => exact trades_discard (coded declared (hstep e rfl) fstep).value
  | .break n, h, _ => by
    cases inLoop with
    | true => exact .mark (.inl rfl)
    | false => cases h
  | .continue n, h, _ => by
    cases inLoop with
    | true => exact .mark (.inr rfl)
    | false => cases h
  | .return _ none, h, _ => by
    have void : ret.isVoid := h
    refine stays_mark_returnVoid ?_
    rw [hr, Ty.values, if_pos void]
  | .return _ (some e), h, f => by
    obtain ⟨he, result⟩ := h
    unfold filledStmt at f
    rw [Bool.and_eq_true, Bool.not_eq_true'] at f
    have notVoid : ¬ret.isVoid := by
      intro void
      rw [if_pos void, f.1] at result
      cases result
    have one : r = 1 := by rw [hr, Ty.values, if_neg notVoid]
    subst one
    refine .ofPiece (stays_return ?_)
    have value := (coded (r := 1) declared he f.2).value
    rwa [values_of_isVoid f.1] at value

theorem stays_statements (declared : Declared S a) (sound : a.Sound) {ret : Ty} (hr : r = ret.values)
    {inLoop : Bool} : ∀ {ss : List Stmt}, AcceptedStmts a ret inLoop ss → filledStmts a.types ss →
      (statements a ret inLoop ss).Stays S r
  | [], _, _ => .empty
  | _ :: _, h, f => by
    have f := Bool.and_eq_true_iff.mp f
    exact .append (stays_statement declared sound hr h.1 f.1) (stays_statements declared sound hr h.2 f.2)

end

/-! ## Functions and modules -/

theorem flows_ending (ret : Option Scalar) {start : Nat} (hr : r = if ret.isSome then 1 else 0) :
    Flows S r (fun _ => True) start 0 ((ending ret).map .instr) 0 := by
  cases ret with
  | none => exact .single fun _ _ _ _ => hr
  | some kind =>
    have value : Trades S r 0 1 [.pushInt 0, .convert .i64 kind] :=
      .cons (.straight (x := .pushInt 0) rfl) (.straight (x := .convert .i64 kind) rfl)
    refine Flows.seq (c := [.instr (.pushInt 0), .instr (.convert .i64 kind)])
      (d := [.instr .return]) (value start 0) (.single fun h _ before _ => ⟨hr, ?_⟩)
    rw [before]
    exact Nat.one_pos

/-- The code of a function that is declared as it is defined. -/
theorem gives_function (declared : Declared S a) (sound : a.Sound) {f : FunctionDecl} {body : Stmt}
    (head : f.Accepted a) (accepted : AcceptedStmt a f.ret false body)
    (filled : filledStmt a.types body) : Gives (function a f body) (CodeFunction.Fits S) := by
  unfold function
  refine .bind (P := fun _ => True)
    (Gives.mono (.mapM (R := fun _ => True) fun p _ => .needSupported rfl fun _ _ => trivial) fun _ _ => trivial)
    fun params _ => ?_
  have finish (ret : Option Scalar) (hret : f.ret.values = if ret.isSome then 1 else 0) :
      Gives (do
        let steps ← statement a f.ret false body 0
        let code := steps.map (·.resolve 0 0) ++ ending ret
        return { name := f.name, params, ret, frameSlots := f.frameSlots, code := code.toArray })
        (CodeFunction.Fits S) := by
    refine .bind (stays_statement declared sound hret.symm accepted filled 0) fun steps hsteps => .pure ?_
    have flows := hsteps.seq (flows_ending (S := S) ret rfl)
    refine ⟨flows.balanced ?_, fun sig known => ?_⟩
    · show resolved 0 0 steps ++ ending ret = resolved 0 0 (steps ++ (ending ret).map .instr)
      unfold resolved
      rw [List.map_append]
      exact congrArg _ (resolved_instr 0 0 (ending ret)).symm
    · rw [declared.signature _ _ head.signature] at known
      cases known
      exact hret.symm
  dsimp only
  split
  · rename_i void
    exact .bind (.pure (P := (· = none)) rfl) fun ret hret => finish ret (by
      rw [hret, Ty.values, if_pos void]
      rfl)
  · rename_i notVoid
    refine .bind (P := fun ret : Option Scalar => ret.isSome) ?_ fun ret hret => finish ret ?_
    · rw [map_eq_pure_bind]
      exact .bind (.needSupported (P := fun _ => True) rfl fun _ _ => trivial) fun _ _ => .pure rfl
    · rw [Ty.values, if_neg notVoid, if_pos hret]

/-- The module grows by functions that fit, or a part of the language has no code. -/
def Grows (S : Signatures) {α : Type} (m : Gen α) : Prop :=
  ∀ g : CodeModule, g.Fits S → match m.run g with
    | .ok x => x.2.Fits S
    | .error e => e.problem.unsupported?.isSome

namespace Grows

variable {α β : Type}

theorem pure (x : α) : Grows S (Pure.pure x : Gen α) := fun _ fits => fits

theorem bind {P : α → Prop} {m : Gen α} {f : α → Gen β} (hm : Gives m P) (hf : ∀ x, P x → Grows S (f x)) :
    Grows S (m >>= f) := by
  intro g fits
  have first : GivenBy g P (m g) := hm g
  show match StateT.bind m f g with
    | .ok x => x.2.Fits S
    | .error e => e.problem.unsupported?.isSome
  unfold StateT.bind
  cases run : m g with
  | error e =>
    rw [run] at first
    exact first
  | ok x =>
    rw [run] at first
    refine hf x.1 first.2 x.2 fun h hh => fits h ?_
    rw [← first.1]
    exact hh

theorem seq {m : Gen α} {m' : Gen β} (hm : Grows S m) (hm' : Grows S m') :
    Grows S (m >>= fun _ => m') := by
  intro g fits
  have first := hm g fits
  show match StateT.bind m (fun _ => m') g with
    | .ok x => x.2.Fits S
    | .error e => e.problem.unsupported?.isSome
  unfold StateT.bind
  cases run : m g with
  | error e =>
    rw [StateT.run, run] at first
    exact first
  | ok x =>
    rw [StateT.run, run] at first
    exact hm' x.2 first

theorem forM {f : α → Gen Unit} {xs : List α} (h : ∀ x ∈ xs, Grows S (f x)) : Grows S (xs.forM f) := by
  induction xs with
  | nil => exact pure _
  | cons x xs ih =>
    show Grows S (f x >>= fun _ => xs.forM f)
    exact seq (h x List.mem_cons_self) (ih fun x hx => h x (List.mem_cons_of_mem _ hx))

theorem addFunction {f : CodeFunction} {g : CodeModule → CodeModule} (fits : f.Fits S)
    (adds : ∀ c, (g c).functions = c.functions.push f) : Grows S (modify g : Gen Unit) := by
  intro c table h hh
  have mem : h ∈ c.functions.push f := adds c ▸ hh
  rcases Array.mem_push.mp mem with mem | rfl
  · exact table h mem
  · exact fits

end Grows

/-- The function that stores an initial value at run time. -/
theorem grows_global (declared : Declared S a) (sound : a.Sound)
    (reserved : ∀ name, S (initializerName name) = none) {v : VarDecl} (accepted : v.Accepted a)
    (filled : v.init.all (filledInit a.types v.ty)) : Grows S (global a v) := by
  unfold global
  refine .bind (gives_addGlobal v _) fun _ _ => ?_
  split
  · rename_i init given
    have hinit : v.init = some init := congrArg Prod.snd given
    rw [hinit, Option.all_some] at filled
    have stored : (initObject a (.global v.linkName) v.ty init).Trades S 0 0 0 :=
      trades_initObject declared sound (accepted.init init hinit) filled accepted.object.definite
    refine .bind (stored.stays 0) fun code hcode => ?_
    refine .addFunction ⟨?_, fun sig known => ?_⟩ fun _ => rfl
    · have flows : Flows S 0 (fun _ => True) 0 0 ((code ++ [Instr.returnVoid]).map .instr) 0 := by
        rw [List.map_append]
        exact hcode.seq (.single fun _ _ _ _ => rfl)
      exact flows.balanced (by rw [resolved_instr])
    · rw [show S (initializerName v.linkName) = none from reserved _] at known
      cases known
  · exact .pure _

/-- What lowering gives. -/
def LoweredTo (S : Signatures) : Except LoweringError CodeModule → Prop
  | .ok c => c.Fits S
  | .error e => e.problem.unsupported?.isSome

/-- An accepted group that gives a value wherever one is taken lowers to code that fits, unless a part
of the language has no code. -/
theorem fits_lower (declared : Declared S a) (sound : a.Sound)
    (reserved : ∀ name, S (initializerName name) = none) {t : TopLevel} (accepted : t.Accepted a)
    (filled : t.filled a.types) {c : CodeModule} (fits : c.Fits S) : LoweredTo S (lower a t c) := by
  unfold TopLevel.filled at filled
  rw [Bool.and_eq_true] at filled
  have decls : Grows S (t.group.decls.forM (declaration a)) := by
    refine .forM fun d hd => ?_
    have accepted := accepted.decls d hd
    have filled := List.all_eq_true.mp filled.1 d hd
    unfold Decl.filled at filled
    unfold declaration
    obtain ⟨kind, span⟩ := d
    cases kind with
    | var v =>
      dsimp only at accepted filled ⊢
      split
      · exact grows_global declared sound reserved accepted filled
      · exact .pure _
    | _ => exact .pure _
  have body : Grows S (lower.group a t) := by
    unfold lower.group
    refine decls.seq ?_
    split
    · rename_i f body given
      have hf := Prod.mk.inj given
      obtain ⟨d, last, kind⟩ := TopLevel.function?_eq_some hf.1
      have head := accepted.decls d (List.mem_of_getLast? last)
      rw [kind] at head
      have filled := filled.2
      rw [hf.2, Option.all_some] at filled
      exact .bind (gives_function declared sound head (accepted.body f body hf.1 hf.2) filled)
        fun code hcode => .addFunction hcode fun _ => rfl
    · exact .pure _
  have grown := body c fits
  unfold lower
  cases run : (lower.group a t).run c with
  | error e =>
    rw [run] at grown
    exact grown
  | ok x =>
    rw [run] at grown
    exact grown

end IncrementalC.Lowering
