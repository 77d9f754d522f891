import IncrementalC.Proofs.Semantics.Layout

/-!
# The code of a statement does what the statement says

Where a placed statement sits in the code of the innermost active function, the machine simulates it:
each part of the statement is simulated by its stretch of the code and the jumps around it
(`simulates_perform`), and the code behind the body returns (`simulates_body`).
-/
namespace IncrementalC
set_option autoImplicit false
open Lowering Typed

/-- What may become of an instruction when it is linked. -/
structure Instr.Becomes (i i' : Instr) : Prop where
  target : i'.target? = i.target?
  returns : i'.isReturn = i.isReturn
  control : i.isControl || i.isTest → i' = i

namespace Structured

variable {η : Type} {evaluate : List Value → Exec η Value} {l : List Frame} {f : Frame}
  {R : Instr → Instr → Prop} {a : Analysis} {ret : Ty}

/-- Where the machine stands when a statement has ended. -/
def after (f : Frame) (stop : Nat) (loop : Nat × Nat) : Completion → World η → World η
  | .normal, w => w.goto stop
  | .leaves, w => w.goto loop.1
  | .again, w => w.goto loop.2
  | .returns v, w => w.leave f.function.ret v

section Parts

variable (becomes : ∀ i i', R i i' → i.Becomes i')
include becomes

theorem found_of_stood {code : Array Instr} {k : Nat} {i : Instr} (h : Stood R code k i)
    (control : i.isControl || i.isTest) : code[k]? = some i := by
  obtain ⟨i', found, linked⟩ := h
  rw [found, (becomes i i' linked).control control]

/-- What holds of the code of a piece holds of the stretch that it fills. -/
theorem inward_of_fills {code : Array Instr} {p : Piece} {c : Segment} (inward : p.Inward)
    (h : p.Fills R code c) : c.Inward code := by
  obtain ⟨g, is, g', run, last, shows_⟩ := h
  have between := inward c.first g is g' run
  have origin (k : Nat) (i : Instr) (low : c.first ≤ k) (high : k < c.last) (found : code[k]? = some i) :
      ∃ j ∈ is, j.Becomes i := by
    have inside : k - c.first < is.length := by omega
    obtain ⟨i', found', linked⟩ := shows_ _ _ (List.getElem?_eq_getElem inside)
    rw [Nat.add_sub_cancel' low, found] at found'
    cases found'
    exact ⟨_, List.getElem_mem inside, becomes _ _ linked⟩
  refine ⟨by omega, fun k i low high found => ?_, fun k i target low high found given => ?_⟩
  · obtain ⟨j, hj, becomes⟩ := origin k i low high found
    exact becomes.returns.trans (between j hj).1
  · obtain ⟨j, hj, becomes⟩ := origin k i low high found
    rw [last]
    exact (between j hj).2 target (becomes.target ▸ given)

variable (steady : ∀ args, Exec.Steady (evaluate args))
include steady

theorem simulates_run {e : PlacedExpr} {p : Nat} (sits : SitsAt R f.function.code a e p) :
    Simulates evaluate l f (run evaluate l.length e.2) (World.goto · p) (fun _ w => w.goto e.2.last)
      fun _ => 0 := by
  have simulates := Simulates.run (l := l) steady (inward_of_fills becomes (inward_rvalue e.1) sits.fills)
  rwa [sits.first] at simulates

theorem simulates_effect {e : PlacedExpr} {p q : Nat} (sits : SitsEffect R f.function.code a e p q) :
    Simulates evaluate l f (effect evaluate l.length e) (World.goto · p) (fun _ w => w.goto q) fun _ => 0 := by
  refine .bind (c := fun _ _ => 0) (simulates_run becomes steady sits.toSitsAt) (fun _ => ?_)
    fun _ _ => Nat.zero_le _
  have drops := sits.drops
  cases void : e.1.ty.isVoid with
  | true =>
    rw [void, if_pos rfl] at drops
    rw [drops]
    exact .pure rfl
  | false =>
    rw [void, if_neg nofun] at drops
    rw [← drops.2]
    exact (Simulates.control (acts_pop (found_of_stood becomes drops.1 rfl)) rfl).mono fun _ => Nat.zero_le _

theorem simulates_condition {e : PlacedExpr} {p yes no : Nat} {i : Instr}
    (sits : SitsAt R f.function.code a e p)
    (acts : Simulates.Acts evaluate l f e.2.last i Exec.pop fun v w => w.goto (if v.isTruthy then yes else no))
    (test : i.isTest) :
    Simulates evaluate l f (condition evaluate l.length e) (World.goto · p)
      (fun b w => w.goto (if b then yes else no)) fun _ => 1 :=
  .bind (simulates_run becomes steady sits) (fun _ => Simulates.test acts test) fun _ _ => Nat.le_add_left _ _

/-- A condition whose code is followed by a jump to where it does not hold. -/
theorem simulates_conditionFalse {e : PlacedExpr} {p target : Nat} (sits : SitsAt R f.function.code a e p)
    (jump : Stood R f.function.code e.2.last (.jumpIfFalse target)) :
    Simulates evaluate l f (condition evaluate l.length e) (World.goto · p)
      (fun b w => w.goto (if b then e.2.last + 1 else target)) fun _ => 1 :=
  simulates_condition becomes steady sits (acts_jumpIfFalse (found_of_stood becomes jump rfl)) rfl

theorem simulates_stores {xs : List Piece} (inward : ∀ x ∈ xs, x.Inward) {cs : List Segment} {p q : Nat}
    (sits : SitsStores R f.function.code xs cs p q) :
    Simulates evaluate l f (runAll evaluate l.length cs) (World.goto · p) (fun _ w => w.goto q) fun _ => 0 := by
  induction xs generalizing cs p with
  | nil =>
    cases cs with
    | nil =>
      cases sits
      exact .pure rfl
    | cons c cs => exact sits.elim
  | cons x xs ih =>
    cases cs with
    | nil => exact sits.elim
    | cons c cs =>
      obtain ⟨fills, first, rest⟩ := sits
      have here := Simulates.run (l := l) steady
        (inward_of_fills becomes (inward x List.mem_cons_self) fills)
      rw [first] at here
      exact .bind here (fun _ => ih (fun y hy => inward y (List.mem_cons_of_mem _ hy)) rest)
        fun _ _ => Nat.zero_le _

omit steady in
theorem simulates_convertTop {source target : Ty} {p : Nat} {rest : List Instr}
    (shows_ : Shows R f.function.code p (convert source target ++ rest)) :
    Simulates evaluate l f (convertTop source target) (World.goto · p)
      (fun _ w => w.goto (p + (convert source target).length)) fun _ => 0 := by
  unfold convertTop convert at *
  cases hs : kindOf? source with
  | none => exact .pure rfl
  | some s =>
    cases ht : kindOf? target with
    | none => exact .pure rfl
    | some t =>
      rw [hs, ht] at shows_
      dsimp only at shows_ ⊢
      by_cases same : s = t
      · rw [if_pos same, if_neg (not_not_intro same)]
        exact .pure rfl
      · rw [if_neg same] at shows_
        rw [if_neg same, if_pos same]
        exact (Simulates.control (acts_convert (found_of_stood becomes shows_.left.head rfl)) rfl).mono
          fun _ => Nat.zero_le _

end Parts

/-! ## Loops -/

/-- What a loop that ends at `stop` and goes on at `start` makes of the end of its body. -/
def onwards (start : World η → World η) (goal : Completion → World η → World η) :
    Option Completion → World η → World η
  | none => start
  | some o => goal o

/-- A round that goes on counts an instruction. -/
def roundCost : Option Completion → Nat
  | none => 1
  | some _ => 0

theorem roundCost_le (o : Option Completion) : roundCost o ≤ 1 := by
  cases o
  · exact Nat.le_refl 1
  · exact Nat.zero_le 1

theorem simulates_afterBody {start : World η → World η} {stop mid next : Nat} {loop : Nat × Nat}
    {onNext onAgain : Structured η (Option Completion)} {o : Completion} {cost : Option Completion → Nat}
    (free : ∀ o, cost (some o) = 0)
    (hn : Simulates evaluate l f onNext (World.goto · mid) (onwards start (after f stop loop)) cost)
    (ha : Simulates evaluate l f onAgain (World.goto · next) (onwards start (after f stop loop)) cost) :
    Simulates evaluate l f (afterBody onNext onAgain o) (after f mid (stop, next) o)
      (onwards start (after f stop loop)) cost := by
  cases o with
  | normal => exact hn
  | again => exact ha
  | leaves => exact .done (x := some Completion.normal) rfl (free _)
  | returns v => exact .done (x := some (.returns v)) rfl (free _)

theorem simulates_forever {round : Structured η (Option Completion)} {start : World η → World η}
    {goal : Completion → World η → World η} (hr : Simulates evaluate l f round start (onwards start goal) roundCost) :
    Simulates evaluate l f (forever round) start goal fun _ => 0 := by
  refine Simulates.forever (show roundCost none = 1 from rfl) ?_
  have same : onwards start goal = fun o : Option Completion => match o with
      | none => start
      | some o => goal o := by
    funext o
    cases o <;> rfl
  rwa [same] at hr

/-! ## Statements -/

section Statements

variable (becomes : ∀ i i', R i i' → i.Becomes i') (steady : ∀ args, Exec.Steady (evaluate args))
include becomes steady

/-- The values that a function returns are no void ones. -/
def Valued (P : PlacedStmt) : Prop := P.Each (fun _ => True) (fun e => e.1.ty.isVoid = false) fun _ => True

def AllValued (Ps : List PlacedStmt) : Prop :=
  Statement.EachOf (fun _ => True) (fun e => e.1.ty.isVoid = false) (fun _ => True) Ps

theorem simulates_while {n : Node} {c : PlacedExpr} {body : PlacedStmt} {p q mid : Nat} {loop : Nat × Nat}
    (cond : SitsAt R f.function.code a c p) (test : Stood R f.function.code c.2.last (.jumpIfFalse q))
    (back : Stood R f.function.code mid (.jump p))
    (hb : Simulates evaluate l f (perform evaluate l.length ret body) (World.goto · (c.2.last + 1))
      (after f mid (q, p)) fun _ => 0) :
    Simulates evaluate l f (perform evaluate l.length ret (.while n c body)) (World.goto · p) (after f q loop)
      fun _ => 0 := by
  refine simulates_forever ?_
  refine .bind (c := fun _ _ => 0) (simulates_conditionFalse becomes steady cond test) (fun b => ?_) fun _ o =>
    roundCost_le o
  cases b with
  | false => exact .done (x := some Completion.normal) rfl rfl
  | true =>
    refine .bind (c := fun _ _ => 0) hb (fun o => ?_) fun _ _ => Nat.le_refl _
    refine simulates_afterBody (fun _ => rfl) ?_ (.done (x := none) rfl rfl)
    exact .bind (c := fun _ _ => 0) (Simulates.tick (acts_jump (found_of_stood becomes back rfl)) rfl)
      (fun _ => .done (x := none) rfl rfl) fun _ _ => Nat.zero_le _

theorem simulates_doWhile {n : Node} {c : PlacedExpr} {body : PlacedStmt} {p mid : Nat} {loop : Nat × Nat}
    (cond : SitsAt R f.function.code a c mid) (back : Stood R f.function.code c.2.last (.jumpIfTrue p))
    (hb : Simulates evaluate l f (perform evaluate l.length ret body) (World.goto · p)
      (after f mid (c.2.last + 1, mid)) fun _ => 0) :
    Simulates evaluate l f (perform evaluate l.length ret (.doWhile n body c)) (World.goto · p)
      (after f (c.2.last + 1) loop) fun _ => 0 := by
  refine simulates_forever ?_
  refine .bind (c := fun _ o => roundCost o) hb (fun o => ?_) fun _ _ => Nat.le_add_left _ _
  have test : Simulates evaluate l f (condition evaluate l.length c >>= fun b =>
      if b then Pure.pure none else Pure.pure (some .normal)) (World.goto · mid)
        (onwards (World.goto · p) (after f (c.2.last + 1) loop)) roundCost := by
    refine .bind (c := fun _ _ => 0) (simulates_condition becomes steady cond
      (acts_jumpIfTrue (found_of_stood becomes back rfl)) rfl) (fun b => ?_) fun _ o => roundCost_le o
    cases b with
    | true => exact .done (x := none) rfl rfl
    | false => exact .done (x := some Completion.normal) rfl rfl
  exact simulates_afterBody (fun _ => rfl) test test

/-- The rounds of a `for` loop. -/
theorem simulates_rounds {c step : Option PlacedExpr} {body : PlacedStmt} {test first next last : Nat}
    (loop : Nat × Nat) (hc : SitsTest R f.function.code a (last + 1) c test first)
    (hs : SitsStep R f.function.code a step next last) (back : Stood R f.function.code last (.jump test))
    (hb : Simulates evaluate l f (perform evaluate l.length ret body) (World.goto · first)
      (after f next (last + 1, next)) fun _ => 0) :
    let next : Structured η (Option Completion) := do
      if let some e := step then effect evaluate l.length e
      silent Exec.tick
      return none
    Simulates evaluate l f (forever do
        let goes ← match c with
          | some e => condition evaluate l.length e
          | none => pure true
        if goes then afterBody next next (← perform evaluate l.length ret body) else return some .normal)
      (World.goto · test) (after f (last + 1) loop) fun _ => 0 := by
  intro onward
  have goesOn : Simulates evaluate l f onward (World.goto · next)
      (onwards (World.goto · test) (after f (last + 1) loop)) roundCost := by
    have jump : Simulates evaluate l f (silent Exec.tick >>= fun _ => Pure.pure none) (World.goto · last)
        (onwards (World.goto · test) (after f (last + 1) loop)) roundCost :=
      .bind (c := fun _ _ => 0) (Simulates.tick (acts_jump (found_of_stood becomes back rfl)) rfl)
        (fun _ => .done (x := none) rfl rfl) fun _ o => roundCost_le o
    cases step with
    | none =>
      cases hs
      exact jump
    | some e => exact .bind (simulates_effect becomes steady hs) (fun _ => jump) fun _ _ => Nat.le_add_left _ _
  have round : Simulates evaluate l f (perform evaluate l.length ret body >>= fun o => afterBody onward onward o)
      (World.goto · first) (onwards (World.goto · test) (after f (last + 1) loop)) roundCost :=
    .bind (c := fun _ o => roundCost o) hb (fun o => simulates_afterBody (fun _ => rfl) goesOn goesOn)
      fun _ _ => Nat.le_add_left _ _
  refine simulates_forever ?_
  cases c with
  | none =>
    cases hc
    exact round
  | some c =>
    obtain ⟨cond, jump, rfl⟩ := hc
    refine .bind (c := fun _ _ => 0) (simulates_conditionFalse becomes steady cond jump) (fun b => ?_)
      fun _ o => roundCost_le o
    cases b with
    | false => exact .done (x := some Completion.normal) rfl rfl
    | true => exact round.mono fun _ => Nat.zero_le _

theorem simulates_for {n : Node} {init : ForInit PlacedExpr PlacedDecls} {c step : Option PlacedExpr}
    {body : PlacedStmt} {p test first next last : Nat} {loop : Nat × Nat}
    (hi : SitsInit R f.function.code a init p test) (hc : SitsTest R f.function.code a (last + 1) c test first)
    (hs : SitsStep R f.function.code a step next last) (back : Stood R f.function.code last (.jump test))
    (hb : Simulates evaluate l f (perform evaluate l.length ret body) (World.goto · first)
      (after f next (last + 1, next)) fun _ => 0) :
    Simulates evaluate l f (perform evaluate l.length ret (.for n init c step body)) (World.goto · p)
      (after f (last + 1) loop) fun _ => 0 := by
  have rounds := simulates_rounds becomes steady loop hc hs back hb
  cases init with
  | none =>
    cases hi
    exact rounds
  | decl n d =>
    exact .bind (simulates_stores becomes steady (inward_stores _ _) hi) (fun _ => rounds) fun _ _ => Nat.zero_le _
  | expr n e => exact .bind (simulates_effect becomes steady hi) (fun _ => rounds) fun _ _ => Nat.zero_le _

end Statements

mutual

theorem simulates_perform (becomes : ∀ i i', R i i' → i.Becomes i')
    (steady : ∀ args, Exec.Steady (evaluate args)) : ∀ (P : PlacedStmt) {loop : Nat × Nat} {p q : Nat},
    Sits R f.function.code a ret loop P p q → Valued P →
      Simulates evaluate l f (perform evaluate l.length ret P) (World.goto · p) (after f q loop) fun _ => 0
  | .null _, _, _, _, sits, _ => by
    cases sits
    exact .pure rfl
  | .expr _ e, _, _, _, sits, _ =>
    .bind (simulates_effect becomes steady sits) (fun _ => .pure rfl) fun _ _ => Nat.zero_le _
  | .decl _ d, _, _, _, sits, _ =>
    .bind (simulates_stores becomes steady (inward_stores _ _) sits) (fun _ => .pure rfl) fun _ _ => Nat.zero_le _
  | .compound _ ss, _, _, _, sits, valued => simulates_performAll becomes steady ss sits valued
  | .ifThen _ c yes, loop, p, q, ⟨cond, jump, sits⟩, ⟨_, valued⟩ => by
    refine .bind (c := fun _ _ => 0) (simulates_conditionFalse becomes steady cond jump) (fun b => ?_)
      fun _ _ => Nat.zero_le _
    cases b with
    | true => exact simulates_perform becomes steady yes sits valued
    | false => exact .pure rfl
  | .ifElse _ c yes no, loop, p, q, ⟨mid, cond, jump, sits, back, sits'⟩, ⟨_, valued, valued'⟩ => by
    refine .bind (c := fun _ _ => 0) (simulates_conditionFalse becomes steady cond jump) (fun b => ?_)
      fun _ _ => Nat.zero_le _
    cases b with
    | false => exact simulates_perform becomes steady no sits' valued'
    | true =>
      refine .bind (c := fun _ _ => 0) (simulates_perform becomes steady yes sits valued) (fun o => ?_) fun _ _ => Nat.zero_le _
      cases o with
      | normal =>
        exact .bind (c := fun _ _ => 0) (Simulates.tick (acts_jump (found_of_stood becomes back rfl)) rfl)
          (fun _ => .pure rfl) fun _ _ => Nat.zero_le _
      | leaves | again | returns v => exact .pure rfl
  | .while _ c body, loop, p, q, ⟨mid, last, cond, jump, sits, back⟩, ⟨_, valued⟩ =>
    simulates_while becomes steady cond jump back (simulates_perform becomes steady body sits valued)
  | .doWhile _ body c, loop, p, q, ⟨mid, last, sits, cond, back⟩, ⟨valued, _⟩ => by
    subst last
    exact simulates_doWhile becomes steady cond back (simulates_perform becomes steady body sits valued)
  | .for _ init c step body, loop, p, q, ⟨test, first, next, last, stop, hi, hc, sits, hs, back⟩, ⟨_, _, _, valued⟩ => by
    subst stop
    exact simulates_for becomes steady hi hc hs back (simulates_perform becomes steady body sits valued)
  | .break _, loop, p, q, ⟨jump, _⟩, _ =>
    .bind (c := fun _ _ => 0) (Simulates.tick (acts_jump (found_of_stood becomes jump rfl)) rfl)
      (fun _ => .pure rfl) fun _ _ => Nat.zero_le _
  | .continue _, loop, p, q, ⟨jump, _⟩, _ =>
    .bind (c := fun _ _ => 0) (Simulates.tick (acts_jump (found_of_stood becomes jump rfl)) rfl)
      (fun _ => .pure rfl) fun _ _ => Nat.zero_le _
  | .return _ (some e), loop, p, q, ⟨sits, shows_, _⟩, valued => by
    refine .bind (c := fun _ _ => 0) (simulates_run becomes steady sits) (fun _ => ?_) fun _ _ => Nat.zero_le _
    rw [valued e rfl]
    refine .bind (c := fun _ _ => 0) (simulates_convertTop becomes shows_) (fun _ => ?_) fun _ _ => Nat.zero_le _
    refine .bind (c := fun _ _ => 0) (Simulates.control
      (acts_return (found_of_stood becomes shows_.last rfl)) rfl) (fun v => .pure rfl) fun _ _ => Nat.zero_le _
  | .return _ none, loop, p, q, ⟨stood, _⟩, _ =>
    .bind (c := fun _ _ => 0) (Simulates.tick (acts_returnVoid (found_of_stood becomes stood rfl)) rfl)
      (fun _ => .pure rfl) fun _ _ => Nat.zero_le _

theorem simulates_performAll (becomes : ∀ i i', R i i' → i.Becomes i')
    (steady : ∀ args, Exec.Steady (evaluate args)) : ∀ (Ps : List PlacedStmt) {loop : Nat × Nat} {p q : Nat},
    SitsAll R f.function.code a ret loop Ps p q → AllValued Ps →
      Simulates evaluate l f (performAll evaluate l.length ret Ps) (World.goto · p) (after f q loop) fun _ => 0
  | [], _, _, _, sits, _ => by
    cases sits
    exact .pure rfl
  | P :: Ps, loop, p, q, ⟨mid, sits, rest⟩, ⟨valued, others⟩ => by
    refine .bind (c := fun _ _ => 0) (simulates_perform becomes steady P sits valued) (fun o => ?_) fun _ _ => Nat.zero_le _
    cases o with
    | normal => exact simulates_performAll becomes steady Ps rest others
    | leaves | again | returns v => exact .pure rfl

end

/-! ## Functions -/

/-- What stands behind the body ends the function, whatever the body returns. -/
theorem simulates_result (becomes : ∀ i i', R i i' → i.Becomes i') {o : Completion} {q : Nat} (shows_ : Shows R f.function.code q (ending f.function.ret)) :
    Simulates evaluate l f (result f.function.ret o) (after f q (q, q) o)
      (fun v w => w.leave f.function.ret v) fun _ => 0 := by
  have falls : Simulates evaluate l f (result f.function.ret .normal) (World.goto · q)
      (fun v w => w.leave f.function.ret v) fun _ => 0 := by
    unfold ending at shows_
    unfold result
    cases kind : f.function.ret with
    | none =>
      rw [kind] at shows_
      have void : Simulates.Acts evaluate l f q .returnVoid (Pure.pure ()) fun _ w => w.leave f.function.ret none :=
        acts_returnVoid (found_of_stood becomes shows_.head rfl)
      rw [kind] at void
      exact .bind (c := fun _ _ => 0) (Simulates.tick void rfl) (fun _ => .pure rfl) fun _ _ => Nat.zero_le _
    | some kind' =>
      rw [kind] at shows_
      have returns : Simulates.Acts evaluate l f (q + 1 + 1) .return Exec.pop fun v w => w.leave f.function.ret (some v) :=
        acts_return (found_of_stood becomes shows_.tail.tail.head rfl)
      rw [kind] at returns
      refine .bind (c := fun _ _ => 0)
        (Simulates.control (acts_pushInt (found_of_stood becomes shows_.head rfl)) rfl) (fun _ => ?_)
        fun _ _ => Nat.zero_le _
      refine .bind (c := fun _ _ => 0)
        (Simulates.control (acts_convert (found_of_stood becomes shows_.tail.head rfl)) rfl) (fun _ => ?_)
        fun _ _ => Nat.zero_le _
      exact .bind (c := fun _ _ => 0) (Simulates.control returns rfl) (fun v => .pure rfl) fun _ _ => Nat.zero_le _
  cases o with
  | returns v => exact .pure rfl
  | normal | leaves | again => exact falls

end Structured
end IncrementalC
