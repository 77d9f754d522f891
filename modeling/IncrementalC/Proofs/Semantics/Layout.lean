import IncrementalC.Proofs.Lowering.Composed
import IncrementalC.Proofs.Lowering.Piece
import IncrementalC.Proofs.Semantics.Follows

/-!
# Where the code of statements lies

* `Shows R code start is`: the instructions `is` stand in `code` from `start` on, up to `R`.
* `Piece.Fills R code p c`: the stretch `c` of `code` holds what the piece `p` yields there.
* `Sits`: the parts of a placed statement lie one behind the other, with the jumps between them.

Lowering a statement yields code in which the statement sits, with places for all of its parts
(`placed_statement`).
-/
namespace IncrementalC.Lowering
set_option autoImplicit false
open Typed (Expr DeclGroup Decl Stmt)

/-! ## Lists of instructions in code -/

section Shows

variable {R : Instr → Instr → Prop} {code : Array Instr} {start : Nat} {i : Instr} {c d : List Instr}

/-- The instruction stands at `k`. -/
def Stood (R : Instr → Instr → Prop) (code : Array Instr) (k : Nat) (i : Instr) : Prop :=
  ∃ i', code[k]? = some i' ∧ R i i'

def Shows (R : Instr → Instr → Prop) (code : Array Instr) (start : Nat) (is : List Instr) : Prop :=
  ∀ k i, is[k]? = some i → Stood R code (start + k) i

theorem Shows.left (h : Shows R code start (c ++ d)) : Shows R code start c := by
  intro k i found
  have inside := (List.getElem?_eq_some_iff.mp found).1
  exact h k i (by rw [List.getElem?_append_left inside, found])

theorem Shows.right (h : Shows R code start (c ++ d)) : Shows R code (start + c.length) d := by
  intro k i found
  rw [Nat.add_assoc]
  exact h _ i (by rw [List.getElem?_append_right (Nat.le_add_right _ _), Nat.add_sub_cancel_left, found])

theorem Shows.head (h : Shows R code start (i :: c)) : Stood R code start i := h 0 i rfl

theorem Shows.tail (h : Shows R code start (i :: c)) : Shows R code (start + 1) c := by
  intro k j found
  rw [Nat.add_assoc, Nat.add_comm 1]
  exact h (k + 1) j found

theorem Shows.at_ {start' : Nat} (h : Shows R code start c) (place : start = start') : Shows R code start' c :=
  place ▸ h

theorem Stood.at_ {k : Nat} (h : Stood R code start i) (place : start = k) : Stood R code k i := place ▸ h

/-- The last instruction. -/
theorem Shows.last (h : Shows R code start (c ++ [i])) : Stood R code (start + c.length) i := h.right.head

/-- The stretch of the code holds what the piece yields there. -/
def Piece.Fills (R : Instr → Instr → Prop) (code : Array Instr) (p : Piece) (c : Segment) : Prop :=
  ∃ g is g', p c.first g = .ok (is, g') ∧ c.last = c.first + is.length ∧ Shows R code c.first is

end Shows

/-! ## Places -/

section Sits

variable (R : Instr → Instr → Prop) (code : Array Instr) (a : Analysis) (ret : Ty)

/-- The values that are stored in objects when the declarations are reached. -/
def stores (a : Analysis) : List Decl → List Piece
  | [] => []
  | d :: ds =>
    match d.kind with
    | .var v =>
      match v.storage, v.init with
      | .local slot, some init => initObject a (.local slot) v.ty init :: stores a ds
      | _, _ => stores a ds
    | _ => stores a ds

theorem inward_stores (ds : List Decl) : ∀ x ∈ stores a ds, x.Inward := by
  induction ds with
  | nil => exact nofun
  | cons d ds ih =>
    unfold stores
    split
    · split
      · exact List.forall_mem_cons.mpr ⟨inward_initObject _ _ _, ih⟩
      · exact ih
    · exact ih

/-- The code of the expression begins at `p`. -/
structure SitsAt (e : PlacedExpr) (p : Nat) : Prop where
  fills : (rvalue a e.1).Fills R code e.2
  first : e.2.first = p

/-- The expression is evaluated from `p` to `q`, and its value is dropped. -/
structure SitsEffect (e : PlacedExpr) (p q : Nat) : Prop extends SitsAt R code a e p where
  drops : if e.1.ty.isVoid then e.2.last = q else Stood R code e.2.last .pop ∧ e.2.last + 1 = q

def SitsStores : List Piece → List Segment → Nat → Nat → Prop
  | [], [], p, q => p = q
  | x :: xs, c :: cs, p, q => x.Fills R code c ∧ c.first = p ∧ SitsStores xs cs c.last q
  | _, _, _, _ => False

def SitsInit : ForInit PlacedExpr PlacedDecls → Nat → Nat → Prop
  | .none, p, q => p = q
  | .decl _ d, p, q => SitsStores R code (stores a d.1.decls) d.2 p q
  | .expr _ e, p, q => SitsEffect R code a e p q

/-- The condition of a `for` loop that ends at `stop`. -/
def SitsTest (stop : Nat) : Option PlacedExpr → Nat → Nat → Prop
  | none, p, q => p = q
  | some c, p, q => SitsAt R code a c p ∧ Stood R code c.2.last (.jumpIfFalse stop) ∧ c.2.last + 1 = q

def SitsStep : Option PlacedExpr → Nat → Nat → Prop
  | none, p, q => p = q
  | some e, p, q => SitsEffect R code a e p q

mutual

/-- The code of the statement lies between `p` and `q`. The loop around it ends at `loop.1` and goes on
at `loop.2`. -/
def Sits (loop : Nat × Nat) : PlacedStmt → Nat → Nat → Prop
  | .null _, p, q => p = q
  | .expr _ e, p, q => SitsEffect R code a e p q
  | .decl _ d, p, q => SitsStores R code (stores a d.1.decls) d.2 p q
  | .compound _ ss, p, q => SitsAll loop ss p q
  | .ifThen _ c yes, p, q =>
    SitsAt R code a c p ∧ Stood R code c.2.last (.jumpIfFalse q) ∧ Sits loop yes (c.2.last + 1) q
  | .ifElse _ c yes no, p, q => ∃ mid,
    SitsAt R code a c p ∧ Stood R code c.2.last (.jumpIfFalse (mid + 1)) ∧
      Sits loop yes (c.2.last + 1) mid ∧ Stood R code mid (.jump q) ∧ Sits loop no (mid + 1) q
  | .while _ c body, p, q => ∃ mid, mid + 1 = q ∧
    SitsAt R code a c p ∧ Stood R code c.2.last (.jumpIfFalse q) ∧
      Sits (q, p) body (c.2.last + 1) mid ∧ Stood R code mid (.jump p)
  | .doWhile _ body c, p, q => ∃ mid, c.2.last + 1 = q ∧
    Sits (q, mid) body p mid ∧ SitsAt R code a c mid ∧ Stood R code c.2.last (.jumpIfTrue p)
  | .for _ init c step body, p, q => ∃ test first next last, last + 1 = q ∧
    SitsInit R code a init p test ∧ SitsTest R code a q c test first ∧ Sits (q, next) body first next ∧
      SitsStep R code a step next last ∧ Stood R code last (.jump test)
  | .break _, p, q => Stood R code p (.jump loop.1) ∧ p + 1 = q
  | .continue _, p, q => Stood R code p (.jump loop.2) ∧ p + 1 = q
  | .return _ (some e), p, q =>
    SitsAt R code a e p ∧ Shows R code e.2.last (convert e.1.ty ret ++ [.return]) ∧
      e.2.last + (convert e.1.ty ret ++ [Instr.return]).length = q
  | .return _ none, p, q => Stood R code p .returnVoid ∧ p + 1 = q

def SitsAll (loop : Nat × Nat) : List PlacedStmt → Nat → Nat → Prop
  | [], p, q => p = q
  | s :: ss, p, q => ∃ mid, Sits loop s p mid ∧ SitsAll loop ss mid q

end

end Sits

/-! ## Parts of statements -/

section Placed

variable {a : Analysis} {ret : Ty} {inLoop : Bool} {start : Nat} {g g' : CodeModule}

/-- The piece as a part of the code around it. -/
theorem fills {R : Instr → Instr → Prop} {code : Array Instr} {p : Piece} {is : List Instr}
    (run : p start g = .ok (is, g')) (h : Shows R code start is) :
    p.Fills R code ⟨start, start + is.length⟩ := ⟨g, is, g', run, rfl, h⟩

theorem append_eq_ok {p q : Piece} {is : List Instr} (h : (p ++ q) start g = .ok (is, g')) :
    ∃ c d g₁, p start g = .ok (c, g₁) ∧ q (start + c.length) g₁ = .ok (d, g') ∧ is = c ++ d := by
  have h : (p start >>= fun c => q (start + c.length) >>= fun d => pure (c ++ d)) g = .ok (is, g') := h
  obtain ⟨c, g₁, first, h⟩ := bind_eq_ok h
  obtain ⟨d, g₂, second, h⟩ := bind_eq_ok h
  cases h
  exact ⟨c, d, g₁, first, second, rfl⟩

theorem placed_discard {e : Expr} {is : List Instr}
    (h : discard e.ty (rvalue a e) start g = .ok (is, g')) :
    ∃ c, ∀ R code, Shows R code start is → SitsEffect R code a (e, c) start (start + is.length) := by
  unfold discard at h
  by_cases void : e.ty.isVoid
  · rw [if_pos void] at h
    refine ⟨⟨start, start + is.length⟩, fun R code shows_ => ⟨⟨fills h shows_, rfl⟩, ?_⟩⟩
    rw [if_pos void]
  · rw [if_neg void] at h
    obtain ⟨c, d, g₁, value, popped, rfl⟩ := append_eq_ok h
    cases popped
    refine ⟨⟨start, start + c.length⟩, fun R code shows_ => ⟨⟨fills value shows_.left, rfl⟩, ?_⟩⟩
    rw [if_neg void]
    refine ⟨shows_.right.head, ?_⟩
    rw [List.length_append, ← Nat.add_assoc]
    rfl

theorem placed_localDecls {ds : List Decl} {is : List Instr} (h : localDecls a ds start g = .ok (is, g')) :
    ∃ cs, ∀ R code, Shows R code start is →
      SitsStores R code (stores a ds) cs start (start + is.length) := by
  induction ds generalizing start g is with
  | nil =>
    cases h
    exact ⟨[], fun _ _ _ => rfl⟩
  | cons d ds ih =>
    unfold localDecls at h
    obtain ⟨c, rest, g₁, first, others, rfl⟩ := append_eq_ok h
    obtain ⟨cs, placed⟩ := ih others
    -- a declaration that stores nothing
    have nothing (none : c = []) (same : stores a (d :: ds) = stores a ds) :
        ∃ cs, ∀ R code, Shows R code start (c ++ rest) →
          SitsStores R code (stores a (d :: ds)) cs start (start + (c ++ rest).length) := by
      subst none
      rw [same]
      exact ⟨cs, placed⟩
    obtain ⟨kind, span⟩ := d
    cases kind with
    | var v =>
      dsimp only at first
      rw [stores.eq_def] at nothing ⊢
      dsimp only at nothing ⊢
      cases storage : v.storage with
      | global =>
        rw [storage] at first nothing
        cases first
        exact nothing rfl rfl
      | static =>
        rw [storage] at first nothing
        obtain ⟨_, _, _, done⟩ := bind_eq_ok first
        cases done
        exact nothing rfl rfl
      | «local» slot =>
        cases hinit : v.init with
        | none =>
          rw [storage, hinit] at first nothing
          cases first
          exact nothing rfl rfl
        | some init =>
          rw [storage, hinit] at first
          refine ⟨⟨start, start + c.length⟩ :: cs, fun R code shows_ => ⟨fills first shows_.left, rfl, ?_⟩⟩
          rw [List.length_append, ← Nat.add_assoc]
          exact placed R code shows_.right
    | _ =>
      cases first
      exact nothing rfl rfl

/-! ## Statements -/

/-- The steps are code of the statement, and its parts have places in them. Marks count where they are
known to be resolved. -/
def PlacedIn (a : Analysis) (ret : Ty) (inLoop : Bool) (start : Nat) (s : Stmt) (steps : List Step) : Prop :=
  ∃ P : PlacedStmt, P.map Prod.fst Prod.fst = s ∧ ∀ R code loop loop', (inLoop → loop = loop') →
    Shows R code start (resolved loop.1 loop.2 steps) →
      Sits R code a ret loop' P start (start + steps.length)

def PlacedAllIn (a : Analysis) (ret : Ty) (inLoop : Bool) (start : Nat) (ss : List Stmt) (steps : List Step) :
    Prop :=
  ∃ Ps : List PlacedStmt, Statement.mapAll Prod.fst Prod.fst Ps = ss ∧
    ∀ R code loop loop', (inLoop → loop = loop') → Shows R code start (resolved loop.1 loop.2 steps) →
      SitsAll R code a ret loop' Ps start (start + steps.length)

theorem ofPiece_eq_ok {p : Piece} {steps : List Step} (h : Block.ofPiece p start g = .ok (steps, g')) :
    ∃ is, p start g = .ok (is, g') ∧ steps = is.map .instr := by
  obtain ⟨is, g₁, run, done⟩ := bind_eq_ok h
  cases done
  exact ⟨is, run, rfl⟩

/-- A statement whose code has no marks. -/
theorem PlacedIn.ofPiece {p : Piece} {s : Stmt} {steps : List Step}
    (h : Block.ofPiece p start g = .ok (steps, g'))
    (hp : ∀ is, p start g = .ok (is, g') → ∃ P : PlacedStmt, P.map Prod.fst Prod.fst = s ∧
      ∀ R code loop, Shows R code start is → Sits R code a ret loop P start (start + is.length)) :
    PlacedIn a ret inLoop start s steps := by
  obtain ⟨is, run, rfl⟩ := ofPiece_eq_ok h
  obtain ⟨P, tree, sits⟩ := hp is run
  refine ⟨P, tree, fun R code loop loop' _ shows_ => ?_⟩
  rw [resolved_instr] at shows_
  rw [List.length_map]
  exact sits R code loop' shows_

/-- All that the block yields is code of the statement. -/
def Places (a : Analysis) (ret : Ty) (inLoop : Bool) (s : Stmt) (b : Block) : Prop :=
  ∀ start g steps g', b start g = .ok (steps, g') → PlacedIn a ret inLoop start s steps

/-- What stands behind a test. -/
theorem shows_test {R : Instr → Instr → Prop} {code : Array Instr} {stop next : Nat} {d : List Instr}
    {i : Instr} {rest : List Step}
    (h : Shows R code start (resolved stop next (d.map .instr ++ .instr i :: rest))) :
    Shows R code start d ∧ Stood R code (start + d.length) i ∧
      Shows R code (start + d.length + 1) (resolved stop next rest) := by
  unfold resolved at h
  rw [List.map_append] at h
  have test := h.left
  have behind := h.right
  rw [← resolved, resolved_instr] at test
  rw [List.length_map, List.length_map] at behind
  exact ⟨test, behind.head, behind.tail⟩

theorem places_ifThen {n : Node} {c : Expr} {yes : Stmt} {b : Block} (hb : Places a ret inLoop yes b) :
    Places a ret inLoop (.ifThen n c yes) (ifThen (rvalue a c) b) := by
  intro start g steps g' h
  obtain ⟨d, g₁, cond, h⟩ := bind_eq_ok h
  obtain ⟨y, g₂, body, h⟩ := bind_eq_ok h
  cases h
  obtain ⟨P, tree, sits⟩ := hb _ _ _ _ body
  refine ⟨.ifThen n (c, ⟨start, start + d.length⟩) P, by rw [Statement.map, tree],
    fun R code loop loop' agree shows_ => ?_⟩
  obtain ⟨cond', test, yes'⟩ := shows_test shows_
  have last : start + (d.map Step.instr ++ .instr (.jumpIfFalse (start + d.length + 1 + y.length)) :: y).length
      = start + d.length + 1 + y.length := by
    simp only [List.length_append, List.length_map, List.length_cons]
    omega
  rw [last]
  exact ⟨⟨fills cond cond', rfl⟩, test, sits R code loop loop' agree yes'⟩

theorem places_ifElse {n : Node} {c : Expr} {yes no : Stmt} {b b' : Block} (hb : Places a ret inLoop yes b)
    (hb' : Places a ret inLoop no b') :
    Places a ret inLoop (.ifElse n c yes no) (ifElse (rvalue a c) b b') := by
  intro start g steps g' h
  obtain ⟨d, g₁, cond, h⟩ := bind_eq_ok h
  obtain ⟨y, g₂, body, h⟩ := bind_eq_ok h
  obtain ⟨o, g₃, other, h⟩ := bind_eq_ok h
  cases h
  obtain ⟨P, tree, sits⟩ := hb _ _ _ _ body
  obtain ⟨Q, tree', sits'⟩ := hb' _ _ _ _ other
  refine ⟨.ifElse n (c, ⟨start, start + d.length⟩) P Q, by rw [Statement.map, tree, tree'],
    fun R code loop loop' agree shows_ => ?_⟩
  generalize hmid : start + d.length + 1 + y.length = mid at other sits' shows_ ⊢
  rw [List.append_assoc, List.cons_append] at shows_ ⊢
  obtain ⟨cond', test, rest⟩ := shows_test shows_
  unfold resolved at rest
  rw [List.map_append] at rest
  have no' := rest.right
  rw [List.length_map, hmid] at no'
  have last : start + (d.map Step.instr ++ .instr (.jumpIfFalse (mid + 1)) ::
      (y ++ .instr (.jump (mid + 1 + o.length)) :: o)).length = mid + 1 + o.length := by
    simp only [List.length_append, List.length_map, List.length_cons]
    omega
  rw [last]
  refine ⟨mid, ⟨fills cond cond', rfl⟩, test, ?_, no'.head, sits' R code loop loop' agree no'.tail⟩
  have yes' := sits R code loop loop' agree rest.left
  rwa [hmid] at yes'

theorem places_while {n : Node} {c : Expr} {body : Stmt} {b : Block} (hb : Places a ret true body b) :
    Places a ret inLoop (.while n c body) (.ofPiece (whileLoop (rvalue a c) b)) := by
  intro start g steps g' h
  refine .ofPiece h fun is h => ?_
  obtain ⟨d, g₁, cond, h⟩ := bind_eq_ok h
  obtain ⟨y, g₂, round, h⟩ := bind_eq_ok h
  cases h
  obtain ⟨P, tree, sits⟩ := hb _ _ _ _ round
  refine ⟨.while n (c, ⟨start, start + d.length⟩) P, by rw [Statement.map, tree], fun R code loop shows_ => ?_⟩
  generalize hmid : start + d.length + 1 + y.length = mid at sits shows_ ⊢
  have last : start + (d ++ .jumpIfFalse (mid + 1) :: resolved (mid + 1) start y).length = mid := by
    rw [List.length_append, List.length_cons, length_resolved]
    omega
  have whole : start + (d ++ .jumpIfFalse (mid + 1) :: resolved (mid + 1) start y ++ [Instr.jump start]).length
      = mid + 1 := by
    rw [List.length_append, ← Nat.add_assoc, last]
    rfl
  show Sits R code a ret loop _ start
    (start + (d ++ .jumpIfFalse (mid + 1) :: resolved (mid + 1) start y ++ [Instr.jump start]).length)
  rw [whole]
  have inside := shows_.left
  exact ⟨mid, rfl, ⟨fills cond inside.left, rfl⟩, inside.right.head,
    sits R code (mid + 1, start) _ (fun _ => rfl) inside.right.tail, shows_.last.at_ last⟩

theorem places_doWhile {n : Node} {c : Expr} {body : Stmt} {b : Block} (hb : Places a ret true body b) :
    Places a ret inLoop (.doWhile n body c) (.ofPiece (doLoop b (rvalue a c))) := by
  intro start g steps g' h
  refine .ofPiece h fun is h => ?_
  obtain ⟨y, g₁, round, h⟩ := bind_eq_ok h
  obtain ⟨d, g₂, cond, h⟩ := bind_eq_ok h
  cases h
  obtain ⟨P, tree, sits⟩ := hb _ _ _ _ round
  generalize hmid : start + y.length = mid at cond sits
  refine ⟨.doWhile n P (c, ⟨mid, mid + d.length⟩), by rw [Statement.map, tree], fun R code loop shows_ => ?_⟩
  generalize hstop : mid + d.length + 1 = stop at shows_ ⊢
  have next : start + (resolved stop mid y).length = mid := by rw [length_resolved, hmid]
  have last : start + (resolved stop mid y ++ d).length = mid + d.length := by
    rw [List.length_append, ← Nat.add_assoc, next]
  have whole : start + (resolved stop mid y ++ d ++ [Instr.jumpIfTrue start]).length = stop := by
    rw [List.length_append, ← Nat.add_assoc, last, ← hstop]
    rfl
  show Sits R code a ret loop _ start (start + (resolved stop mid y ++ d ++ [Instr.jumpIfTrue start]).length)
  rw [whole]
  exact ⟨mid, hstop, sits R code (stop, mid) _ (fun _ => rfl) shows_.left.left,
    ⟨fills cond (shows_.left.right.at_ next), rfl⟩, shows_.last.at_ last⟩

theorem placed_init {init : ForInit Expr DeclGroup} {is : List Instr}
    (h : (match init with
      | .none => Piece.code []
      | .decl _ group => localDecls a group.decls
      | .expr _ e => discard e.ty (rvalue a e)) start g = .ok (is, g')) :
    ∃ init' : ForInit PlacedExpr PlacedDecls, Statement.mapInit Prod.fst Prod.fst init' = init ∧
      ∀ R code, Shows R code start is → SitsInit R code a init' start (start + is.length) := by
  cases init with
  | none =>
    cases h
    exact ⟨.none, rfl, fun _ _ _ => rfl⟩
  | decl n d =>
    obtain ⟨cs, placed⟩ := placed_localDecls h
    exact ⟨.decl n (d, cs), rfl, placed⟩
  | expr n e =>
    obtain ⟨c, placed⟩ := placed_discard h
    exact ⟨.expr n (e, c), rfl, placed⟩

theorem placed_step {step : Option Expr} {is : List Instr}
    (h : (match step with
      | some e => discard e.ty (rvalue a e)
      | none => Piece.code []) start g = .ok (is, g')) :
    ∃ step' : Option PlacedExpr, step'.map Prod.fst = step ∧
      ∀ R code, Shows R code start is → SitsStep R code a step' start (start + is.length) := by
  cases step with
  | none =>
    cases h
    exact ⟨none, rfl, fun _ _ _ => rfl⟩
  | some e =>
    obtain ⟨c, placed⟩ := placed_discard h
    exact ⟨some (e, c), rfl, placed⟩

/-- The jump out of a `for` loop, if it has a condition. -/
def exit (cond : Option Expr) (stop : Nat) : List Instr := if cond.isSome then [.jumpIfFalse stop] else []

theorem placed_test {c : Option Expr} {is : List Instr}
    (h : (match c.map (rvalue a) with
      | some cond => cond start
      | none => pure [] : Gen (List Instr)) g = .ok (is, g')) :
    ∃ c' : Option PlacedExpr, c'.map Prod.fst = c ∧ ∀ R code stop, Shows R code start (is ++ exit c stop) →
      SitsTest R code a stop c' start (start + (is ++ exit c stop).length) := by
  cases c with
  | none =>
    cases h
    exact ⟨none, rfl, fun _ _ _ _ => rfl⟩
  | some c =>
    refine ⟨some (c, ⟨start, start + is.length⟩), rfl, fun R code stop shows_ => ?_⟩
    refine ⟨⟨fills h shows_.left, rfl⟩, shows_.last, ?_⟩
    rw [List.length_append, ← Nat.add_assoc]
    rfl

theorem forLoop_eq (cond : Option Piece) (b : Block) (step : Piece) : forLoop cond b step start =
    (match cond with
      | some cond => cond start
      | none => pure []) >>= fun c => do
      let first := start + c.length + (if cond.isSome then 1 else 0)
      let b ← b first
      let next := first + b.length
      let s ← step next
      let stop := next + s.length + 1
      let exit := if cond.isSome then [Instr.jumpIfFalse stop] else []
      return c ++ exit ++ b.map (·.resolve stop next) ++ s ++ [.jump start] := by
  cases cond <;> rfl

/-- The rounds of a `for` loop. -/
theorem placed_rounds {c step : Option Expr} {body : Stmt} {b : Block} (hb : Places a ret true body b)
    {is : List Instr}
    (h : forLoop (c.map (rvalue a)) b (match step with
      | some e => discard e.ty (rvalue a e)
      | none => Piece.code []) start g = .ok (is, g')) :
    ∃ (c' step' : Option PlacedExpr) (P : PlacedStmt), c'.map Prod.fst = c ∧ step'.map Prod.fst = step ∧
      P.map Prod.fst Prod.fst = body ∧ ∀ R code, Shows R code start is →
        ∃ first next last, last + 1 = start + is.length ∧
          SitsTest R code a (start + is.length) c' start first ∧
          Sits R code a ret (start + is.length, next) P first next ∧ SitsStep R code a step' next last ∧
          Stood R code last (.jump start) := by
  rw [forLoop_eq] at h
  obtain ⟨t, g₁, cond, h⟩ := bind_eq_ok h
  obtain ⟨c', treeC, sitsC⟩ := placed_test cond
  obtain ⟨y, g₂, round, h⟩ := bind_eq_ok h
  obtain ⟨P, tree, sits⟩ := hb _ _ _ _ round
  obtain ⟨s, g₃, stepped, h⟩ := bind_eq_ok h
  obtain ⟨step', treeS, sitsS⟩ := placed_step stepped
  have head (stop : Nat) : start + t.length + (if (c.map (rvalue a)).isSome then 1 else 0)
      = start + (t ++ exit c stop).length := by
    rw [List.length_append, Nat.add_assoc, exit, Option.isSome_map]
    split <;> rfl
  generalize start + t.length + (if (c.map (rvalue a)).isSome then 1 else 0) = first at h sits sitsS head
  generalize hnext : first + y.length = next at h sits sitsS
  generalize hlast : next + s.length = last at sitsS
  have code : is = t ++ exit c (last + 1) ++ resolved (last + 1) next y ++ s ++ [.jump start] := by
    cases h
    rw [hlast, exit, Option.isSome_map]
    rfl
  subst code
  refine ⟨c', step', P, treeC, treeS, tree, fun R code shows_ => ?_⟩
  have place : start + (t ++ exit c (last + 1) ++ resolved (last + 1) next y).length = next := by
    rw [List.length_append, ← Nat.add_assoc, ← head, length_resolved, hnext]
  have place' : start + (t ++ exit c (last + 1) ++ resolved (last + 1) next y ++ s).length = last := by
    rw [List.length_append, ← Nat.add_assoc, place, hlast]
  have whole : start + (t ++ exit c (last + 1) ++ resolved (last + 1) next y ++ s ++ [Instr.jump start]).length
      = last + 1 := by
    rw [List.length_append, ← Nat.add_assoc, place']
    rfl
  rw [whole]
  have tests := sitsC R code _ shows_.left.left.left
  rw [← head] at tests
  exact ⟨first, next, last, rfl, tests,
    sits R code (last + 1, next) _ (fun _ => rfl) (shows_.left.left.right.at_ (head _).symm),
    sitsS R code (shows_.left.right.at_ place), shows_.last.at_ place'⟩

theorem places_for {n : Node} {init : ForInit Expr DeclGroup} {c step : Option Expr} {body : Stmt} {b : Block}
    (hb : Places a ret true body b) :
    Places a ret inLoop (.for n init c step body) (.ofPiece
      ((match init with
        | .none => Piece.code []
        | .decl _ group => localDecls a group.decls
        | .expr _ e => discard e.ty (rvalue a e)) ++
      forLoop (c.map (rvalue a)) b (match step with
        | some e => discard e.ty (rvalue a e)
        | none => Piece.code []))) := by
  intro start g steps g' h
  refine .ofPiece h fun is h => ?_
  obtain ⟨d, r, g₁, first, rounds, rfl⟩ := append_eq_ok h
  obtain ⟨init', treeI, sitsI⟩ := placed_init first
  obtain ⟨c', step', P, treeC, treeS, tree, sits⟩ := placed_rounds hb rounds
  refine ⟨.for n init' c' step' P, by rw [Statement.map, treeI, treeC, treeS, tree], fun R code loop shows_ => ?_⟩
  obtain ⟨first, next, last, whole, placed⟩ := sits R code shows_.right
  rw [List.length_append, ← Nat.add_assoc]
  exact ⟨start + d.length, first, next, last, whole, sitsI R code shows_.left, placed⟩

theorem places_return {n : Node} {e : Expr} : Places a ret inLoop (.return n (some e))
    (.ofPiece (rvalue a e ++ .code (convert e.ty ret ++ [.return]))) := by
  intro start g steps g' h
  refine .ofPiece h fun is h => ?_
  obtain ⟨d, r, g₁, value, done, rfl⟩ := append_eq_ok h
  cases done
  refine ⟨.return n (some (e, ⟨start, start + d.length⟩)), rfl, fun R code loop shows_ => ?_⟩
  refine ⟨⟨fills value shows_.left, rfl⟩, shows_.right, ?_⟩
  show start + d.length + (convert e.ty ret ++ [Instr.return]).length = _
  rw [Nat.add_assoc, ← List.length_append]

/-! ## All statements -/

mutual

theorem places_statement (inLoop : Bool) : ∀ s : Stmt, Places a ret inLoop s (statement a ret inLoop s)
  | .null n => by
    intro start g steps g' h
    cases h
    exact ⟨.null n, rfl, fun _ _ _ _ _ _ => rfl⟩
  | .expr n e => by
    intro start g steps g' h
    refine .ofPiece h fun is h => ?_
    obtain ⟨c, placed⟩ := placed_discard h
    exact ⟨.expr n (e, c), rfl, fun R code _ => placed R code⟩
  | .decl n d => by
    intro start g steps g' h
    refine .ofPiece h fun is h => ?_
    obtain ⟨cs, placed⟩ := placed_localDecls h
    exact ⟨.decl n (d, cs), rfl, fun R code _ => placed R code⟩
  | .compound n ss => by
    intro start g steps g' h
    obtain ⟨Ps, trees, sits⟩ := places_statements inLoop ss start g steps g' h
    exact ⟨.compound n Ps, by rw [Statement.map, trees], sits⟩
  | .ifThen _ c yes => places_ifThen (places_statement inLoop yes)
  | .ifElse _ c yes no => places_ifElse (places_statement inLoop yes) (places_statement inLoop no)
  | .while _ c body => places_while (places_statement true body)
  | .doWhile _ body c => places_doWhile (places_statement true body)
  | .for _ init c step body => places_for (places_statement true body)
  | .break n => by
    intro start g steps g' h
    unfold statement at h
    cases inLoop with
    | false => cases h
    | true =>
      cases h
      exact ⟨.break n, rfl, fun R code loop loop' agree shows_ => ⟨agree rfl ▸ shows_.head, rfl⟩⟩
  | .continue n => by
    intro start g steps g' h
    unfold statement at h
    cases inLoop with
    | false => cases h
    | true =>
      cases h
      exact ⟨.continue n, rfl, fun R code loop loop' agree shows_ => ⟨agree rfl ▸ shows_.head, rfl⟩⟩
  | .return n (some e) => places_return
  | .return n none => by
    intro start g steps g' h
    cases h
    exact ⟨.return n none, rfl, fun R code loop loop' agree shows_ => ⟨shows_.head, rfl⟩⟩

theorem places_statements (inLoop : Bool) : ∀ (ss : List Stmt) (start : Nat) (g : CodeModule) (steps : List Step)
    (g' : CodeModule), statements a ret inLoop ss start g = .ok (steps, g') →
      PlacedAllIn a ret inLoop start ss steps
  | [], start, g, steps, g', h => by
    cases h
    exact ⟨[], rfl, fun _ _ _ _ _ _ => rfl⟩
  | s :: ss, start, g, steps, g', h => by
    have h : (statement a ret inLoop s start >>= fun c => statements a ret inLoop ss (start + c.length) >>=
      fun d => pure (c ++ d)) g = .ok (steps, g') := h
    obtain ⟨c, g₁, first, h⟩ := bind_eq_ok h
    obtain ⟨d, g₂, rest, h⟩ := bind_eq_ok h
    cases h
    obtain ⟨P, tree, sits⟩ := places_statement inLoop s _ _ _ _ first
    obtain ⟨Ps, trees, sits'⟩ := places_statements inLoop ss _ _ _ _ rest
    refine ⟨P :: Ps, by rw [Statement.mapAll, tree, trees], fun R code loop loop' agree shows_ => ?_⟩
    unfold resolved at shows_
    rw [List.map_append] at shows_
    have behind := shows_.right
    rw [List.length_map] at behind
    rw [List.length_append, ← Nat.add_assoc]
    exact ⟨start + c.length, sits R code loop loop' agree shows_.left, sits' R code loop loop' agree behind⟩

end

end Placed

/-! ## Parts of placed statements -/

section Each

variable {R : Instr → Instr → Prop} {code : Array Instr} {a : Analysis} {ret : Ty}

/-- The place of an expression holds its code. -/
def HasCode (R : Instr → Instr → Prop) (code : Array Instr) (a : Analysis) (e : PlacedExpr) : Prop :=
  (rvalue a e.1).Fills R code e.2

/-- The places of declarations hold the code of what they store, one behind the other. -/
def HasStores (R : Instr → Instr → Prop) (code : Array Instr) (a : Analysis) (d : PlacedDecls) : Prop :=
  ∃ p q, SitsStores R code (stores a d.1.decls) d.2 p q

mutual

theorem Sits.each : ∀ {P : PlacedStmt} {loop : Nat × Nat} {p q : Nat}, Sits R code a ret loop P p q →
    P.Each (HasCode R code a) (HasCode R code a) (HasStores R code a)
  | .null _, _, _, _, _ | .break _, _, _, _, _ | .continue _, _, _, _, _ => trivial
  | .expr _ _, _, _, _, h => h.fills
  | .decl _ _, _, _, _, h => ⟨_, _, h⟩
  | .compound _ _, _, _, _, h => SitsAll.each h
  | .ifThen _ _ _, _, _, _, ⟨c, _, yes⟩ => ⟨c.fills, yes.each⟩
  | .ifElse _ _ _ _, _, _, _, ⟨_, c, _, yes, _, no⟩ => ⟨c.fills, yes.each, no.each⟩
  | .while _ _ _, _, _, _, ⟨_, _, c, _, body, _⟩ => ⟨c.fills, body.each⟩
  | .doWhile _ _ _, _, _, _, ⟨_, _, body, c, _⟩ => ⟨body.each, c.fills⟩
  | .for _ init c step _, _, _, _, ⟨_, _, _, _, _, hi, hc, body, hs, _⟩ => by
    refine ⟨?_, fun e given => ?_, fun e given => ?_, body.each⟩
    · cases init with
      | none => trivial
      | decl n d => exact ⟨_, _, hi⟩
      | expr n e => exact hi.fills
    · subst given
      exact hc.1.fills
    · subst given
      exact hs.fills
  | .return _ (some e), _, _, _, ⟨h, _, _⟩ => fun e' given => by
    cases given
    exact h.fills
  | .return _ none, _, _, _, _ => nofun

theorem SitsAll.each : ∀ {Ps : List PlacedStmt} {loop : Nat × Nat} {p q : Nat},
    SitsAll R code a ret loop Ps p q →
      Statement.EachOf (HasCode R code a) (HasCode R code a) (HasStores R code a) Ps
  | [], _, _, _, _ => trivial
  | _ :: _, _, _, _, ⟨_, h, hs⟩ => ⟨h.each, SitsAll.each hs⟩

end

end Each

end IncrementalC.Lowering
