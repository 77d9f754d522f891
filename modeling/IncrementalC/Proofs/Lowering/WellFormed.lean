import IncrementalC.Proofs.Analysis.PlacedBody
import IncrementalC.Proofs.Lowering.Retained
import IncrementalC.Proofs.Machine.Standing

/-!
# Lowered modules are well formed

`Builds E k P m Q`: under `P`, the production `m` yields something with `Q` and keeps the module well formed
(`CodeModule.WellFormed`), `k` being the number of literals in the end. `builds_lower` is the result for a group.
-/
namespace IncrementalC
set_option autoImplicit false
open Typed (Expr Initializer VarDecl FunctionDecl Decl Stmt Entry AcceptedInit WithinInit WithinInits EveryStmt EveryStmts
  EveryForInit RoomFor)

/-- Every complete record has a field with slots. -/
def TypeTable.NoneEmpty (t : TypeTable) : Prop := ∀ id, t.isComplete (.record id) → 0 < t.slots (.record id)

theorem CodeModule.intern_code (g : CodeModule) (s : String) :
    (g.intern s).1.functions = g.functions ∧ (g.intern s).1.globals = g.globals ∧
      (g.intern s).1.initializers = g.initializers := by
  unfold CodeModule.intern
  split <;> exact ⟨rfl, rfl, rfl⟩

namespace Lowering

variable {α β : Type} {E P : Prop} {k : Nat} {L : Nat → Prop} {I : CodeModule → Prop}

/-! ## Productions -/

/-- No literal is dropped, and if there are at most `k` in the end, the result has `Q` and the module still has `I`. -/
def Forms (I : CodeModule → Prop) (k : Nat) (P : Prop) (m : Gen α) (Q : α → Prop) : Prop := ∀ g x g', m g = .ok (x, g') →
  g.strings.size ≤ g'.strings.size ∧ (P → g'.strings.size ≤ k → Q x ∧ (I g → I g'))

/-- Literals do not matter for the property. -/
def Interns (I : CodeModule → Prop) : Prop := ∀ (g : CodeModule) (s : String), I g → I (g.intern s).1

namespace Forms

variable {Q M : α → Prop} {R : β → Prop} {m : Gen α}

theorem pure {x : α} (h : P → Q x) : Forms I k P (Pure.pure x) Q := by
  intro g y g' run
  cases run
  exact ⟨Nat.le_refl _, fun hP _ => ⟨h hP, id⟩⟩

theorem bind {f : α → Gen β} (hm : Forms I k P m M) (hf : ∀ x, Forms I k (P ∧ M x) (f x) R) :
    Forms I k P (m >>= f) R := by
  intro g y g'' run
  obtain ⟨x, g', first, second⟩ := bind_eq_ok run
  obtain ⟨grows, kept⟩ := hm g x g' first
  obtain ⟨grows', kept'⟩ := hf x g' y g'' second
  refine ⟨Nat.le_trans grows grows', fun hP enough => ?_⟩
  obtain ⟨given, formed⟩ := kept hP (Nat.le_trans grows' enough)
  obtain ⟨given', formed'⟩ := kept' ⟨hP, given⟩ enough
  exact ⟨given', fun h => formed' (formed h)⟩

theorem weaken {P' : Prop} (hm : Forms I k P m Q) (h : P' → P) : Forms I k P' m Q :=
  fun g x g' run => ⟨(hm g x g' run).1, fun hP => (hm g x g' run).2 (h hP)⟩

theorem mono (hm : Forms I k P m M) (h : ∀ x, P → M x → Q x) : Forms I k P m Q :=
  fun g x g' run => ⟨(hm g x g' run).1, fun hP enough => ((hm g x g' run).2 hP enough).imp_left (h x hP)⟩

theorem and_yields (hm : Forms I k P m M) (h : Yields m Q) : Forms I k P m fun x => M x ∧ Q x :=
  fun g x g' run => ⟨(hm g x g' run).1, fun hP enough =>
    ((hm g x g' run).2 hP enough).imp_left fun given => ⟨given, h g x g' run⟩⟩

theorem fail (problem : LoweringProblem) (span : Span) : Forms I k P (fail problem span) Q := nofun

theorem need (x : Option α) (problem : LoweringProblem) (span : Span) :
    Forms I k P (need x problem span) fun y => x = some y := by
  cases x with
  | none => exact nofun
  | some x => exact pure fun _ => rfl

theorem mapM {f : α → Gen β} {xs : List α} (hf : ∀ x ∈ xs, Forms I k P (f x) R) :
    Forms I k P (xs.mapM f) fun ys => ∀ y ∈ ys, R y := by
  induction xs with
  | nil => exact pure fun _ => nofun
  | cons x xs ih =>
    rw [List.mapM_cons]
    obtain ⟨first, rest⟩ := List.forall_mem_cons.mp hf
    refine bind first fun y => bind ((ih rest).weaken And.left) fun ys => pure fun known => ?_
    exact List.forall_mem_cons.mpr ⟨known.1.2, known.2⟩

theorem forM {f : α → Gen PUnit} {xs : List α} (hf : ∀ x ∈ xs, Forms I k P (f x) fun _ => True) :
    Forms I k P (xs.forM f) fun _ => True := by
  induction xs with
  | nil => exact pure fun _ => trivial
  | cons x xs ih =>
    obtain ⟨first, rest⟩ := List.forall_mem_cons.mp hf
    exact bind first fun _ => (ih rest).weaken And.left

theorem intern (interns : Interns I) (s : String) : Forms I k P (intern s) (· < k) := by
  intro g i g' run
  obtain ⟨keeps, numbered⟩ := g.intern_keeps s
  have formed := interns g s
  have run : Except.ok ((g.intern s).2, (g.intern s).1) = Except.ok (i, g') := run
  generalize g.intern s = r at keeps numbered formed run
  cases run
  have inside := (Array.getElem?_eq_some_iff.mp numbered).1
  exact ⟨keeps.size_le, fun _ enough => ⟨Nat.lt_of_lt_of_le inside enough, formed⟩⟩

theorem modify {f : CodeModule → CodeModule} (strings : ∀ g, (f g).strings = g.strings)
    (formed : P → ∀ g : CodeModule, I g → I (f g)) : Forms I k P (modify f : Gen Unit) fun _ => True := by
  intro g x g' run
  cases run
  exact ⟨Nat.le_of_eq (congrArg Array.size (strings g)).symm, fun hP _ => ⟨trivial, formed hP g⟩⟩

end Forms

/-- The module stays well formed. -/
abbrev Builds (E : Prop) (k : Nat) (P : Prop) (m : Gen α) (Q : α → Prop) : Prop := Forms (·.WellFormed E k) k P m Q

theorem interns_wellFormed : Interns (·.WellFormed E k) := by
  intro g s formed
  obtain ⟨functions, globals, -⟩ := g.intern_code s
  exact ⟨functions ▸ formed.functions, globals ▸ formed.globals⟩

/-! ## Instructions -/

/-- What the instruction names is there: slots with `L`, and `k` string literals. -/
def Names (L : Nat → Prop) (k : Nat) : Instr → Prop
  | .localAddr slot => L slot
  | .pushStr index => index < k
  | _ => True

/-- Moreover, it jumps between `first` and `last`. -/
structure Rests (L : Nat → Prop) (k first last : Nat) (i : Instr) : Prop where
  names : Names L k i
  jumps : ∀ target, i.target? = some target → first ≤ target ∧ target ≤ last

theorem names_of_isPlain {i : Instr} (h : i.isPlain) : Names L k i := by
  cases i with
  | localAddr | pushStr => cases h
  | _ => trivial

variable {first last first' last' : Nat} {c d : List Instr}

theorem Rests.mono {i : Instr} (h : Rests L k first last i) (below : first' ≤ first) (above : last ≤ last') :
    Rests L k first' last' i :=
  ⟨h.names, fun target given => ⟨Nat.le_trans below (h.jumps target given).1, Nat.le_trans (h.jumps target given).2 above⟩⟩

theorem rests_of_isPlain {i : Instr} (h : i.isPlain) : Rests L k first last i := by
  refine ⟨names_of_isPlain h, fun target given => ?_⟩
  cases i with
  | jump | jumpIfFalse | jumpIfTrue => cases h
  | _ => cases given

/-- A return. -/
theorem rests_of_isReturn {i : Instr} (h : i.isReturn) : Rests L k first last i := by
  cases i with
  | «return» | returnVoid => exact ⟨trivial, nofun⟩
  | _ => cases h

/-- All of the code rests in a range. -/
def Lie (L : Nat → Prop) (k first last : Nat) (c : List Instr) : Prop := ∀ i ∈ c, Rests L k first last i

theorem Lie.mono (h : Lie L k first last c) (below : first' ≤ first) (above : last ≤ last') : Lie L k first' last' c :=
  fun i mem => (h i mem).mono below above

theorem Lie.append (hc : Lie L k first last c) (hd : Lie L k first last d) : Lie L k first last (c ++ d) :=
  List.forall_mem_append.mpr ⟨hc, hd⟩

theorem Lie.cons {i : Instr} (hi : Rests L k first last i) (hc : Lie L k first last c) : Lie L k first last (i :: c) :=
  List.forall_mem_cons.mpr ⟨hi, hc⟩

/-! ## Pieces -/

namespace Piece

/-- The piece names what is there and jumps inside of itself or to its end. -/
def Lies (I : CodeModule → Prop) (k : Nat) (L : Nat → Prop) (p : Piece) : Prop :=
  ∀ P start, Forms I k P (p start) fun code => Lie L k start (start + code.length) code

variable {p q : Piece}

theorem Composed.forms (interns : Interns I) (h : p.Composed L) :
    ∀ P start, Forms I k P (p start) fun code => ∀ i ∈ code, Names L k i := by
  induction h with
  | quiet h =>
    intro P start g c g' run
    obtain ⟨rfl, plain, -⟩ := h g c g' run
    exact ⟨Nat.le_refl _, fun _ _ => ⟨fun i mem => names_of_isPlain (plain i mem), id⟩⟩
  | slot h => exact fun P start => .pure fun _ => List.forall_mem_singleton.mpr h
  | string s => exact fun P start => .bind (.intern interns s) fun i => .pure fun known => List.forall_mem_singleton.mpr known.2
  | @append p q _ _ hp hq =>
    intro P start
    show Forms I k P (Piece.append p q start) _
    exact .bind (hp P start) fun c => .bind (hq _ _) fun d => .pure fun known =>
      List.forall_mem_append.mpr ⟨known.1.2, known.2⟩
  | logical op _ _ hp hq =>
    refine fun P start => .bind (hp P start) fun c => .bind (hq _ _) fun d => .pure fun known => ?_
    have jump (target : Nat) : Names L k (if op = .and then Instr.jumpIfFalse target else .jumpIfTrue target) := by
      split <;> trivial
    refine List.forall_mem_append.mpr ⟨List.forall_mem_append.mpr ⟨known.1.2, List.forall_mem_cons.mpr ⟨jump _, known.2⟩⟩, ?_⟩
    exact List.forall_mem_cons.mpr ⟨jump _, List.forall_mem_cons.mpr ⟨trivial, List.forall_mem_cons.mpr
      ⟨trivial, List.forall_mem_singleton.mpr trivial⟩⟩⟩
  | conditional _ _ _ hc hp hq =>
    refine fun P start => .bind (hc P start) fun c => .bind (hp _ _) fun d => .bind (hq _ _) fun e => .pure fun known => ?_
    refine List.forall_mem_append.mpr ⟨List.forall_mem_append.mpr ⟨known.1.1.2, List.forall_mem_cons.mpr ⟨trivial, known.1.2⟩⟩, ?_⟩
    exact List.forall_mem_cons.mpr ⟨trivial, known.2⟩

theorem Composed.lies (interns : Interns I) (h : p.Composed L) : p.Lies I k L := fun P start =>
  ((h.forms interns P start).and_yields (h.inward start)).mono fun _ _ known i mem => ⟨known.1 i mem, (known.2 i mem).2⟩

namespace Lies

theorem append (hp : p.Lies I k L) (hq : q.Lies I k L) : (p ++ q).Lies I k L := by
  intro P start
  show Forms I k P (Piece.append p q start) _
  refine .bind (hp P start) fun c => .bind (hq _ _) fun d => .pure fun known => ?_
  rw [List.length_append]
  exact (known.1.2.mono (Nat.le_refl _) (by omega)).append (known.2.mono (by omega) (by omega))

theorem code (h : ∀ i ∈ c, i.isPlain ∨ i.isReturn) : (Piece.code c).Lies I k L :=
  fun _ _ => .pure fun _ i mem => (h i mem).elim rests_of_isPlain rests_of_isReturn

end Lies

end Piece

/-! ## Blocks -/

/-- Every step rests in a range, whatever the marks are made to. -/
def StepsLie (L : Nat → Prop) (k first last : Nat) (steps : List Step) : Prop :=
  ∀ i, .instr i ∈ steps → Rests L k first last i

namespace StepsLie

variable {x y : List Step}

theorem mono (h : StepsLie L k first last x) (below : first' ≤ first) (above : last ≤ last') :
    StepsLie L k first' last' x :=
  fun i mem => (h i mem).mono below above

theorem append (hx : StepsLie L k first last x) (hy : StepsLie L k first last y) : StepsLie L k first last (x ++ y) :=
  fun i mem => (List.mem_append.mp mem).elim (hx i) (hy i)

theorem cons {i : Instr} (hi : Rests L k first last i) (hx : StepsLie L k first last x) :
    StepsLie L k first last (.instr i :: x) := by
  intro j mem
  cases mem with
  | head => exact hi
  | tail _ mem => exact hx j mem

theorem instrs (h : Lie L k first last c) : StepsLie L k first last (c.map .instr) := by
  intro i mem
  obtain ⟨j, inside, same⟩ := List.mem_map.mp mem
  cases same
  exact h i inside

theorem resolve (h : StepsLie L k first last x) {stop next : Nat} (hstop : first ≤ stop ∧ stop ≤ last)
    (hnext : first ≤ next ∧ next ≤ last) : Lie L k first last (x.map (·.resolve stop next)) := by
  intro i mem
  obtain ⟨step, inside, rfl⟩ := List.mem_map.mp mem
  have jump {target : Nat} (between : first ≤ target ∧ target ≤ last) : Rests L k first last (.jump target) := by
    refine ⟨trivial, fun other given => ?_⟩
    cases given
    exact between
  cases step with
  | instr i => exact h i inside
  | leave => exact jump hstop
  | again => exact jump hnext

end StepsLie

/-- The block names what is there and jumps inside of itself or to its end. -/
def Block.Lies (I : CodeModule → Prop) (k : Nat) (L : Nat → Prop) (b : Block) : Prop :=
  ∀ P start, Forms I k P (b start) fun steps => StepsLie L k start (start + steps.length) steps

namespace Block.Lies

variable {b b' : Block}

theorem ofPiece {p : Piece} (h : p.Lies I k L) : (Block.ofPiece p).Lies I k L := by
  refine fun P start => .bind (h P start) fun c => .pure fun known => ?_
  rw [List.length_map]
  exact .instrs known.2

theorem append (hb : b.Lies I k L) (hb' : b'.Lies I k L) : (b ++ b').Lies I k L := by
  intro P start
  show Forms I k P (Block.append b b' start) _
  refine .bind (hb P start) fun x => .bind (hb' _ _) fun y => .pure fun known => ?_
  rw [List.length_append]
  exact (known.1.2.mono (Nat.le_refl _) (by omega)).append (known.2.mono (by omega) (by omega))

theorem empty : Block.empty.Lies I k L := fun _ _ => .pure fun _ => nofun

theorem mark {step : Step} (h : ∀ i, step = .instr i → i.isReturn) : (Block.mark step).Lies I k L := by
  refine fun P start => .pure fun _ i mem => ?_
  exact rests_of_isReturn (h i (List.mem_singleton.mp mem).symm)

end Block.Lies

/-! ## Control flow -/

theorem rests_jump {i : Instr} {target : Nat} (names : Names L k i) (jump : i.target? = some target)
    (above : first ≤ target) (below : target ≤ last) : Rests L k first last i := by
  refine ⟨names, fun other given => ?_⟩
  rw [jump] at given
  cases given
  exact ⟨above, below⟩

section

variable {cond step : Piece} {yes no body : Block}

theorem lies_ifThen (hc : cond.Lies I k L) (hy : yes.Lies I k L) : (ifThen cond yes).Lies I k L := by
  refine fun P start => .bind (hc P start) fun c => .bind (hy _ _) fun y => .pure fun known => ?_
  have length : (c.map Step.instr ++ .instr (.jumpIfFalse (start + c.length + 1 + y.length)) :: y).length
      = c.length + (y.length + 1) := by
    rw [List.length_append, List.length_map, List.length_cons]
  rw [length]
  refine .append (.instrs (known.1.2.mono (Nat.le_refl _) (by omega))) (.cons ?_ (known.2.mono (by omega) (by omega)))
  exact rests_jump trivial rfl (by omega) (by omega)

theorem lies_ifElse (hc : cond.Lies I k L) (hy : yes.Lies I k L) (hn : no.Lies I k L) :
    (ifElse cond yes no).Lies I k L := by
  refine fun P start => .bind (hc P start) fun c => .bind (hy _ _) fun y => .bind (hn _ _) fun n => .pure fun known => ?_
  obtain ⟨⟨⟨-, hc⟩, hy⟩, hn⟩ := known
  simp only [List.length_append, List.length_map, List.length_cons]
  refine .append (.append (.instrs (hc.mono (Nat.le_refl _) (by omega))) (.cons ?_ (hy.mono (by omega) (by omega))))
    (.cons ?_ (hn.mono (by omega) (by omega)))
  · exact rests_jump trivial rfl (by omega) (by omega)
  · exact rests_jump trivial rfl (by omega) (by omega)

theorem lies_whileLoop (hc : cond.Lies I k L) (hb : body.Lies I k L) : (whileLoop cond body).Lies I k L := by
  refine fun P start => .bind (hc P start) fun c => .bind (hb _ _) fun b => .pure fun known => ?_
  obtain ⟨⟨-, hc⟩, hb⟩ := known
  simp only [List.length_append, List.length_map, List.length_cons, List.length_nil]
  refine .append (.append (hc.mono (Nat.le_refl _) (by omega)) (.cons (rests_jump trivial rfl (by omega) (by omega)) ?_))
    (.cons (rests_jump trivial rfl (Nat.le_refl _) (by omega)) nofun)
  exact (hb.mono (by omega) (by omega)).resolve ⟨by omega, by omega⟩ ⟨Nat.le_refl _, by omega⟩

theorem lies_doLoop (hb : body.Lies I k L) (hc : cond.Lies I k L) : (doLoop body cond).Lies I k L := by
  refine fun P start => .bind (hb P start) fun b => .bind (hc _ _) fun c => .pure fun known => ?_
  obtain ⟨⟨-, hb⟩, hc⟩ := known
  simp only [List.length_append, List.length_map, List.length_cons, List.length_nil]
  refine .append (.append ?_ (hc.mono (by omega) (by omega))) (.cons (rests_jump trivial rfl (Nat.le_refl _) (by omega)) nofun)
  exact (hb.mono (Nat.le_refl _) (by omega)).resolve ⟨by omega, by omega⟩ ⟨by omega, by omega⟩

theorem lies_forLoop {cond : Option Piece} (hc : ∀ p, cond = some p → p.Lies I k L) (hb : body.Lies I k L)
    (hs : step.Lies I k L) : (forLoop cond body step).Lies I k L := by
  -- the rounds behind the code of the condition
  have rounds {P : Prop} {start first : Nat} {c : List Instr} (exit : Nat → List Instr) (length : ∀ stop, start + c.length + (exit stop).length = first)
      (hexit : ∀ stop last, start ≤ stop → stop ≤ last → Lie L k start last (exit stop))
      (hcond : P → Lie L k start (start + c.length) c) : Forms I k P (do
        let b ← body first
        let next := first + b.length
        let s ← step next
        let stop := next + s.length + 1
        return c ++ exit stop ++ b.map (·.resolve stop next) ++ s ++ [.jump start])
        fun code => Lie L k start (start + code.length) code := by
    refine .bind (hb P first) fun b => .bind (hs _ _) fun s => .pure fun known => ?_
    obtain ⟨⟨hP, hb⟩, hs⟩ := known
    have room := length (first + b.length + s.length + 1)
    simp only [List.length_append, List.length_map, List.length_cons, List.length_nil]
    refine .append (.append (.append (.append ((hcond hP).mono (Nat.le_refl _) (by omega)) ?_) ?_)
      (hs.mono (by omega) (by omega))) (.cons (rests_jump trivial rfl (Nat.le_refl _) (by omega)) nofun)
    · exact hexit _ _ (by omega) (by omega)
    · exact (hb.mono (by omega) (by omega)).resolve ⟨by omega, by omega⟩ ⟨by omega, by omega⟩
  intro P start
  cases cond with
  | none => exact rounds (c := []) (fun _ => []) (fun _ => rfl) (fun _ _ _ _ => nofun) fun _ => nofun
  | some p =>
    refine .bind (hc p rfl P start) fun c => rounds (fun stop => [.jumpIfFalse stop]) (fun _ => rfl) ?_ fun known => known.2
    exact fun stop last above below => .cons (rests_jump trivial rfl above below) nofun

end

/-! ## Local objects -/

variable {a : Analysis} {n : Nat}

/-- The values that an initial value gives name what it names. -/
def GivesWithin (L : Nat → Prop) (xs : List Entry) : Prop := ∀ x ∈ xs, ∀ e, x.given = .value e → e.Within L

theorem GivesWithin.under {selector : Selector} {xs : List Entry} (h : GivesWithin L xs) :
    GivesWithin L (xs.map (.under selector)) := by
  intro x mem e given
  obtain ⟨y, inside, rfl⟩ := List.mem_map.mp mem
  exact h y inside e given

mutual

theorem givesWithin_entries (t : TypeTable) (ty : Ty) :
    ∀ {i : Initializer}, WithinInit L i → GivesWithin L (i.entries t ty)
  | .expr e, within => by
    rw [Initializer.entries.eq_def]
    dsimp only
    split
    · intro x mem e given
      obtain ⟨p, -, rfl⟩ := List.mem_map.mp mem
      cases given
    · refine List.forall_mem_singleton.mpr fun e given => ?_
      cases given
      exact within
  | .list items span, within => by
    rw [Initializer.entries.eq_def]
    dsimp only
    cases ty with
    | array elem n => exact givesWithin_elements t elem 0 within
    | record id => exact givesWithin_fields t _ within
    | _ =>
      match items, within with
      | [], _ => exact nofun
      | _ :: _, within => exact givesWithin_entries t _ within.1
  | .construct args span, within => by
    rw [Initializer.entries.eq_def]
    dsimp only
    match args, within with
    | [], _ => exact nofun
    | _ :: _, within =>
      refine List.forall_mem_singleton.mpr fun e given => ?_
      cases given
      exact within.1

theorem givesWithin_elements (t : TypeTable) (elem : Ty) (start : Nat) :
    ∀ {is : List Initializer}, WithinInits L is → GivesWithin L (Initializer.elementEntries t elem start is)
  | [], _ => nofun
  | _ :: _, within => List.forall_mem_append.mpr
    ⟨(givesWithin_entries t elem within.1).under, givesWithin_elements t elem (start + 1) within.2⟩

theorem givesWithin_fields (t : TypeTable) (fields : List Field) :
    ∀ {is : List Initializer}, WithinInits L is → GivesWithin L (Initializer.fieldEntries t fields is)
  | [], _ => nofun
  | _ :: _, within => by
    cases fields with
    | nil => exact nofun
    | cons f fields =>
      exact List.forall_mem_append.mpr ⟨(givesWithin_entries t f.ty within.1).under, givesWithin_fields t fields within.2⟩

end

/-- What is stored into the entries of a local object is stored in its frame. -/
theorem inFrame_entry (layered : a.types.Layered) (solid : E ∨ a.types.NoneEmpty) {ty : Ty} (complete : a.types.isComplete ty)
    {slot : Nat} (fits : slot + a.types.stride ty ≤ n) {x : Entry} (given : x.Given a ty) :
    InFrame E n (slot + slotWord (a.types.offset ty x.path)) := by
  have inside := layered.part_inside complete given.part
  have part := layered.part_complete complete given.part
  have word : slotWord (a.types.offset ty x.path) ≤ a.types.offset ty x.path := Nat.mod_le _ _
  have room : a.types.slots ty ≤ a.types.stride ty := Nat.le_max_left _ _
  have positive : E ∨ 0 < a.types.slots x.ty := by
    cases known : x.ty with
    | record id => exact solid.imp_right fun solid => solid id (known ▸ part)
    | array elem k =>
      cases value : x.given with
      | value e =>
        have notArray := (given.value e value).2
        rw [known] at notArray
        cases notArray
      | byte b =>
        have isChar := given.byte b value
        rw [known] at isChar
        cases isChar
    | void =>
      rw [known] at part
      cases part
    | _ => exact .inr Nat.one_pos
  unfold InFrame
  rcases positive with e | positive
  · rcases Nat.lt_or_ge (slot + slotWord (a.types.offset ty x.path)) n with less | more
    · exact .inl less
    · exact .inr ⟨e, by omega⟩
  · exact .inl (by omega)

theorem composed_all {ps : List Piece} (h : ∀ p ∈ ps, p.Composed L) : (Piece.all ps).Composed L := by
  induction ps with
  | nil => exact .code (List.forall_mem_nil _)
  | cons p ps ih =>
    obtain ⟨first, rest⟩ := List.forall_mem_cons.mp h
    exact first.append (ih rest)

theorem composed_storeEntry {place : Place} {offset : Nat} (h : place.At L offset) {x : Entry}
    (value : ∀ e, x.given = .value e → (rvalue a e).Composed L) : (storeEntry a place offset x).Composed L := by
  unfold storeEntry
  split
  · exact composed_storeExpr h (value _ ‹_›)
  · exact composed_storeWord h _ _

/-- The code of an initial value of a local object. -/
theorem composed_initLocal (layered : a.types.Layered) (solid : E ∨ a.types.NoneEmpty) {ty : Ty}
    (complete : a.types.isComplete ty) {slot : Nat} (fits : slot + a.types.stride ty ≤ n) {i : Initializer}
    (within : WithinInit (· < n) i) (accepted : AcceptedInit a ty i) (room : RoomFor a.types ty i) :
    (initObject a (.local slot) ty i).Composed (InFrame E n) := by
  have store : (storeInitial a (.local slot) 0 ty i).Composed (InFrame E n) := by
    rw [storeInitial_eq layered complete 0 accepted]
    refine composed_all fun p mem => ?_
    obtain ⟨x, inside, rfl⟩ := List.mem_map.mp mem
    refine composed_storeEntry ?_ fun e given => ?_
    · rw [Nat.zero_add]
      exact inFrame_entry layered solid complete fits (room.entries_given layered complete accepted x inside)
    · exact (composed_rvalue (givesWithin_entries _ _ within x inside e given)).mono fun _ => .inl
  have inside (k : Nat) (below : k < a.types.slots ty) : InFrame E n (slot + slotWord k) := by
    have word : slotWord k ≤ k := Nat.mod_le _ _
    have whole : a.types.slots ty ≤ a.types.stride ty := Nat.le_max_left _ _
    exact .inl (by omega)
  exact .ite ((composed_clear inside).append store) store

/-! ## Statements -/

theorem forms_constant (interns : Interns I) (c : Constant) :
    Forms I k P (addGlobal.constant c) fun c' => ∀ index, c' = .str index → index < k := by
  cases c with
  | str s =>
    refine .bind (.intern interns s) fun i => .pure fun known index same => ?_
    cases same
    exact known.2
  | _ => exact .pure fun _ => nofun

/-- An object is added with an image that lies inside of it. -/
theorem builds_addGlobal {v : VarDecl} {image : List (Nat × Constant)} (small : a.types.stride v.ty < UInt32.size)
    (inside : ∀ x ∈ image, x.1 < a.types.stride v.ty) : Builds E k P (addGlobal a v image) fun _ => True := by
  have word : slotWord (a.types.stride v.ty) = a.types.stride v.ty := Nat.mod_eq_of_lt small
  refine .bind (M := fun init => (⟨v.linkName, slotWord (a.types.stride v.ty), init⟩ : CodeGlobal).WellFormed k) ?_ fun init => ?_
  · have slots : Builds E k P (image.mapM fun x => return (slotWord x.1, ← addGlobal.constant x.2)) fun init =>
        ∀ x ∈ init, x.1 < slotWord (a.types.stride v.ty) ∧ ∀ index, x.2 = .str index → index < k := by
      refine .mapM fun x mem => .bind (forms_constant interns_wellFormed x.2) fun c => .pure fun known => ⟨?_, known.2⟩
      rw [word]
      exact Nat.lt_of_le_of_lt (Nat.mod_le _ _) (inside x mem)
    exact slots.mono fun init _ known => ⟨fun x mem => (known x mem).1, fun x mem => (known x mem).2⟩
  · refine .modify (fun _ => rfl) fun known g formed => ⟨formed.functions, ?_⟩
    intro other mem
    rcases Array.mem_push.mp mem with mem | rfl
    · exact formed.globals other mem
    · exact known.2

theorem lies_localDecls (layered : a.types.Layered) (solid : E ∨ a.types.NoneEmpty) {ds : List Decl}
    (inside : ∀ d ∈ ds, d.Placed a n ∧ d.Small a) : (localDecls a ds).Lies (·.WellFormed E k) k (InFrame E n) := by
  have nothing : (Piece.code []).Lies (·.WellFormed E k) k (InFrame E n) := .code nofun
  induction ds with
  | nil => exact nothing
  | cons d ds ih =>
    obtain ⟨⟨placed, small⟩, rest⟩ := List.forall_mem_cons.mp inside
    refine Piece.Lies.append ?_ (ih rest)
    split
    · rename_i v kind
      have placed := placed v kind
      split
      · rename_i static
        have isExtern := placed.static static
        have inside : ∀ x ∈ v.constantInit.getD [], x.1 < a.types.stride v.ty := by
          cases known : v.constantInit with
          | none => exact nofun
          | some image =>
            refine placed.image (fun declared => ?_) image known
            rw [isExtern] at declared
            cases declared
        exact fun P start => .bind (builds_addGlobal (small v kind) inside) fun _ => .pure fun _ => nofun
      · rename_i slot init stored given
        obtain ⟨complete, fits⟩ := placed.slot slot stored
        obtain ⟨within, accepted, room⟩ := placed.init init given
        exact (composed_initLocal layered solid complete fits within accepted room).lies interns_wellFormed
      · exact nothing
    · exact nothing

section

variable {V : Expr → Prop} {D : Decl → Prop}

mutual

/-- A statement lies where its expressions and its declarations do. -/
theorem lies_statement (interns : Interns I) (values : ∀ e, V e → (rvalue a e).Composed L)
    (locals : ∀ ds : List Decl, (∀ d ∈ ds, D d) → (localDecls a ds).Lies I k L) (ret : Ty) (inLoop : Bool) :
    ∀ {s : Stmt}, EveryStmt V D s → (statement a ret inLoop s).Lies I k L
  | .null _, _ => .empty
  | .expr _ e, h => .ofPiece ((composed_discard e.ty (values e h)).lies interns)
  | .decl _ group, h => .ofPiece (locals group.decls h)
  | .compound _ ss, h => lies_statements interns values locals ret inLoop h
  | .ifThen _ c yes, h => lies_ifThen ((values c h.1).lies interns) (lies_statement interns values locals ret inLoop h.2)
  | .ifElse _ c yes no, h =>
    lies_ifElse ((values c h.1).lies interns) (lies_statement interns values locals ret inLoop h.2.1)
      (lies_statement interns values locals ret inLoop h.2.2)
  | .while _ c body, h =>
    .ofPiece (lies_whileLoop ((values c h.1).lies interns) (lies_statement interns values locals ret true h.2))
  | .doWhile _ body c, h =>
    .ofPiece (lies_doLoop (lies_statement interns values locals ret true h.2) ((values c h.1).lies interns))
  | .for _ init c step body, h => by
    have nothing : (Piece.code []).Lies I k L := .code nofun
    have rounds := lies_statement interns values locals ret true h.2.2.2
    refine .ofPiece (.append ?_ (lies_forLoop (fun p known => ?_) rounds ?_))
    · cases init with
      | none => exact nothing
      | decl _ group => exact locals group.decls h.1
      | expr _ e => exact (composed_discard e.ty (values e h.1)).lies interns
    · obtain ⟨e, given, rfl⟩ := Option.map_eq_some_iff.mp known
      exact (values e (h.2.1 e given)).lies interns
    · cases step with
      | none => exact nothing
      | some e => exact (composed_discard e.ty (values e (h.2.2.1 e rfl))).lies interns
  | .break _, _ | .continue _, _ =>
    match inLoop with
    | true => .mark nofun
    | false => fun _ _ => .fail _ _
  | .return _ (some e), h => by
    refine .ofPiece (.append ((values e (h e rfl)).lies interns) (.code (List.forall_mem_append.mpr ⟨fun i mem => ?_, ?_⟩)))
    · exact .inl (plain_convert _ _ i mem)
    · exact List.forall_mem_singleton.mpr (.inr rfl)
  | .return _ none, _ => .mark fun i same => by cases same; rfl

theorem lies_statements (interns : Interns I) (values : ∀ e, V e → (rvalue a e).Composed L)
    (locals : ∀ ds : List Decl, (∀ d ∈ ds, D d) → (localDecls a ds).Lies I k L) (ret : Ty) (inLoop : Bool) :
    ∀ {ss : List Stmt}, EveryStmts V D ss → (statements a ret inLoop ss).Lies I k L
  | [], _ => .empty
  | _ :: _, h => (lies_statement interns values locals ret inLoop h.1).append
      (lies_statements interns values locals ret inLoop h.2)

end

end

/-! ## Functions and groups -/

/-- Code that jumps inside of itself or to its end, with a return behind it. -/
theorem wellFormed_of_lie {f : CodeFunction} (c rest : List Instr) {last : Instr}
    (code : f.code = (c ++ (rest ++ [last])).toArray)
    (lie : Lie (InFrame E f.frameSlots) k 0 c.length c) (plain : ∀ i ∈ rest, i.isPlain) (returns : last.isReturn) :
    f.WellFormed E k := by
  have tail (i : Instr) (mem : i ∈ rest ++ [last]) : Rests (InFrame E f.frameSlots) k 0 0 i ∧ i.target? = none := by
    rcases List.mem_append.mp mem with mem | mem
    · refine ⟨rests_of_isPlain (plain i mem), ?_⟩
      have goesOn := Instr.goesOn_of_isPlain (plain i mem)
      exact Option.isNone_iff_eq_none.mp ((Bool.and_eq_true _ _).mp goesOn).1
    · cases List.mem_singleton.mp mem
      refine ⟨rests_of_isReturn returns, ?_⟩
      cases last with
      | «return» | returnVoid => rfl
      | _ => cases returns
  have names (i : Instr) (mem : i ∈ f.code) : Names (InFrame E f.frameSlots) k i := by
    rw [code, List.mem_toArray] at mem
    rcases List.mem_append.mp mem with mem | mem
    · exact (lie i mem).names
    · exact (tail i mem).1.names
  refine ⟨⟨last, ?_, returns⟩, fun i mem target given => ?_, fun index mem => names _ mem, fun slot mem => names _ mem⟩
  · rw [code, List.back?_toArray, ← List.append_assoc, List.getLast?_concat]
  · rw [code, List.mem_toArray] at mem
    have size : f.code.size = c.length + (rest.length + 1) := by
      rw [code, List.size_toArray, List.length_append, List.length_append, List.length_singleton]
    rcases List.mem_append.mp mem with mem | mem
    · have := ((lie i mem).jumps target given).2
      omega
    · rw [(tail i mem).2] at given
      cases given

theorem ending_returns (ret : Option Scalar) :
    ∃ rest last, ending ret = rest ++ [last] ∧ (∀ i ∈ rest, i.isPlain) ∧ last.isReturn := by
  cases ret with
  | none => exact ⟨[], .returnVoid, rfl, nofun, rfl⟩
  | some kind =>
    refine ⟨[.pushInt 0, .convert .i64 kind], .return, rfl, List.forall_mem_cons.mpr ⟨rfl, ?_⟩, rfl⟩
    exact List.forall_mem_singleton.mpr rfl

theorem builds_addFunction {f : CodeModule → CodeFunction} {g : CodeModule → CodeModule}
    (same : ∀ m, (g m).strings = m.strings ∧ (g m).globals = m.globals ∧ (g m).functions = m.functions.push (f m))
    (formed : P → ∀ m, (f m).WellFormed E k) : Builds E k P (modify g : Gen Unit) fun _ => True := by
  refine .modify (fun m => (same m).1) fun known m before => ⟨fun other mem => ?_, ?_⟩
  · rw [(same m).2.2] at mem
    rcases Array.mem_push.mp mem with mem | rfl
    · exact before.functions other mem
    · exact formed known m
  · rw [(same m).2.1]
    exact before.globals

/-- The code of a body, with what stands behind it. -/
theorem forms_function {f : FunctionDecl} {body : Stmt} (lies : (statement a f.ret false body).Lies I k L) :
    Forms I k P (Lowering.function a f body) fun g => g.frameSlots = f.frameSlots ∧
      ∃ c ret, g.code = (c ++ ending ret).toArray ∧ Lie L k 0 c.length c := by
  have given {P : Prop} (params : List Scalar) (ret : Option Scalar) : Forms I k P (do
      let steps ← statement a f.ret false body 0
      let code := steps.map (·.resolve 0 0) ++ ending ret
      return { name := f.name, params, ret, frameSlots := f.frameSlots, code := code.toArray })
      fun g : CodeFunction => g.frameSlots = f.frameSlots ∧
        ∃ c ret, g.code = (c ++ ending ret).toArray ∧ Lie L k 0 c.length c := by
    refine .bind (lies P 0) fun steps => .pure fun known => ⟨rfl, steps.map (·.resolve 0 0), ret, rfl, ?_⟩
    have lie := known.2
    rw [Nat.zero_add] at lie
    rw [List.length_map]
    exact lie.resolve ⟨Nat.le_refl _, Nat.zero_le _⟩ ⟨Nat.le_refl _, Nat.zero_le _⟩
  refine .bind (.mapM (R := fun _ => True) fun p _ => (Forms.need _ _ _).mono fun _ _ _ => trivial) fun params => ?_
  dsimp only
  split
  · exact .bind (M := fun _ => True) (.pure fun _ => trivial) fun ret => given params ret
  · refine .bind (M := fun _ => True) (.bind (.need _ _ _) fun _ => .pure fun _ => trivial) fun ret => given params ret

theorem builds_function (layered : a.types.Layered) (solid : E ∨ a.types.NoneEmpty) {f : FunctionDecl} {body : Stmt}
    (placed : EveryStmt (Expr.Within (· < f.frameSlots)) (Decl.Placed a f.frameSlots) body)
    (small : EveryStmt (fun _ => True) (Decl.Small a) body) :
    Builds E k P (Lowering.function a f body) fun code => code.WellFormed E k := by
  have lies : (statement a f.ret false body).Lies (·.WellFormed E k) k (InFrame E f.frameSlots) :=
    lies_statement interns_wellFormed (fun e within => (composed_rvalue within).mono fun _ => .inl)
      (fun _ => lies_localDecls layered solid) _ _ (placed.both (fun _ within _ => within) (fun _ => And.intro) small)
  refine (forms_function lies).mono fun g _ => ?_
  rintro ⟨slots, c, ret, code, lie⟩
  obtain ⟨rest, last, ends, plain, returns⟩ := ending_returns ret
  rw [ends] at code
  exact wellFormed_of_lie c rest code (slots ▸ lie) plain returns

theorem builds_global {v : VarDecl} (placed : v.Placed a 0) (small : a.types.stride v.ty < UInt32.size)
    (sized : v.isExtern → v.ty.Sized) : Builds E k P (global a v) fun _ => True := by
  have inside : ∀ x ∈ v.constantInit.getD [], x.1 < a.types.stride v.ty := by
    cases known : v.constantInit with
    | none => exact nofun
    | some image => exact placed.image sized image known
  refine .bind (builds_addGlobal small inside) fun _ => ?_
  split
  · rename_i _ init same
    have given : v.init = some init := congrArg Prod.snd same
    have anywhere (offset : Nat) : (Place.global v.linkName).At (· < 0) offset := trivial
    have composed : (initObject a (.global v.linkName) v.ty init).Composed (InFrame E 0) :=
      (composed_initObject anywhere (placed.init init given).1).mono fun _ => .inl
    refine .bind (composed.lies interns_wellFormed _ 0) fun code => builds_addFunction (fun m => ⟨rfl, rfl, rfl⟩) fun known m => ?_
    refine wellFormed_of_lie code [] rfl ?_ nofun rfl
    have lie := known.2
    rwa [Nat.zero_add] at lie
  · exact .pure fun _ => trivial

end Lowering

/-- The types of objects that a group defines although they are declared extern: every array in them has a length. -/
def Typed.TopLevel.SizedExterns (t : Typed.TopLevel) : Prop :=
  ∀ d ∈ t.group.decls, ∀ v, d.kind = .var v → v.isExtern → v.isDefinition → v.ty.Sized

open Lowering in
/-- The code of a group keeps a module well formed. -/
theorem builds_lower {E : Prop} {k : Nat} {a : Analysis} {t : Typed.TopLevel} (layered : a.types.Layered)
    (solid : t.body.isSome → E ∨ a.types.NoneEmpty) (placed : t.Placed a) (small : t.Small a) (sized : t.SizedExterns) :
    Builds E k True (lower.group a t) fun _ => True := by
  have decls : Builds E k True (t.group.decls.forM (Lowering.declaration a)) fun _ => True := by
    refine .forM fun d mem => ?_
    unfold Lowering.declaration
    split
    · rename_i v kind
      split
      · rename_i defines
        exact builds_global (placed.decls d mem v kind) (small.decls d mem v kind)
          fun declared => sized d mem v kind declared defines
      · exact .pure fun _ => trivial
    · exact .pure fun _ => trivial
  refine .bind decls fun _ => ?_
  split
  · rename_i _ f body same
    have function : t.function? = some f := congrArg Prod.fst same
    have given : t.body = some body := congrArg Prod.snd same
    refine .bind (builds_function layered (solid (given ▸ rfl)) (placed.body f body function given) (small.body body given)) fun code => ?_
    exact builds_addFunction (fun m => ⟨rfl, rfl, rfl⟩) fun known _ => known.2
  · exact .pure fun _ => trivial

/-! ## Modules of any trees -/

/-- What the module refers to is in it: the string literals in its code, which are among the first `k`, and its
initializers. -/
structure CodeModule.Closed (k : Nat) (c : CodeModule) : Prop where
  literals : ∀ f ∈ c.functions, ∀ index, .pushStr index ∈ f.code → index < k
  initializers : ∀ name ∈ c.initializers, c.Has (.function name)

theorem CodeModule.closed_empty : ({} : CodeModule).Closed 0 :=
  ⟨fun _ mem => absurd mem (Array.not_mem_empty _), fun _ mem => absurd mem (Array.not_mem_empty _)⟩

theorem CodeModule.Closed.mono {c : CodeModule} {k k' : Nat} (h : c.Closed k) (le : k ≤ k') : c.Closed k' :=
  ⟨fun f mem index named => Nat.lt_of_lt_of_le (h.literals f mem index named) le, h.initializers⟩

theorem CodeModule.Closed.addFunction {c : CodeModule} {k : Nat} (h : c.Closed k) {f : CodeFunction}
    (literals : ∀ index, .pushStr index ∈ f.code → index < k) : (c.addFunction f).Closed k := by
  refine ⟨fun g mem => ?_, fun name mem => c.has_addFunction f (.inr (h.initializers name mem))⟩
  rcases Array.mem_push.mp mem with mem | rfl
  · exact h.literals g mem
  · exact literals

namespace Lowering

variable {P : Prop} {k : Nat} {a : Analysis} {I : CodeModule → Prop}

/-- Literals and objects do not matter for the property. -/
structure Bare (I : CodeModule → Prop) : Prop where
  interns : Interns I
  objects : ∀ (g : CodeModule) x, I g → I (g.addGlobal x)

theorem bare_closed : Bare (·.Closed k) where
  interns g s closed := by
    obtain ⟨functions, -, initializers⟩ := g.intern_code s
    refine ⟨functions ▸ closed.literals, fun name mem => ?_⟩
    rw [initializers] at mem
    exact g.has_intern s (closed.initializers name mem)
  objects g x closed := ⟨closed.literals, fun name mem => g.has_addGlobal x (.inr (closed.initializers name mem))⟩

theorem literals_of_lie {L : Nat → Prop} {first last : Nat} {c rest : List Instr} (lie : Lie L k first last c)
    (plain : ∀ i ∈ rest, i.isPlain ∨ i.isReturn) (index : Nat) (mem : .pushStr index ∈ (c ++ rest).toArray) : index < k := by
  rcases List.mem_append.mp (List.mem_toArray.mp mem) with mem | mem
  · exact (lie _ mem).names
  · rcases plain _ mem with h | h <;> cases h

section

variable (bare : Bare I)
include bare

theorem forms_addGlobal (v : VarDecl) (image : List (Nat × Constant)) :
    Forms I k P (addGlobal a v image) fun _ => True := by
  have slots : Forms I k P (image.mapM fun x => return (slotWord x.1, ← addGlobal.constant x.2)) fun init =>
      ∀ x ∈ init, True :=
    .mapM fun x _ => .bind (forms_constant bare.interns x.2) fun _ => .pure fun _ => trivial
  exact .bind slots fun init => .modify (fun _ => rfl) fun _ g => bare.objects g _

theorem lies_anyLocals (ds : List Decl) : (localDecls a ds).Lies I k fun _ => True := by
  have nothing : (Piece.code []).Lies I k fun _ => True := .code nofun
  induction ds with
  | nil => exact nothing
  | cons d ds ih =>
    refine Piece.Lies.append ?_ ih
    split
    · rename_i v kind
      split
      · exact fun P start => .bind (forms_addGlobal bare _ _) fun _ => .pure fun _ => nofun
      · rename_i slot init stored given
        have anywhere (offset : Nat) : (Place.local slot).At (fun _ => True) offset := trivial
        exact (composed_initObject anywhere (Typed.withinInit_true init)).lies bare.interns
      · exact nothing
    · exact nothing

/-- The code of a body names literals that are there. -/
theorem forms_body (f : FunctionDecl) (body : Stmt) : Forms I k P (Lowering.function a f body) fun g =>
    (∀ index, .pushStr index ∈ g.code → index < k) ∧ g.name = f.name := by
  have lies : (statement a f.ret false body).Lies I k fun _ => True :=
    lies_statement bare.interns (V := fun _ => True) (D := fun _ => True) (fun e _ => composed_rvalue e.within_true)
      (fun ds _ => lies_anyLocals bare ds) _ _ (Typed.everyStmt_of_all (fun _ => trivial) (fun _ => trivial) body)
  refine ((forms_function lies).mono fun g _ => ?_).and_yields (function_named f body)
  rintro ⟨-, c, ret, code, lie⟩
  obtain ⟨rest, last, ends, plain, returns⟩ := ending_returns ret
  rw [code, ends]
  refine literals_of_lie lie fun i mem => ?_
  rcases List.mem_append.mp mem with mem | mem
  · exact .inl (plain i mem)
  · exact .inr (List.mem_singleton.mp mem ▸ returns)

/-- A group keeps a property that its initializers and its body keep. -/
theorem forms_group {t : Typed.TopLevel}
    (initializer : ∀ (g : CodeModule) (f : CodeFunction), (∀ index, .pushStr index ∈ f.code → index < k) → I g →
      I { g.addFunction f with initializers := g.initializers.push f.name })
    (body : ∀ (g : CodeModule) (f : CodeFunction) h, (∀ index, .pushStr index ∈ f.code → index < k) →
      t.function? = some h → t.body.isSome → f.name = h.name → I g → I (g.addFunction f)) :
    Forms I k True (lower.group a t) fun _ => True := by
  have global (v : VarDecl) : Forms I k True (Lowering.global a v) fun _ => True := by
    refine .bind (forms_addGlobal bare v _) fun _ => ?_
    split
    · rename_i _ init same
      have anywhere (offset : Nat) : (Place.global v.linkName).At (fun _ => True) offset := trivial
      have composed : (initObject a (.global v.linkName) v.ty init).Composed fun _ => True :=
        composed_initObject anywhere (Typed.withinInit_true init)
      refine .bind (composed.lies bare.interns _ 0) fun code => .modify (fun _ => rfl) fun known g => initializer g _ ?_
      exact literals_of_lie known.2 (List.forall_mem_singleton.mpr (.inr rfl : Instr.isPlain .returnVoid ∨ _))
    · exact .pure fun _ => trivial
  have decls : Forms I k True (t.group.decls.forM (Lowering.declaration a)) fun _ => True := by
    refine .forM fun d _ => ?_
    unfold Lowering.declaration
    split
    · split
      · exact global _
      · exact .pure fun _ => trivial
    · exact .pure fun _ => trivial
  refine .bind decls fun _ => ?_
  split
  · rename_i _ f s same
    have function : t.function? = some f := congrArg Prod.fst same
    have given : t.body = some s := congrArg Prod.snd same
    refine .bind (forms_body bare f s) fun code => .modify (fun _ => rfl) fun known g => ?_
    exact body g code f known.2.1 function (given ▸ rfl) known.2.2
  · exact .pure fun _ => trivial

end

/-- What holds of the module behind a group, the group being lowered to it. -/
theorem lower_forms {t : Typed.TopLevel} {c c' : CodeModule} (code : lower a t c = .ok c')
    (forms : Forms I c'.strings.size True (lower.group a t) fun _ => True) :
    c.strings.size ≤ c'.strings.size ∧ (I c → I c') := by
  unfold lower at code
  cases run : (lower.group a t).run c with
  | error e => rw [run] at code; cases code
  | ok r =>
    rw [run] at code
    cases code
    obtain ⟨grows, formed⟩ := forms c r.1 r.2 run
    exact ⟨grows, (formed trivial (Nat.le_refl _)).2⟩

end Lowering

open Lowering

/-- A module that something is lowered to still has all that it refers to. -/
theorem lower_closed {a : Analysis} {t : Typed.TopLevel} {c c' : CodeModule} (code : lower a t c = .ok c')
    (closed : c.Closed c.strings.size) : c'.Closed c'.strings.size := by
  have forms : Forms (·.Closed c'.strings.size) c'.strings.size True (lower.group a t) fun _ => True := by
    refine forms_group bare_closed (fun g f literals closed => ?_) fun g f h literals _ _ _ closed => closed.addFunction literals
    have added := closed.addFunction literals
    refine ⟨added.literals, fun name mem => ?_⟩
    rcases Array.mem_push.mp mem with mem | rfl
    · exact added.initializers name mem
    · exact g.has_addFunction f (.inl rfl)
  obtain ⟨grows, formed⟩ := lower_forms code forms
  exact formed (closed.mono grows)

/-- Each function of the module is an initializer or is called as `N` says. -/
def CodeModule.Names (N : String → Prop) (c : CodeModule) : Prop := ∀ f ∈ c.functions, f.name ∈ c.initializers ∨ N f.name

/-- The functions that a group adds to a module are initializers, and the one that it gives a body. -/
theorem lower_names {a : Analysis} {t : Typed.TopLevel} {c c' : CodeModule} (code : lower a t c = .ok c') {N : String → Prop}
    (body : ∀ f, t.function? = some f → t.body.isSome → N f.name) (names : c.Names N) : c'.Names N := by
  have bare : Bare (·.Names N) := by
    refine ⟨fun g s names => ?_, fun _ _ names => names⟩
    obtain ⟨functions, -, initializers⟩ := g.intern_code s
    unfold CodeModule.Names
    rw [functions, initializers]
    exact names
  refine (lower_forms code (forms_group bare (fun g f _ names f' mem => ?_) fun g f h _ function given named names f' mem => ?_)).2 names
  · rcases Array.mem_push.mp mem with mem | rfl
    · exact (names f' mem).imp_left (Array.mem_push_of_mem _)
    · exact .inl Array.mem_push_self
  · rcases Array.mem_push.mp mem with mem | rfl
    · exact names f' mem
    · exact .inr (named ▸ body h function given)

end IncrementalC
