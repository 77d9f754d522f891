import IncrementalC.Lowering.Unit
import IncrementalC.Proofs.Machine.Linked

/-!
# Pieces of code

`Flows S r A start n steps m`: if the code begins at `start` with a stack of height `n`, heights can be
given to all of its instructions, and it ends with a stack of height `m`. `A` is what is assumed of the
heights elsewhere. Marks of a loop lead to a place of height zero. Pieces of code are put together
by `Flows.append`, both parts may assume the height in between.

* `Gives m P`: the production `m` yields something with `P`, or fails because a part of the language
  has no code. It defines no functions.
* `Piece.Trades S r i j p`: the piece takes `i` values from the stack and leaves `j`.
* `Block.Stays S r b`: the block leaves an empty stack empty.
-/
namespace IncrementalC.Lowering
set_option autoImplicit false

variable {S : Signatures} {r : Nat} {A B : (Nat → Nat) → Prop} {start n k m : Nat}

/-- The heights from `start` on. -/
def Levels (h : Nat → Nat) (start : Nat) (ls : List Nat) : Prop :=
  ∀ (k l : Nat), ls[k]? = some l → h (start + k) = l

theorem Levels.left {h : Nat → Nat} {ls ls' : List Nat} (levels : Levels h start (ls ++ ls')) :
    Levels h start ls := by
  intro k l found
  have bound : k < ls.length := by
    rw [List.getElem?_eq_some_iff] at found
    exact found.1
  exact levels k l (by rw [List.getElem?_append_left bound, found])

theorem Levels.right {h : Nat → Nat} {ls ls' : List Nat} (levels : Levels h start (ls ++ ls')) :
    Levels h (start + ls.length) ls' := by
  intro k l found
  have here := levels (ls.length + k) l (by
    rw [List.getElem?_append_right (Nat.le_add_right _ _), Nat.add_sub_cancel_left, found])
  rwa [Nat.add_assoc]

/-- The code as it stands in a loop that goes on at `next` and ends at `stop`. -/
def resolved (stop next : Nat) (steps : List Step) : List Instr := steps.map (·.resolve stop next)

theorem resolved_instr (stop next : Nat) (code : List Instr) :
    resolved stop next (code.map .instr) = code := by
  unfold resolved
  rw [List.map_map]
  exact List.map_id' code

theorem length_resolved (stop next : Nat) (steps : List Step) :
    (resolved stop next steps).length = steps.length := List.length_map _

def Flows (S : Signatures) (r : Nat) (A : (Nat → Nat) → Prop) (start n : Nat) (steps : List Step)
    (m : Nat) : Prop :=
  ∃ ls : List Nat, ls.length = steps.length ∧ (ls ++ [m]).head? = some n ∧
    ∀ h stop next, A h → h stop = 0 → h next = 0 → Levels h start (ls ++ [m]) →
      InOrder S r h start (resolved stop next steps)

namespace Flows

theorem mono {steps : List Step} (hA : Flows S r A start n steps m) (hBA : ∀ h, B h → A h) :
    Flows S r B start n steps m := by
  obtain ⟨ls, length, head, inOrder⟩ := hA
  exact ⟨ls, length, head, fun h stop next hB => inOrder h stop next (hBA h hB)⟩

theorem at_ {start' : Nat} {steps : List Step} (h : Flows S r A start n steps m)
    (place : start = start') : Flows S r A start' n steps m := place ▸ h

theorem nil : Flows S r A start n [] n := ⟨[], rfl, rfl, fun _ _ _ _ _ _ _ => .nil⟩

/-- The heights at both ends are known. -/
theorem close {steps : List Step}
    (hA : Flows S r (fun h => A h ∧ h start = n ∧ h (start + steps.length) = m) start n steps m) :
    Flows S r A start n steps m := by
  obtain ⟨ls, length, head, inOrder⟩ := hA
  refine ⟨ls, length, head, fun h stop next hA hstop hnext levels => ?_⟩
  refine inOrder h stop next ⟨hA, ?_, ?_⟩ hstop hnext levels
  · exact levels 0 n (by rw [← List.head?_eq_getElem?, head])
  · rw [← length]
    exact levels ls.length m List.getElem?_concat_length

theorem append {c d : List Step}
    (hc : Flows S r (fun h => A h ∧ h (start + c.length) = k) start n c k)
    (hd : Flows S r (fun h => A h ∧ h (start + c.length) = k) (start + c.length) k d m) :
    Flows S r A start n (c ++ d) m := by
  obtain ⟨ls, length, head, inOrder⟩ := hc
  obtain ⟨ls', length', head', inOrder'⟩ := hd
  refine ⟨ls ++ ls', ?_, ?_, fun h stop next hA hstop hnext levels => ?_⟩
  · rw [List.length_append, List.length_append, length, length']
  · cases ls with
    | nil =>
      cases head
      exact head'
    | cons l ls => exact head
  · rw [List.append_assoc] at levels
    have later := levels.right
    rw [length] at later
    have between : h (start + c.length) = k := by
      have first := later 0 k (by rw [← List.head?_eq_getElem?, head'])
      rwa [Nat.add_zero] at first
    have sooner : Levels h start (ls ++ [k]) := by
      intro j l found
      by_cases small : j < ls.length
      · rw [List.getElem?_append_left small] at found
        exact levels.left j l found
      · rw [List.getElem?_append_right (Nat.le_of_not_lt small)] at found
        have last : j - ls.length = 0 := by
          rw [List.getElem?_eq_some_iff] at found
          have bound := found.1
          rw [List.length_singleton] at bound
          omega
        rw [last] at found
        cases found
        rw [show j = ls.length by omega, length]
        exact between
    unfold resolved
    rw [List.map_append]
    refine InOrder.append (inOrder h stop next ⟨hA, between⟩ hstop hnext sooner) ?_
    rw [List.length_map]
    exact inOrder' h stop next ⟨hA, between⟩ hstop hnext later

theorem seq {c d : List Step} (hc : Flows S r A start n c k) (hd : Flows S r A (start + c.length) k d m) :
    Flows S r A start n (c ++ d) m :=
  append (hc.mono fun _ => And.left) (hd.mono fun _ => And.left)

/-- The round of a loop: the first piece may lead to its own end and behind both pieces, the second one back to the start. -/
theorem round {c d : List Step} {middle stop : Nat} (hc : Flows S r (fun h => h stop = 0 ∧ h middle = 0) start 0 c 0)
    (hd : Flows S r (fun h => h start = 0) middle 0 d 0) (place : start + c.length = middle) (ends : middle + d.length = stop) :
    Flows S r (fun _ => True) start 0 (c ++ d) 0 := by
  subst place ends
  refine close (append (k := 0) (hc.mono ?_) (hd.mono fun h known => known.1.2.1))
  rintro h ⟨⟨-, -, last⟩, between⟩
  rw [List.length_append, ← Nat.add_assoc] at last
  exact ⟨last, between⟩

/-- A single instruction. -/
theorem single {i : Instr}
    (hi : ∀ h, A h → h start = n → h (start + 1) = m → i.InOrder S r h start) :
    Flows S r A start n [.instr i] m := by
  refine ⟨[n], rfl, rfl, fun h stop next hA _ _ levels => ?_⟩
  exact .single (hi h hA (levels 0 n rfl) (levels 1 m rfl))

theorem straight {i : Instr} (straight : i.isStraight) :
    Flows S r A start (n + i.takes) [.instr i] (n + i.gives) :=
  single fun _ _ before after => (Instr.inOrder_of_isStraight straight).mpr ⟨n, before, after⟩

/-- What stands behind a jump is not reached from it. -/
theorem jump {target : Nat} (known : ∀ h, A h → h target = n) :
    Flows S r A start n [.instr (.jump target)] m :=
  single fun h hA before _ => (known h hA).trans before.symm

theorem jumpIfFalse {target : Nat} (known : ∀ h, A h → h target = n) :
    Flows S r A start (n + 1) [.instr (.jumpIfFalse target)] n :=
  single fun h hA before after => ⟨by rw [before, known h hA], by rw [before, after]⟩

theorem jumpIfTrue {target : Nat} (known : ∀ h, A h → h target = n) :
    Flows S r A start (n + 1) [.instr (.jumpIfTrue target)] n :=
  single fun h hA before after => ⟨by rw [before, known h hA], by rw [before, after]⟩

/-- A mark in a loop. What stands behind it is not reached. -/
theorem mark {step : Step} (hstep : step = .leave ∨ step = .again) :
    Flows S r A start 0 [step] m := by
  refine ⟨[0], rfl, rfl, fun h stop next _ hstop hnext levels => .single ?_⟩
  have here : h start = 0 := levels 0 0 rfl
  rcases hstep with rfl | rfl
  · show h stop = h start
    rw [hstop, here]
  · show h next = h start
    rw [hnext, here]

/-- The marks of a loop get their places. -/
theorem resolve {steps : List Step} (hA : Flows S r A start n steps m) (stop next : Nat) :
    Flows S r (fun h => A h ∧ h stop = 0 ∧ h next = 0) start n
      ((resolved stop next steps).map .instr) m := by
  obtain ⟨ls, length, head, inOrder⟩ := hA
  refine ⟨ls, ?_, head, fun h _ _ hA _ _ levels => ?_⟩
  · rw [List.length_map, length_resolved, length]
  · rw [resolved_instr]
    exact inOrder h stop next hA.1 hA.2.1 hA.2.2 levels

/-- The code of a whole function. -/
theorem balanced {f : CodeFunction} {steps : List Step}
    (flows : Flows S f.results (fun _ => True) 0 0 steps m)
    (code : f.code.toList = resolved 0 0 steps) : f.Balanced S := by
  obtain ⟨ls, length, head, inOrder⟩ := flows
  have start : ((ls ++ [m])[0]?).getD 0 = 0 := by rw [← List.head?_eq_getElem?, head]; rfl
  refine ⟨fun k => ((ls ++ [m])[k]?).getD 0, start, ?_⟩
  rw [code]
  refine inOrder _ 0 0 trivial start start fun k l found => ?_
  show ((ls ++ [m])[0 + k]?).getD 0 = l
  rw [Nat.zero_add, found, Option.getD_some]

end Flows

end IncrementalC.Lowering

namespace IncrementalC.Lowering
set_option autoImplicit false

variable {α β : Type} {S : Signatures} {r i j k : Nat}

/-! ## Production -/

/-- What a production from `g` may come to. -/
def GivenBy (g : CodeModule) (P : α → Prop) : Except LoweringError (α × CodeModule) → Prop
  | .ok x => x.2.functions = g.functions ∧ P x.1
  | .error e => e.problem.unsupported?.isSome

def Gives (m : Gen α) (P : α → Prop) : Prop := ∀ g, GivenBy g P (m.run g)

namespace Gives

variable {P Q : α → Prop}

theorem mono {m : Gen α} (hm : Gives m P) (h : ∀ x, P x → Q x) : Gives m Q := by
  intro g
  have given := hm g
  cases run : m.run g with
  | error e =>
    rw [run] at given
    exact given
  | ok x =>
    rw [run] at given
    exact ⟨given.1, h _ given.2⟩

theorem pure {x : α} (h : P x) : Gives (Pure.pure x : Gen α) P := fun _ => ⟨rfl, h⟩

theorem bind {R : β → Prop} {m : Gen α} {f : α → Gen β} (hm : Gives m P)
    (hf : ∀ x, P x → Gives (f x) R) : Gives (m >>= f) R := by
  intro g
  have first : GivenBy g P (m g) := hm g
  show GivenBy g R (StateT.bind m f g)
  unfold StateT.bind
  cases run : m g with
  | error e =>
    rw [run] at first
    exact first
  | ok x =>
    rw [run] at first
    have second : GivenBy x.2 R (f x.1 x.2) := hf x.1 first.2 x.2
    show GivenBy g R (f x.1 x.2)
    cases run' : f x.1 x.2 with
    | error e =>
      rw [run'] at second
      exact second
    | ok y =>
      rw [run'] at second
      exact ⟨second.1.trans first.1, second.2⟩

theorem fail {problem : LoweringProblem} {span : Span} (h : problem.unsupported?.isSome) :
    Gives (fail problem span : Gen α) P := fun _ => h

theorem need {x : Option α} {problem : LoweringProblem} {span : Span} (present : x.isSome)
    (h : ∀ y, x = some y → P y) : Gives (need x problem span) P := by
  cases x with
  | none => cases present
  | some y => exact pure (h y rfl)

/-- What is missing is a part of the language without code. -/
theorem needSupported {x : Option α} {problem : LoweringProblem} {span : Span}
    (supported : problem.unsupported?.isSome) (h : ∀ y, x = some y → P y) :
    Gives (Lowering.need x problem span) P := by
  cases x with
  | none => exact fail supported
  | some y => exact pure (h y rfl)

theorem intern (s : String) : Gives (intern s) fun _ => True := by
  intro g
  refine ⟨?_, trivial⟩
  show (g.intern s).1.functions = g.functions
  unfold CodeModule.intern
  split <;> rfl

theorem modify {f : CodeModule → CodeModule} (h : ∀ g, (f g).functions = g.functions) :
    Gives (modify f : Gen Unit) fun _ => True := fun g => ⟨h g, trivial⟩

theorem mapM {f : α → Gen β} {xs : List α} {R : β → Prop} (hf : ∀ x ∈ xs, Gives (f x) R) :
    Gives (xs.mapM f) fun ys => ys.length = xs.length ∧ ∀ y ∈ ys, R y := by
  induction xs with
  | nil => exact pure ⟨rfl, nofun⟩
  | cons x xs ih =>
    rw [List.mapM_cons]
    refine bind (hf x List.mem_cons_self) fun y hy => ?_
    refine bind (ih fun x hx => hf x (List.mem_cons_of_mem _ hx)) fun ys hys => pure ⟨?_, ?_⟩
    · rw [List.length_cons, List.length_cons, hys.1]
    · exact List.forall_mem_cons.mpr ⟨hy, hys.2⟩

end Gives

/-! ## Lists of instructions -/

/-- The instructions take `i` values and leave `j`, wherever they stand. -/
def Trades (S : Signatures) (r i j : Nat) (code : List Instr) : Prop :=
  ∀ start n, Flows S r (fun _ => True) start (n + i) (code.map .instr) (n + j)

namespace Trades

theorem nil : Trades S r i i [] := fun _ _ => .nil

theorem append {c d : List Instr} (hc : Trades S r i j c) (hd : Trades S r j k d) :
    Trades S r i k (c ++ d) := by
  intro start n
  rw [List.map_append]
  exact Flows.append ((hc start n).mono fun _ _ => trivial) ((hd _ n).mono fun _ _ => trivial)

theorem frame (l : Nat) {c : List Instr} (hc : Trades S r i j c) : Trades S r (l + i) (l + j) c := by
  intro start n
  rw [← Nat.add_assoc, ← Nat.add_assoc]
  exact hc start (n + l)

theorem straight {x : Instr} (straight : x.isStraight) : Trades S r x.takes x.gives [x] :=
  fun _ _ => .straight straight

theorem call {name : String} {sig : FunctionSig} (declared : S name = some sig) (argc : Nat) :
    Trades S r argc sig.results [.call name argc] := by
  intro start n
  exact .single fun h _ before after => ⟨sig, n, declared, before, after⟩

theorem cons {x : Instr} {c : List Instr} (hx : Trades S r i j [x]) (hc : Trades S r j k c) :
    Trades S r i k (x :: c) := hx.append hc

theorem convert (source target : Ty) : Trades S r 1 1 (convert source target) := by
  unfold Lowering.convert
  split
  · split
    · exact nil
    · exact straight rfl
  · exact nil

end Trades

/-! ## Pieces -/

namespace Piece

theorem append_assoc (p q r : Piece) : p ++ q ++ r = p ++ (q ++ r) := by
  funext start
  show (Piece.append (Piece.append p q) r) start = Piece.append p (Piece.append q r) start
  simp only [Piece.append, bind_assoc, pure_bind, List.append_assoc, List.length_append, Nat.add_assoc]

theorem code_append (c d : List Instr) : Piece.code (c ++ d) = .code c ++ .code d := by
  funext start
  rfl

theorem nil_append (p : Piece) : .code [] ++ p = p := by
  funext start
  show Piece.append (.code []) p start = p start
  simp only [Piece.append, Piece.code, Piece.gen, pure_bind, List.nil_append, List.length_nil, Nat.add_zero, bind_pure]

theorem append_nil (p : Piece) : p ++ .code [] = p := by
  funext start
  show Piece.append p (.code []) start = p start
  simp only [Piece.append, Piece.code, Piece.gen, pure_bind, List.append_nil, bind_pure]

/-- The pieces one after the other. -/
def all : List Piece → Piece
  | [] => .code []
  | p :: ps => p ++ all ps

theorem all_append (ps qs : List Piece) : all (ps ++ qs) = all ps ++ all qs := by
  induction ps with
  | nil => exact (nil_append _).symm
  | cons p ps ih =>
    show p ++ all (ps ++ qs) = p ++ all ps ++ all qs
    rw [ih, append_assoc]

theorem all_code {γ : Type} (xs : List γ) (f : γ → List Instr) :
    all (xs.map fun x => .code (f x)) = .code (xs.flatMap f) := by
  induction xs with
  | nil => rfl
  | cons x xs ih =>
    show .code (f x) ++ all (xs.map fun x => .code (f x)) = _
    rw [ih, List.flatMap_cons, code_append]

def Trades (S : Signatures) (r i j : Nat) (p : Piece) : Prop :=
  ∀ start, Gives (p start) fun code =>
    ∀ n, Flows S r (fun _ => True) start (n + i) (code.map .instr) (n + j)

namespace Trades

variable {p q : Piece}

theorem code {c : List Instr} (h : Lowering.Trades S r i j c) : Trades S r i j (.code c) :=
  fun start => .pure (h start)

theorem gen {m : Gen (List Instr)} (h : Gives m (Lowering.Trades S r i j)) : Trades S r i j (.gen m) :=
  fun start => h.mono fun _ hc => hc start

theorem append (hp : Trades S r i j p) (hq : Trades S r j k q) : Trades S r i k (p ++ q) := by
  intro start
  show Gives (Piece.append p q start) _
  unfold Piece.append
  refine .bind (hp start) fun c hc => .bind (hq _) fun d hd => .pure ?_
  intro n
  rw [List.map_append]
  refine Flows.append ((hc n).mono fun _ _ => trivial) ?_
  rw [List.length_map]
  exact (hd n).mono fun _ _ => trivial

theorem frame (l : Nat) (hp : Trades S r i j p) : Trades S r (l + i) (l + j) p := by
  refine fun start => (hp start).mono fun c hc n => ?_
  rw [← Nat.add_assoc, ← Nat.add_assoc]
  exact hc (n + l)

theorem ite {c : Prop} [Decidable c] (hp : c → Trades S r i j p) (hq : ¬c → Trades S r i j q) :
    Trades S r i j (if c then p else q) := by
  split
  · rename_i h
    exact hp h
  · rename_i h
    exact hq h

end Trades

/-- The piece leaves an empty stack empty. -/
def Stays (S : Signatures) (r : Nat) (p : Piece) : Prop :=
  ∀ start, Gives (p start) fun code => Flows S r (fun _ => True) start 0 (code.map .instr) 0

theorem Trades.stays {p : Piece} (hp : p.Trades S r 0 0) : p.Stays S r :=
  fun start => (hp start).mono fun _ hc => hc 0

theorem Stays.append {p q : Piece} (hp : p.Stays S r) (hq : q.Stays S r) : (p ++ q).Stays S r := by
  intro start
  show Gives (Piece.append p q start) _
  unfold Piece.append
  refine .bind (hp start) fun c hc => .bind (hq _) fun d hd => .pure ?_
  rw [List.map_append]
  refine Flows.append (hc.mono fun _ _ => trivial) ?_
  rw [List.length_map]
  exact hd.mono fun _ _ => trivial

end Piece

/-! ## Blocks -/

namespace Block

def Stays (S : Signatures) (r : Nat) (b : Block) : Prop :=
  ∀ start, Gives (b start) fun steps => Flows S r (fun _ => True) start 0 steps 0

namespace Stays

variable {b c : Block}

theorem empty : Stays S r .empty := fun _ => .pure .nil

theorem append (hb : Stays S r b) (hc : Stays S r c) : Stays S r (b ++ c) := by
  intro start
  show Gives (Block.append b c start) _
  unfold Block.append
  refine .bind (hb start) fun d hd => .bind (hc _) fun e he => .pure ?_
  exact Flows.append (hd.mono fun _ _ => trivial) (he.mono fun _ _ => trivial)

theorem mark {step : Step} (h : step = .leave ∨ step = .again) : Stays S r (.mark step) :=
  fun _ => .pure (.mark h)

theorem ofPiece {p : Piece} (hp : p.Stays S r) : Stays S r (.ofPiece p) :=
  fun start => .bind (hp start) fun _ hc => .pure hc

end Stays

end Block

end IncrementalC.Lowering
