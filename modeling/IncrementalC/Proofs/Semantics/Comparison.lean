import IncrementalC.Proofs.Semantics.Moved

/-!
# Two runs from one state

What the run of a stretch of code comes to (`FramePlace.outcome`), wherever the stretch stands in linked code. A run is
followed piece by piece: `FramePlace.ComesDownTo` says which code remains and which values it finds, so two runs that come
down to the same code come to the same (`FramePlace.ComesDownTo.same`).

Evaluating the place of an object may have no side effects (`SideEffectFree`). It has none where nothing is assigned, stepped
or called (`sideEffectFree_of_reading`).
-/
namespace IncrementalC
set_option autoImplicit false
open Lowering Analyze Structured
open Typed (Expr Info Binding)

/-! ## What a run comes to -/

/-- What the run of a stretch of code comes to, the function that it stands in apart. -/
inductive Ending (η : Type) where
  /-- The instructions have run out. -/
  | limit
  | error (e : MachineError) (globals stack : Array Value)
  /-- The machine at the end, without its active functions and its count of instructions. -/
  | ended (m : Machine) (host : η)

namespace Ending

variable {η : Type}

def of : EStateM.Result MachineError (World η) Unit → Ending η
  | .ok _ w => .ended (w.machine.running [] 0) w.host
  | .error e w =>
    match e.fault with
    | .instructionLimit _ => .limit
    | _ => .error e w.machine.globals w.machine.stack

theorem of_limit {e : MachineError} (h : e.IsLimit) (w : World η) : of (.error e w) = .limit := by
  obtain ⟨limit, fault⟩ := h
  unfold of
  dsimp only
  rw [fault]

/-- The same error on the same memory comes to the same. -/
theorem of_error {e : MachineError} {w w' : World η} (globals : w.machine.globals = w'.machine.globals)
    (stack : w.machine.stack = w'.machine.stack) : of (.error e w) = of (.error e w') := by
  unfold of
  dsimp only
  rw [globals, stack]

/-- A computation on the memory comes to this, above the operands `os`. -/
def Reflects {α : Type} (o : Ending η) (os : List Value) (h : η) (out : α → List Value) :
    EStateM.Result Abort Machine α → Prop
  | .ok x m => o = .ended ({ m with operands := out x ++ os }.running [] 0) h
  | .error (.fault e) m => o = .of (.error { fault := e } ⟨m, h⟩)
  | .error .meaningless _ => True

end Ending

/-- The slots of the frame of a function, and the active functions below. -/
structure FramePlace where
  below : List Frame
  base : Nat
  operandBase : Nat

namespace FramePlace

variable {η : Type} (P : FramePlace)

/-- The function stands at `ip`, on the memory of `m` and above its operands. -/
def world (f : CodeFunction) (ip : Nat) (m : Machine) (h : η) : World η :=
  ⟨m.running (P.below ++ [⟨f, ip, P.base, P.operandBase⟩]) m.instructionCount, h⟩

/-- What becomes of the world when the function runs the stretch `s` from its first instruction on. -/
def outcome (host : Option (Host η)) (f : CodeFunction) (s : Segment) (m : Machine) (h : η) : Ending η :=
  .of (Exec.evaluateCode (Exec.templates host) P.below.length s (P.world f s.first m h))

/-- The function goes on with the stretch `s` from `ip` on. -/
def goOn (host : Option (Host η)) (f : CodeFunction) (s : Segment) (ip : Nat) (m : Machine) (h : η) :
    EStateM.Result MachineError (World η) Unit :=
  Exec.runWhile (Exec.templates host) (s.holds P.below.length) (P.world f ip m h)

variable {P} {host : Option (Host η)} {f f' : CodeFunction} {s s' d : Segment} {ip mid : Nat} {m : Machine} {h : η}

theorem stands_world : Stands P.below ⟨f, 0, P.base, P.operandBase⟩ ip (P.world f ip m h) := rfl

theorem outcome_eq : P.outcome host f s m h = .of (P.goOn host f s s.first m h) := by
  unfold outcome goOn Exec.evaluateCode
  rw [goto_self stands_world]

/-- A part of the stretch is run, and then the rest. -/
theorem goOn_part (low : s.first ≤ d.first) (high : d.last ≤ s.last) : P.goOn host f s ip m h =
    (Exec.runWhile (Exec.templates host) (d.holds P.below.length) >>= fun _ =>
      Exec.runWhile (Exec.templates host) (s.holds P.below.length)) (P.world f ip m h) :=
  Exec.runWhile_split (Exec.steady_templates host) Exec.holds_active (Exec.holds_mono low high)

/-- Code that is left at its end only is left there. -/
theorem goOn_of_ended {m₁ : Machine} {h₁ : η} (inward : s.Inward f.code)
    (ended : P.outcome host f s m h = .ended (m₁.running [] 0) h₁) :
    ∃ n, P.goOn host f s s.first m h = .ok () (P.world f s.last { m₁ with instructionCount := n } h₁) := by
  rw [outcome_eq] at ended
  cases ran : P.goOn host f s s.first m h with
  | error e w =>
    rw [ran] at ended
    unfold Ending.of at ended
    dsimp only at ended
    split at ended <;> cases ended
  | ok u w =>
    rw [ran] at ended
    obtain ⟨machine, rfl⟩ := Ending.ended.inj ended
    have inside : s.first ≤ s.first ∧ s.first ≤ s.last := ⟨Nat.le_refl _, inward.ordered⟩
    obtain ⟨frames, -⟩ := Exec.runWhile_within (Exec.steady_templates host) inward (stands_world (P := P)) inside ran
    have frames : w.machine.frames = (P.below ++ [(⟨f, s.last, P.base, P.operandBase⟩ : Frame)]).toArray :=
      Array.toList_inj.mp frames
    have same : w.machine = (m₁.running [] 0).running (P.below ++ [⟨f, s.last, P.base, P.operandBase⟩])
        w.machine.instructionCount := by
      rw [← machine]
      unfold Machine.running
      rw [← frames]
    exact ⟨w.machine.instructionCount, congrArg (fun m => EStateM.Result.ok () (World.mk m w.host)) same⟩

/-! ## Stretches that compute -/

/-- What surrounds a stretch of the function. -/
def track (P : FramePlace) (host : Option (Host η)) (h : η) (linked : Machine) (strings : Array UInt64) (f : CodeFunction)
    (s : Segment) : Track η :=
  ⟨Exec.templates host, P.below, ⟨f, 0, P.base, P.operandBase⟩, s, h, linked, strings⟩

variable {α : Type} {linked : Machine} {strings : Array UInt64} {p : Piece} {xs ys os : List Value} {M : Eval α}
  {out : α → List Value} {n : Nat}

theorem of_exhausted {limit : Nat} (exhausted : (P.track host h linked strings f s).Exhausted (P.world f ip m h) limit n) :
    Ending.of (P.goOn host f s ip m h) = .limit := by
  obtain ⟨-, w, fails⟩ := exhausted
  have ran : P.goOn host f s ip m h = .error _ w := fails.runWhile (Exec.steady_templates host)
  rw [ran]
  exact Ending.of_limit ⟨limit, rfl⟩ w

variable (low : s.first ≤ ip) (stands : (P.track host h linked strings f s).Stands p f ⟨ip, mid⟩)
include low stands

theorem ends_of_runs (high : mid ≤ s.last) (runs : (P.track host h linked strings f s).Runs p xs M out) (m : Machine)
    (os : List Value) (n : Nat) :
    ∃ k, (P.track host h linked strings f s).Ends (P.world f ip { m with operands := xs ++ os, instructionCount := n } h) m os
      mid k out (M m) := by
  obtain ⟨g, is, g', run, knows, last, shows_⟩ := stands
  have last : mid = ip + is.length := last
  subst last
  exact ⟨_, runs ip g is g' run knows shows_ low high m os n⟩

/-- The function computes with the values on top of its operands, and goes on. -/
theorem goOn_turns (high : mid ≤ s.last) (turns : (P.track host h linked strings f s).Runs p xs (pure ()) fun _ => ys)
    (m : Machine) (os : List Value) (n : Nat) :
    Ending.of (P.goOn host f s ip { m with operands := xs ++ os, instructionCount := n } h) = .limit ∨
    ∃ n', P.goOn host f s ip { m with operands := xs ++ os, instructionCount := n } h =
      P.goOn host f s mid { m with operands := ys ++ os, instructionCount := n' } h := by
  obtain ⟨k, -, ⟨n', -, leads⟩ | exhausted⟩ := ends_of_runs low stands high turns m os n
  · exact .inr ⟨n', leads.runWhile_eq (Exec.steady_templates host)⟩
  · exact .inl (of_exhausted exhausted)

/-- The function computes up to the end of the stretch. -/
theorem outcome_of_runs (last : mid = s.last) (runs : (P.track host h linked strings f s).Runs p xs M out) :
    let o := Ending.of (P.goOn host f s ip { m with operands := xs ++ os, instructionCount := n } h)
    o = .limit ∨ o.Reflects os h out (M m) := by
  have steady := Exec.steady_templates host
  obtain ⟨k, ends⟩ := ends_of_runs low stands (Nat.le_of_eq last) runs m os n
  cases result : M m with
  | ok x m' =>
    rw [result] at ends
    obtain ⟨-, ⟨n', -, leads⟩ | exhausted⟩ := ends
    · have stops : s.holds P.below.length (P.world f mid { m' with operands := out x ++ os, instructionCount := n' } h).machine =
          false := by
        refine Bool.eq_false_iff.mpr fun holds => ?_
        have inside := (Track.holds_at (σ := P.track host h linked strings f s) m' (out x ++ os) n' mid).mp holds
        exact Nat.lt_irrefl _ (last ▸ inside.2)
      have ran : P.goOn host f s ip { m with operands := xs ++ os, instructionCount := n } h = .ok () _ :=
        leads.runWhile steady stops
      rw [ran]
      exact .inr rfl
    · exact .inl (of_exhausted exhausted)
  | error e m' =>
    cases e with
    | meaningless => exact .inr trivial
    | fault e =>
      rw [result] at ends
      obtain ⟨w, fails, globals, stack⟩ | exhausted := ends
      · have ran : P.goOn host f s ip { m with operands := xs ++ os, instructionCount := n } h = .error _ w :=
          fails.runWhile steady
        rw [ran]
        exact .inr (Ending.of_error globals stack)
      · exact .inl (of_exhausted exhausted)

omit low stands in
/-- What one piece made of two stretches comes to the same in both. -/
theorem outcome_of_movable {f' : CodeFunction} {s' : Segment} {ip' mid' n' : Nat} {strings : Array UInt64} {linked : Machine}
    (movable : (P.track host h linked strings f s).Movable p)
    (stands : (P.track host h linked strings f s).Stands p f ⟨ip, mid⟩) (low : s.first ≤ ip) (last : mid = s.last)
    (stands' : (P.track host h linked strings f s).Stands p f' ⟨ip', mid'⟩) (low' : s'.first ≤ ip') (last' : mid' = s'.last)
    (m : Machine) :
    Ending.of (P.goOn host f s ip { m with instructionCount := n } h) = .limit ∨
    Ending.of (P.goOn host f' s' ip' { m with instructionCount := n' } h) = .limit ∨
    Ending.of (P.goOn host f' s' ip' { m with instructionCount := n' } h) =
      Ending.of (P.goOn host f s ip { m with instructionCount := n } h) := by
  obtain ⟨t, below, base, operandBase, left, right, length, length'⟩ :=
    stands.twin movable stands' P.below P.base P.operandBase
  have world {f : CodeFunction} {ip : Nat} {place : CodePlace} (at_ : place = ⟨f, ip⟩) (n : Nat) :
      P.world f ip { m with instructionCount := n } h = t.world place 0 [] m h n := by
    subst at_
    unfold world Twin.world Twin.frame
    rw [below, base, operandBase]
    rfl
  have beside : t.Beside (P.world f ip { m with instructionCount := n } h)
      (P.world f' ip' { m with instructionCount := n' } h) := by
    rw [world left, world right]
    exact .mk m h [] 0 (Nat.zero_le _) n n'
  have first : s.first ≤ t.left.first := left ▸ low
  have first' : s'.first ≤ t.right.first := right ▸ low'
  have last : s.last = t.left.first + t.length := left ▸ last ▸ length
  have last' : s'.last = t.right.first + t.length := right ▸ last' ▸ length'
  have settled := Twin.runWhile_settled first last first' last' host beside
  rw [below] at settled
  unfold goOn
  generalize Exec.runWhile (Exec.templates host) (s.holds P.below.length) _ = r at settled ⊢
  generalize Exec.runWhile (Exec.templates host) (s'.holds P.below.length) _ = r' at settled ⊢
  cases settled with
  | ended m₁ h₁ k k' => exact .inr (.inr rfl)
  | error e beside =>
    obtain ⟨m₁, h₁, above, k, -, c, c'⟩ := beside
    exact .inr (.inr (Ending.of_error rfl rfl))
  | left limit w r => exact .inl (Ending.of_limit limit w)
  | right limit w r => exact .inr (.inl (Ending.of_limit limit w))

end FramePlace

/-! ## Objects without side effects -/

/-- The evaluation of the place of `x` on the memory of `m` comes to `r` wherever its code stands in the linked module, however
many instructions were counted and whatever is on the operand stack, unless the instructions run out. Nothing else changes. -/
def SideEffectFree {η : Type} (P : FramePlace) (host : Option (Host η)) (c : CodeModule) (a : Analysis) (linked m : Machine)
    (h : η) (x : Expr) (r : Except MachineError Value) : Prop :=
  ∀ (f f' : CodeFunction) (s : Segment) (os : List Value) (n : Nat), c.Contains (lvalue a x.unplaced) f s →
    linked.functions.get? f.name = some f' →
      let o := P.outcome host f' s { m with operands := os, instructionCount := n } h
      o = .limit ∨ match r with
        | .ok v => o = .ended ({ m with operands := v :: os }.running [] 0) h
        | .error e => o = .of (.error e ⟨m, h⟩)

/-- The linked module: its functions are found, and its literals have addresses. -/
structure LinkedModule (c : CodeModule) (linked : Machine) (strings : Array UInt64) : Prop where
  literals : ∀ (k : Nat) (text : String), c.strings[k]? = some text →
    ∃ p, strings[k]? = some p ∧ linked.strings.get? text = some p
  finds : ∀ f ∈ c.functions, linked.FindsLinked strings f

section

variable {η : Type} {P : FramePlace} {host : Option (Host η)} {c : CodeModule} {a : Analysis} {linked m : Machine} {h : η}
  {strings : Array UInt64} {f f' : CodeFunction} {s s' d : Segment} {ip mid : Nat} {x : Expr} {r : Except MachineError Value}

theorem CodeModule.Contains.inward {p : Piece} (contains : c.Contains p f s) (inward : p.Inward)
    (link : LinkedModule c linked strings) (found : linked.functions.get? f.name = some f') : s.Inward f'.code := by
  let σ : Track Unit := ⟨Exec.templates none, [], ⟨f', 0, 0, 0⟩, s, (), linked, strings⟩
  obtain ⟨g, is, g', run, -, last, shows_⟩ := contains.stands (σ := σ) link.literals link.finds found
  exact inward_of_fills (fun _ _ => becomes_of_patch) inward ⟨g, is, g', run, last, shows_⟩

/-- The place of the object is pushed, or evaluating it comes to an error. -/
theorem SideEffectFree.goOn (free : SideEffectFree P host c a linked m h x r) (link : LinkedModule c linked strings)
    (contains : c.Contains (lvalue a x.unplaced) f ⟨ip, mid⟩) (found : linked.functions.get? f.name = some f')
    (low : s.first ≤ ip) (high : mid ≤ s.last) (os : List Value) (n : Nat) :
    Ending.of (P.goOn host f' s ip { m with operands := os, instructionCount := n } h) = .limit ∨
    match r with
    | .ok v => ∃ n', P.goOn host f' s ip { m with operands := os, instructionCount := n } h =
        P.goOn host f' s mid { m with operands := v :: os, instructionCount := n' } h
    | .error e => Ending.of (P.goOn host f' s ip { m with operands := os, instructionCount := n } h) = .of (.error e ⟨m, h⟩) := by
  have split : P.goOn host f' s ip { m with operands := os, instructionCount := n } h = _ :=
    FramePlace.goOn_part (d := ⟨ip, mid⟩) low high
  have failed {o : Ending η} (notEnded : ∀ m h, o ≠ .ended m h)
      (part : P.outcome host f' ⟨ip, mid⟩ { m with operands := os, instructionCount := n } h = o) :
      Ending.of (P.goOn host f' s ip { m with operands := os, instructionCount := n } h) = o := by
    rw [FramePlace.outcome_eq] at part
    rw [split]
    show Ending.of (EStateM.bind _ _ _) = o
    unfold EStateM.bind
    unfold FramePlace.goOn at part
    dsimp only at part
    generalize Exec.runWhile (Exec.templates host) (Segment.holds ⟨ip, mid⟩ P.below.length) _ = q at part ⊢
    cases q with
    | error e w => exact part
    | ok u w => exact absurd part.symm (notEnded _ _)
  rcases free f f' ⟨ip, mid⟩ os n contains found with limit | comes
  · exact .inl (failed nofun limit)
  refine .inr ?_
  cases r with
  | error e =>
    refine failed (fun m h same => ?_) comes
    unfold Ending.of at same
    dsimp only at same
    split at same <;> cases same
  | ok v =>
    have inward := contains.inward (composed_lvalue x.unplaced.within_true).inward link found
    obtain ⟨n', ran⟩ := FramePlace.goOn_of_ended inward comes
    refine ⟨n', split.trans ?_⟩
    show EStateM.bind _ _ _ = _
    unfold EStateM.bind
    unfold FramePlace.goOn at ran
    dsimp only at ran
    rw [ran]
    rfl

end

/-! ## Coming down to a rest -/

/-- The instructions run out, or what remains of the run of the stretch is the code of `q`, with the values `xs` on top of the
operands and on the same memory. -/
def FramePlace.ComesDownTo {η : Type} (P : FramePlace) (host : Option (Host η)) (c : CodeModule) (f f' : CodeFunction) (s : Segment)
    (m : Machine) (h : η) (xs : List Value) (q : Piece) : Prop :=
  P.outcome host f' s m h = .limit ∨ ∃ mid n, s.first ≤ mid ∧ c.Contains q f ⟨mid, s.last⟩ ∧
    P.outcome host f' s m h = .of (P.goOn host f' s mid { m with operands := xs ++ m.operands, instructionCount := n } h)

namespace FramePlace.ComesDownTo

variable {η : Type} {P : FramePlace} {host : Option (Host η)} {c : CodeModule} {a : Analysis} {linked m : Machine} {h : η}
  {strings : Array UInt64} {f f' : CodeFunction} {s : Segment} {x : Expr} {p q : Piece} {xs ys : List Value} {v : Value}
  {e : MachineError}

theorem start (contains : c.Contains p f s) : P.ComesDownTo host c f f' s m h [] p :=
  .inr ⟨s.first, m.instructionCount, Nat.le_refl _, contains, outcome_eq⟩

section

variable (link : LinkedModule c linked strings) (found : linked.functions.get? f.name = some f') (keeps : q.Keeps)
include link found keeps

/-- The place of an object is evaluated. -/
theorem place (down : P.ComesDownTo host c f f' s m h xs (lvalue a x.unplaced ++ q))
    (free : SideEffectFree P host c a linked m h x (.ok v)) : P.ComesDownTo host c f f' s m h (v :: xs) q := by
  rcases down with limit | ⟨ip, n, low, contains, outcome⟩
  · exact .inl limit
  obtain ⟨mid, place, rest⟩ := contains.append keeps
  rcases free.goOn link place found low rest.ordered (xs ++ m.operands) n with limit | ⟨n', goesOn⟩
  · exact .inl (outcome.trans limit)
  · exact .inr ⟨mid, n', Nat.le_trans low place.ordered, rest, outcome.trans (congrArg _ goesOn)⟩

theorem place_fails (down : P.ComesDownTo host c f f' s m h xs (lvalue a x.unplaced ++ q))
    (free : SideEffectFree P host c a linked m h x (.error e)) :
    P.outcome host f' s m h = .limit ∨ P.outcome host f' s m h = .of (.error e ⟨m, h⟩) := by
  rcases down with limit | ⟨ip, n, low, contains, outcome⟩
  · exact .inl limit
  obtain ⟨mid, place, rest⟩ := contains.append keeps
  rw [outcome]
  exact free.goOn link place found low rest.ordered (xs ++ m.operands) n

theorem turns {is : List Instr} (down : P.ComesDownTo host c f f' s m h xs (.code is ++ q))
    (turns : (P.track host h linked strings f' s).Turns is xs ys) : P.ComesDownTo host c f f' s m h ys q := by
  rcases down with limit | ⟨ip, n, low, contains, outcome⟩
  · exact .inl limit
  obtain ⟨mid, instructions, rest⟩ := contains.append keeps
  have stands : (P.track host h linked strings f' s).Stands (.code is) f' ⟨ip, mid⟩ :=
    instructions.stands link.literals link.finds found
  rcases goOn_turns low stands rest.ordered turns m m.operands n with limit | ⟨n', goesOn⟩
  · exact .inl (outcome.trans limit)
  · exact .inr ⟨mid, n', Nat.le_trans low instructions.ordered, rest, outcome.trans (congrArg _ goesOn)⟩

end

/-- Two runs that come down to the same code come to the same. -/
theorem same {g g' : CodeFunction} {d : Segment} (link : LinkedModule c linked strings)
    (found : linked.functions.get? f.name = some f') (found' : linked.functions.get? g.name = some g')
    (movable : (P.track host h linked strings f' s).Movable q) (down : P.ComesDownTo host c f f' s m h xs q)
    (down' : P.ComesDownTo host c g g' d m h xs q) :
    P.outcome host f' s m h = .limit ∨ P.outcome host g' d m h = .limit ∨ P.outcome host g' d m h = P.outcome host f' s m h := by
  rcases down with limit | ⟨ip, n, low, contains, outcome⟩
  · exact .inl limit
  rcases down' with limit | ⟨ip', n', low', contains', outcome'⟩
  · exact .inr (.inl limit)
  rw [outcome, outcome']
  exact outcome_of_movable movable (contains.stands link.literals link.finds found) low rfl
    (contains'.stands link.literals link.finds found') low' rfl { m with operands := xs ++ m.operands }

/-- The rest computes. -/
theorem computes {α : Type} {M : Eval α} {out : α → List Value} (link : LinkedModule c linked strings)
    (found : linked.functions.get? f.name = some f') (down : P.ComesDownTo host c f f' s m h xs q)
    (runs : (P.track host h linked strings f' s).Runs q xs M out) :
    P.outcome host f' s m h = .limit ∨ (P.outcome host f' s m h).Reflects m.operands h out (M m) := by
  rcases down with limit | ⟨ip, n, low, contains, outcome⟩
  · exact .inl limit
  rw [outcome]
  exact outcome_of_runs low (contains.stands link.literals link.finds found) rfl runs

end FramePlace.ComesDownTo

/-! ## Expressions that only read -/

/-- Neither an assignment nor a step nor a call. -/
def Typed.Expr.isReading : Expr → Bool
  | .assign .. | .call .. | .invalid _ => false
  | .unary _ op _ =>
    match op with
    | .preInc | .preDec | .postInc | .postDec => false
    | _ => true
  | _ => true

namespace Eval

variable {α β : Type} {s : Scene} {P : Machine → Prop} {M : Eval α} {X Y : Eval Value}

theorem preserves_meaningless : Preserves P (meaningless : Eval α) := .throw _

theorem preserves_ofExcept (x : Except Fault α) : Preserves P (ofExcept x) := by
  cases x with
  | ok a => exact .pure a
  | error f => exact .throw _

theorem preserves_value {x : Eval (Option Value)} (hx : Preserves P x) : Preserves P (value x) := by
  refine .bind hx fun r => ?_
  cases r with
  | none => exact preserves_meaningless
  | some v => exact .pure v

theorem preserves_known {ty : Ty} (hM : Preserves P M) : Preserves P (known ty M) := .ite preserves_meaningless hM

theorem preserves_counted {slots : Nat} (hM : Preserves P M) : Preserves P (counted slots M) := .ite hM preserves_meaningless

theorem preserves_content (ty : Ty) (p : Value) : Preserves P (content ty p) := by
  refine .ite (.pure p) ?_
  split
  · exact .get fun m => .bind (preserves_ofExcept _) fun _ => .pure _
  · exact preserves_meaningless

theorem preserves_variableAddress (binding : Binding) : Preserves P (variableAddress s binding) := by
  cases binding with
  | «local» slot => exact .pure _
  | global name =>
    show Preserves P (objectAddress s name)
    unfold objectAddress
    split
    · exact .pure _
    · unfold currentAddress
      refine .get fun m => ?_
      split
      · exact .pure _
      · exact .throw _
  | _ => exact preserves_meaningless

theorem preserves_apply (op : BinaryOp) (ty a b : Ty) (u v : Value) : Preserves P (apply op ty a b u v) := by
  unfold apply
  split
  · exact preserves_ofExcept _
  · exact preserves_meaningless

theorem preserves_unary (op : Code.UnaryOp) (ty : Ty) (v : Value) : Preserves P (unary op ty v) := by
  unfold unary
  dsimp only
  split
  · exact preserves_ofExcept _
  · exact preserves_meaningless

theorem preserves_member (record : Option Ty) (field : String) (p : Value) : Preserves P (member s record field p) := by
  unfold member
  split
  · split
    · exact .pure _
    · exact preserves_meaningless
  · exact preserves_meaningless

/-- Two operands, one behind the other. -/
theorem preserves_both {f : Value → Value → Eval β} (hX : Preserves P X) (hY : Preserves P Y)
    (hf : ∀ u v, Preserves P (f u v)) : Preserves P (do
      let u ← X
      let v ← Y
      f u v) := .bind hX fun u => .bind hY fun v => hf u v

theorem preserves_logical (op : BinaryOp) (hX : Preserves P X) (hY : Preserves P Y) : Preserves P (logical op X Y) :=
  .bind hX fun _ => .ite (.pure _) (.bind hY fun _ => .pure _)

theorem preserves_binary (op : BinaryOp) (a b : Ty) (hX : Preserves P X) (hY : Preserves P Y) :
    Preserves P (binary s op a b X Y) := by
  have arithmetic : Preserves P (do
      let u ← X
      let v ← Y
      apply op (commonType op a b) a b u v) := preserves_both hX hY fun u v => preserves_apply _ _ _ _ _ _
  have moved {X Y : Eval Value} (hX : Preserves P X) (hY : Preserves P Y) (by_ : Value → Int64) : Preserves P (do
      let p ← X
      let n ← Y
      return moved p (by_ n)) := preserves_both hX hY fun _ _ => .pure _
  unfold binary
  cases op with
  | add => exact .ite (moved hX hY _) (.ite (moved hY hX _) arithmetic)
  | sub => exact .ite (moved hX hY _) (.ite (preserves_counted (preserves_both hX hY fun _ _ => .pure _)) arithmetic)
  | _ => exact arithmetic

theorem preserves_element (elem a b : Ty) (hX : Preserves P X) (hY : Preserves P Y) : Preserves P (element s elem a b X Y) :=
  .ite (preserves_both hX hY fun _ _ => .pure _) (preserves_both hY hX fun _ _ => .pure _)

theorem preserves_branch (target ty : Ty) {x : Eval (Option Value)} (hx : Preserves P x) : Preserves P (branch target ty x) :=
  .ite (.bind hx fun _ => .pure _) (.bind (preserves_value hx) fun _ => .pure _)

end Eval

/-- What only reads leaves the memory as it is. -/
structure Typed.Expr.Reads (s : Scene) (P : Machine → Prop) (e : Expr) : Prop where
  run : Preserves P (Eval.run s e)
  place : Preserves P (Eval.place s e)

theorem Typed.Expr.reads {s : Scene} {P : Machine → Prop} {e : Expr} (reading : e.each Expr.isReading) : e.Reads s P := by
  have both {p q : Bool} (h : (p && q) = true) : p = true ∧ q = true := (Bool.and_eq_true _ _).mp h
  have some {X : Eval Value} (hX : Preserves P X) : Preserves P (do return Option.some (← X)) := .bind hX fun _ => .pure _
  have here {e : Expr} (h : e.each Expr.isReading) : e.isReading := Expr.each_here h
  induction e using Expr.rec (motive_2 := fun _ => True) with
  | int | float | char | bool | null | sizeofType | sizeofExpr =>
    exact ⟨Eval.preserves_known (.pure _), Eval.preserves_meaningless⟩
  | str i text => exact ⟨Eval.preserves_known (.pure _), .pure _⟩
  | ident i name binding =>
    refine ⟨?_, Eval.preserves_variableAddress binding⟩
    cases binding with
    | enumConst v => exact Eval.preserves_known (.pure _)
    | _ => exact Eval.preserves_known (.bind (Eval.preserves_variableAddress _) fun p => some (Eval.preserves_content _ p))
  | unary i op x ih =>
    have hx := ih (both reading).2
    have value := Eval.preserves_value hx.run
    refine ⟨Eval.preserves_known ?_, ?_⟩
    · cases op with
      | preInc | preDec | postInc | postDec => cases here reading
      | plus | not => exact .bind value fun _ => .pure _
      | neg | bitNot => exact .bind value fun _ => some (Eval.preserves_unary _ _ _)
      | deref => exact .bind value fun _ => some (Eval.preserves_content _ _)
      | addrOf => exact some hx.place
    · cases op with
      | deref => exact value
      | _ => exact Eval.preserves_meaningless
  | binary i op x y ihx ihy =>
    obtain ⟨rx, ry⟩ := both (both reading).2
    have hx := Eval.preserves_value (ihx rx).run
    have hy := Eval.preserves_value (ihy ry).run
    exact ⟨Eval.preserves_known (.ite (some (Eval.preserves_logical op hx hy)) (some (Eval.preserves_binary op _ _ hx hy))),
      Eval.preserves_meaningless⟩
  | assign | call | invalid => cases here reading
  | conditional i c x y ihc ihx ihy =>
    obtain ⟨rcx, ry⟩ := both (both reading).2
    obtain ⟨rc, rx⟩ := both rcx
    refine ⟨Eval.preserves_known (.bind (Eval.preserves_value (ihc rc).run) fun v => ?_), Eval.preserves_meaningless⟩
    exact .ite (Eval.preserves_branch _ _ (ihx rx).run) (Eval.preserves_branch _ _ (ihy ry).run)
  | index i x y ihx ihy =>
    obtain ⟨rx, ry⟩ := both (both reading).2
    have hx := Eval.preserves_value (ihx rx).run
    have hy := Eval.preserves_value (ihy ry).run
    have element {s : Scene} := Eval.preserves_element (s := s) i.ty x.ty y.ty hx hy
    exact ⟨Eval.preserves_known (.bind element fun p => some (Eval.preserves_content _ p)), element⟩
  | member i x field arrow ih =>
    have hx := ih (both reading).2
    have base : Preserves P (if arrow then Eval.value (Eval.run s x) else Eval.place s x) :=
      .ite (Eval.preserves_value hx.run) hx.place
    cases arrow with
    | true | false =>
      have place {record : Option Ty} (p : Value) := Eval.preserves_member (P := P) (s := s) record field p
      exact ⟨Eval.preserves_known (.bind base fun p => .bind (place p) fun q => some (Eval.preserves_content _ q)),
        .bind base fun p => place p⟩
  | cast i target x ih =>
    exact ⟨Eval.preserves_known (Eval.preserves_branch _ _ (ih (both reading).2).run), Eval.preserves_meaningless⟩
  | comma i x y ihx ihy =>
    obtain ⟨rx, ry⟩ := both (both reading).2
    exact ⟨Eval.preserves_known (.bind (ihx rx).run fun _ => (ihy ry).run), Eval.preserves_meaningless⟩
  | nil => trivial
  | cons => trivial

/-- An object that is only read has its place without side effects. -/
theorem sideEffectFree_of_reading {η : Type} {P : FramePlace} {host : Option (Host η)} {c : CodeModule} {a : Analysis}
    {linked m : Machine} {h : η} {strings : Array UInt64} {x : Expr} (link : LinkedModule c linked strings)
    (accepted : x.Accepted a) (noFallback : a.fallback = none) (integral : x.each (Expr.isIntegral a.types))
    (filled : x.filled) (object : x.isLvalue) (reading : x.each Expr.isReading) :
    ∃ r, SideEffectFree P host c a linked m h x r := by
  let scene : Scene := ⟨a.types, P.base, linked⟩
  have meant := (accepted.meant (s := scene) noFallback rfl integral filled).place object
  have kept := (Expr.reads (s := scene) (P := (· = m)) reading).place m rfl
  have comes (f f' : CodeFunction) (s : Segment) (os : List Value) (n : Nat) (contains : c.Contains (lvalue a x.unplaced) f s)
      (found : linked.functions.get? f.name = some f') :
      let o := P.outcome host f' s { m with operands := os, instructionCount := n } h
      o = .limit ∨ o.Reflects os h (fun v => [v]) (Eval.place scene x m) := by
    have stands : (P.track host h linked strings f' s).Stands (lvalue a x) f' s :=
      (contains.sameCode (sameCode_lvalue x).symm).stands link.literals link.finds found
    dsimp only
    rw [FramePlace.outcome_eq]
    exact FramePlace.outcome_of_runs (Nat.le_refl _) stands rfl (Expr.Accepted.computes accepted noFallback integral).place
  cases result : Eval.place scene x m with
  | ok v m' =>
    rw [result] at kept comes
    obtain rfl : m' = m := kept
    exact ⟨.ok v, comes⟩
  | error e m' =>
    rw [result] at kept comes
    obtain rfl : m' = m := kept
    cases e with
    | meaningless => exact absurd rfl (meant _ _ _ result)
    | fault e => exact ⟨.error { fault := e }, comes⟩

end IncrementalC
