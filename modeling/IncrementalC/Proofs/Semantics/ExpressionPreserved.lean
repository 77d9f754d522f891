import IncrementalC.Proofs.Analysis.Reached
import IncrementalC.Proofs.Machine.Placement
import IncrementalC.Proofs.Semantics.ControlPreserved
import IncrementalC.Proofs.Semantics.Meaningful

/-!
# Lowering keeps the meaning of expressions

The code of an accepted expression without calls and floating numbers computes what the expression is worth,
and the code of its address computes its place (`Expr.Accepted.computed`).
-/
namespace IncrementalC
set_option autoImplicit false
open Lowering Analyze Structured
open Typed (Expr Info Binding)

namespace Track

variable {η : Type} {σ : Track η} {a : Analysis}

/-- The code of the expression computes its value, and the code of its address its place. -/
structure Computes (σ : Track η) (a : Analysis) (e : Expr) : Prop where
  value : σ.Runs (rvalue a e) [] (Eval.run (σ.scene a.types) e) Option.toList
  place : σ.Runs (lvalue a e) [] (Eval.place (σ.scene a.types) e) fun v => [v]

theorem Computes.operand {e : Expr} (h : σ.Computes a e) (meets : e.Meets (σ.scene a.types)) :
    σ.Operand (rvalue a e) e.ty (Eval.value (Eval.run (σ.scene a.types) e)) :=
  ⟨h.value.value, keeps_rvalue e, meets.value⟩

theorem Operand.decayed {p : Piece} {ty : Ty} {X : Eval Value} (h : σ.Operand p ty X) : σ.Operand p ty.decay X := by
  refine ⟨h.runs, h.keeps, fun m v m' given k known => h.suits m v m' given k ?_⟩
  rwa [Ty.decay_decay] at known

/-- A computation that always has a value. -/
theorem Runs.some {p : Piece} {xs : List Value} {M : Eval Value} (h : σ.Runs p xs M fun v => [v]) :
    σ.Runs p xs (do return Option.some (← M)) Option.toList := .map h

/-! ## Expressions -/

theorem runs_pushed {i : Instr} {v : Value} {ty : Ty} (acts : σ.Acts i [] (pure ()) fun _ => [v])
    (patched : σ.Patched i i) : σ.Runs (.code [i]) [] (Eval.known ty (return some v)) Option.toList :=
  .known fun _ => Runs.some (Turns.result (.single acts patched))

section Nodes

variable {i : Info} {c x y : Expr}

theorem computes_ident {name : String} {binding : Binding} : σ.Computes a (.ident i name binding) := by
  refine ⟨?_, runs_variableAddress binding _ _⟩
  have read : σ.Runs (variableAddress binding (.unresolvedName name) i.span ++ load a.types i.ty i.span) []
      (do return some (← Eval.content i.ty (← Eval.variableAddress (σ.scene a.types) binding))) Option.toList :=
    (runs_variableAddress binding _ _).append (keeps_load _ _) fun p _ _ _ => .some (runs_load i.ty i.span p)
  cases binding with
  | enumConst v => exact runs_pushed (acts_pushInt v) rfl
  | _ => exact .known fun _ => read

theorem computes_index (hx : σ.Operand (rvalue a x) x.ty (Eval.value (Eval.run (σ.scene a.types) x)))
    (hy : σ.Operand (rvalue a y) y.ty (Eval.value (Eval.run (σ.scene a.types) y))) : σ.Computes a (.index i x y) := by
  have element := runs_element (T := a.types) i.ty hx hy
  refine ⟨?_, ?_⟩
  · exact .known fun _ => element.append (keeps_load _ _) fun p _ _ _ => .some (runs_load i.ty i.span p)
  · exact element

theorem computes_member {field : String} {arrow : Bool} (hx : σ.Computes a x) :
    σ.Computes a (.member i x field arrow) := by
  cases arrow with
  | true =>
    have member := hx.value.value.append (keeps_fieldOffset x.ty.decay.pointee? field i.span)
      fun p _ _ _ => runs_fieldOffset (T := a.types) x.ty.decay.pointee? field i.span p
    refine ⟨?_, ?_⟩
    · refine .known fun _ => ?_
      have read := member.append (keeps_load i.ty i.span) fun p _ _ _ => .some (runs_load (T := a.types) i.ty i.span p)
      rwa [bind_assoc] at read
    · exact member
  | false =>
    have member := hx.place.append (keeps_fieldOffset (some x.ty) field i.span)
      fun p _ _ _ => runs_fieldOffset (T := a.types) (some x.ty) field i.span p
    refine ⟨?_, ?_⟩
    · refine .known fun _ => ?_
      have read := member.append (keeps_load i.ty i.span) fun p _ _ _ => .some (runs_load (T := a.types) i.ty i.span p)
      rwa [bind_assoc] at read
    · exact member

theorem runs_branches {target : Ty} (hx : σ.Computes a x) (meets : x.Meets (σ.scene a.types)) :
    σ.Runs (rvalue.branch target x.ty (rvalue a x)) [] (Eval.branch target x.ty (Eval.run (σ.scene a.types) x))
      Option.toList :=
  runs_branch hx.value (fun m r m' given => (meets.run m r m' given).valued)
    fun m v m' given => (meets.run m _ m' given).suits v rfl

theorem computes_assign {op : Option BinaryOp} (accepted : (Expr.assign i op x y).Accepted a)
    (notFloating : x.ty.isFloating = false ∧ y.ty.isFloating = false) (hx : σ.Computes a x)
    (hy : σ.Operand (rvalue a y) y.ty (Eval.value (Eval.run (σ.scene a.types) y))) :
    σ.Computes a (.assign i op x y) := by
  refine ⟨?_, .fail _ _⟩
  cases op with
  | none =>
    exact .known fun _ => .some (runs_assign hx.place hy i.span)
  | some op =>
    refine .known fun _ => ?_
    have common := Ty.not_isFloating_operationType op notFloating.1 (Ty.not_isFloating_decay notFloating.2)
    exact .some (runs_compound hx.place hy.decayed (accepted.1 op rfl)
      (fun _ => Ty.isFloat_of_isFloating notFloating.1) (fun _ => Ty.isFloat_of_isFloating common) i.span)

theorem computes_conditional (hc : σ.Operand (rvalue a c) c.ty (Eval.value (Eval.run (σ.scene a.types) c)))
    (hx : σ.Computes a x) (hy : σ.Computes a y) (rx : x.Meets (σ.scene a.types)) (ry : y.Meets (σ.scene a.types)) :
    σ.Computes a (.conditional i c x y) := by
  have branch (ty : Ty) {p : Piece} (hp : p.Keeps) : (rvalue.branch i.ty ty p).Keeps :=
    .ite (keeps_discard _ hp) (hp.append (.code _))
  refine ⟨?_, .fail _ _⟩
  exact .known fun _ => runs_conditional hc.runs (runs_branches hx rx) (runs_branches hy ry)
    (branch _ (keeps_rvalue x)) (branch _ (keeps_rvalue y))

variable (noFallback : a.fallback = none)
include noFallback

theorem computes_unary {op : UnaryOp} (accepted : (Expr.unary i op x).Accepted a) (hx : σ.Computes a x)
    (meets : x.Meets (σ.scene a.types)) : σ.Computes a (.unary i op x) := by
  have operand := hx.operand meets
  obtain ⟨⟨d, -, -, run⟩, ax⟩ := accepted
  have rule := unaryType_accepts (ax.definite noFallback).not_isDependent run
  refine ⟨?_, ?_⟩
  · cases op with
    | plus =>
      have runs := (runs_plus (T := a.types) (i := i) operand).some
      simp only [bind_assoc, pure_bind] at runs
      rw [Eval.run, ← show i.ty = x.ty.decay.promote from rule.2]
      exact .known fun _ => runs
    | neg =>
      have runs := (runs_promoted (T := a.types) operand rule.2 (.inl ⟨rfl, rfl⟩)).some
      simp only [bind_assoc] at runs
      exact .known fun _ => runs
    | bitNot =>
      have runs := (runs_promoted (T := a.types) operand rule.2 (.inr ⟨rfl, rfl⟩)).some
      simp only [bind_assoc] at runs
      exact .known fun _ => runs
    | not =>
      have runs := (runs_not (T := a.types) (i := i) operand).some
      simp only [bind_assoc, pure_bind] at runs
      exact .known fun _ => runs
    | deref =>
      exact .known fun _ => operand.runs.append (keeps_load _ _) fun p _ _ _ => .some (runs_load i.ty i.span p)
    | addrOf =>
      exact .known fun _ => .some hx.place
    | preInc | preDec | postInc | postDec =>
      exact .known fun _ => .some (runs_increment hx.place _ _ _)
  · cases op with
    | deref =>
      exact operand.runs
    | _ => exact .fail _ _

theorem computes_binary {op : BinaryOp} (accepted : (Expr.binary i op x y).Accepted a)
    (hx : σ.Operand (rvalue a x) x.ty (Eval.value (Eval.run (σ.scene a.types) x)))
    (hy : σ.Operand (rvalue a y) y.ty (Eval.value (Eval.run (σ.scene a.types) y))) :
    σ.Computes a (.binary i op x y) := by
  obtain ⟨⟨d, -, -, run⟩, ax, ay⟩ := accepted
  have rule := binaryType_accepts (ax.definite noFallback).not_isDependent (ay.definite noFallback).not_isDependent
    ax.null ay.null run
  refine ⟨?_, .fail _ _⟩
  refine .known fun _ => ?_
  by_cases logical : op.isLogical
  · rw [if_pos logical]
    have runs := (runs_logical logical hx hy).some
    unfold rvalue Lowering.binary
    rwa [if_pos logical]
  · rw [if_neg logical]
    exact .some (runs_binary hx.decayed hy.decayed (Bool.eq_false_iff.mpr logical) rule)

end Nodes

end Track

/-- The code of an accepted expression without calls and floating numbers computes what the expression says. -/
theorem Typed.Expr.Accepted.computes {η : Type} {σ : Track η} {a : Analysis} {e : Expr} (accepted : e.Accepted a)
    (noFallback : a.fallback = none) (integral : e.each (Expr.isIntegral a.types)) : σ.Computes a e := by
  have both {p q : Bool} (h : (p && q) = true) : p = true ∧ q = true := (Bool.and_eq_true _ _).mp h
  have meets {e : Expr} (accepted : e.Accepted a) (integral : e.each (Expr.isIntegral a.types)) :
      e.Meets (σ.scene a.types) := accepted.results noFallback integral
  have operand {e : Expr} (accepted : e.Accepted a) (integral : e.each (Expr.isIntegral a.types))
      (h : σ.Computes a e) : σ.Operand (rvalue a e) e.ty (Eval.value (Eval.run (σ.scene a.types) e)) :=
    h.operand (meets accepted integral)
  have notFloating {e : Expr} (integral : e.each (Expr.isIntegral a.types)) : e.ty.isFloating = false :=
    Expr.isFloating_of_isIntegral (Expr.each_here integral)
  induction e using Expr.rec (motive_2 := fun _ => True) with
  | int i v suffix =>
    obtain ⟨k, known, -, fits⟩ := Typed.wrap_intLiteral v suffix
    have kind : kindOf? i.ty = some k := accepted.2 ▸ known
    refine ⟨?_, .fail _ _⟩
    unfold rvalue
    rw [kind, Option.getD_some, fits]
    exact Track.runs_pushed (Track.acts_pushInt _) rfl
  | float i v single =>
    have integral : i.ty.isFloating = false := notFloating integral
    rw [show i.ty = _ from accepted] at integral
    cases single <;> cases integral
  | char i c => exact ⟨Track.runs_pushed (Track.acts_pushInt _) rfl, .fail _ _⟩
  | bool i b => exact ⟨Track.runs_pushed (Track.acts_pushInt _) rfl, .fail _ _⟩
  | null i => exact ⟨Track.runs_pushed (Track.acts_pushPtr _) rfl, .fail _ _⟩
  | sizeofType i target => exact ⟨Track.runs_pushed (Track.acts_pushInt _) rfl, .fail _ _⟩
  | sizeofExpr i x ih => exact ⟨Track.runs_pushed (Track.acts_pushInt _) rfl, .fail _ _⟩
  | str i text => exact ⟨.known fun _ => .some (Track.runs_stringAddress text), Track.runs_stringAddress text⟩
  | ident i name binding => exact Track.computes_ident
  | unary i op x ih =>
    have hx := (both integral).2
    exact Track.computes_unary noFallback accepted (ih accepted.2 hx) (meets accepted.2 hx)
  | binary i op x y ihx ihy =>
    obtain ⟨hx, hy⟩ := both (both integral).2
    exact Track.computes_binary noFallback accepted (operand accepted.2.1 hx (ihx accepted.2.1 hx))
      (operand accepted.2.2 hy (ihy accepted.2.2 hy))
  | assign i op x y ihx ihy =>
    obtain ⟨hx, hy⟩ := both (both integral).2
    obtain ⟨-, -, ax, ay⟩ := id accepted
    exact Track.computes_assign accepted ⟨notFloating hx, notFloating hy⟩ (ihx ax hx) (operand ay hy (ihy ay hy))
  | conditional i c x y ihc ihx ihy =>
    obtain ⟨hcx, hy⟩ := both (both integral).2
    obtain ⟨hc, hx⟩ := both hcx
    obtain ⟨-, ac, ax, ay⟩ := id accepted
    exact Track.computes_conditional (operand ac hc (ihc ac hc)) (ihx ax hx) (ihy ay hy) (meets ax hx) (meets ay hy)
  | call i name target args => exact absurd (Expr.each_here integral) nofun
  | index i x y ihx ihy =>
    obtain ⟨hx, hy⟩ := both (both integral).2
    exact Track.computes_index (operand accepted.2.1 hx (ihx accepted.2.1 hx))
      (operand accepted.2.2 hy (ihy accepted.2.2 hy))
  | member i x field arrow ih => exact Track.computes_member (ih accepted.2.2 (both integral).2)
  | cast i target x ih =>
    have hx := (both integral).2
    obtain ⟨-, -, ax⟩ := id accepted
    refine ⟨?_, .fail _ _⟩
    exact .known fun _ => Track.runs_branches (ih ax hx) (meets ax hx)
  | comma i x y ihx ihy =>
    obtain ⟨hx, hy⟩ := both (both integral).2
    obtain ⟨-, ax, ay⟩ := id accepted
    have dropped := Track.runs_discard (ihx ax hx).value fun m r m' given => ((meets ax hx).run m r m' given).valued
    refine ⟨?_, .fail _ _⟩
    exact .known fun _ => dropped.append (keeps_rvalue y) fun _ _ _ _ => (ihy ay hy).value
  | invalid i => exact accepted.elim
  | nil => trivial
  | cons => trivial

/-- What the analysis makes of an expression without errors follows the rules, then and later. -/
theorem Analyze.accepted_expr {a₀ a b : Analysis} {e : Syntax.Expr} {t : Expr} (sound : a₀.Sound)
    (written : e.Written) (analyzed : (Analyze.expr e).run a₀ = (t, a)) (correct : a.errors = #[])
    (later : a.Extends b) : t.Accepted b := by
  have meets := (MeetsAt.expr (P := True) (a := a₀) written).meets trivial sound
  rw [analyzed] at meets
  exact (meets correct).2.mono later

/-! ## Linked code -/

/-- The function `f` of the module has the code of the expression in the stretch `s`, and the literals in it
have their numbers in the module. -/
structure CodeModule.Includes (c : CodeModule) (a : Analysis) (e : Expr) (f : CodeFunction) (s : Segment) :
    Prop where
  function : f ∈ c.functions
  code : ∃ g is g', rvalue a e s.first g = .ok (is, g') ∧ g'.KeepsStrings c ∧
    s.last = s.first + is.length ∧ Shows Eq f.code s.first is

/-- Linking fills in the addresses instruction by instruction. -/
theorem shows_patched {m : Machine} {strings : Array UInt64} {code code' : Array Instr} {start : Nat}
    {is : List Instr} (h : Shows Eq code start is) (patched : code.mapM (m.patch strings) = .ok code') :
    Shows (fun i i' => m.patch strings i = .ok i') code' start is := by
  have linked : Shows _ code' 0 code.toList := shows_linked (by rwa [Array.toArray_toList])
  intro k i found
  obtain ⟨j, there, rfl⟩ := h k i found
  have stood := linked (start + k) i (by rwa [Array.getElem?_toList])
  rwa [Nat.zero_add] at stood

/-- Running the stretch `c` of the function `f` comes to what a computation on the memory comes to: its result
above the operands, with the memory that it leaves, or its fault, with the memory at that point. The
instructions may run out before. -/
def Evaluates {η : Type} (host : Option (Host η)) (l : List Frame) (f : Frame) (c : Segment) (w : World η)
    (r : EStateM.Result Abort Machine (Option Value)) : Prop :=
  let limit := w.machine.maxInstructions
  let count := w.machine.instructionCount + (c.last - c.first)
  let run := Exec.evaluateCode (Exec.templates host) l.length c w
  (match r with
    | .ok v m => ∃ k, k ≤ count ∧ run = .ok () ⟨{ m with
        frames := (l ++ [{ f with ip := c.last }]).toArray
        operands := v.toList ++ w.machine.operands
        instructionCount := k }, w.host⟩
    | .error (.fault e) m => ∃ w', run = .error { fault := e } w' ∧ w'.machine.globals = m.globals ∧
        w'.machine.stack = m.stack
    | .error .meaningless _ => True) ∨
  limit < count ∧ ∃ w', run = .error { fault := .instructionLimit limit } w'

theorem evaluates_of_ends {η : Type} {host : Option (Host η)} {σ : Track η} {w : World η}
    {r : EStateM.Result Abort Machine (Option Value)} (evaluate : σ.evaluate = Exec.templates host)
    (stands : Stands σ.below σ.frame σ.stretch.first w)
    (ends : σ.Ends w w.machine w.machine.operands σ.stretch.last
      (w.machine.instructionCount + (σ.stretch.last - σ.stretch.first)) Option.toList r) (own : w.host = σ.host) :
    Evaluates host σ.below σ.frame σ.stretch w r := by
  have steady : ∀ args, Exec.Steady (σ.evaluate args) := by
    rw [evaluate]
    exact Exec.steady_templates host
  have start : Exec.evaluateCode (Exec.templates host) σ.below.length σ.stretch w =
      Exec.runWhile σ.evaluate (σ.stretch.holds σ.below.length) w := by
    unfold Exec.evaluateCode
    rw [goto_self stands, evaluate]
  have exhausted (h : σ.Exhausted w w.machine.maxInstructions
      (w.machine.instructionCount + (σ.stretch.last - σ.stretch.first))) :
      w.machine.maxInstructions < w.machine.instructionCount + (σ.stretch.last - σ.stretch.first) ∧
        ∃ w', Exec.evaluateCode (Exec.templates host) σ.below.length σ.stretch w =
          .error { fault := .instructionLimit w.machine.maxInstructions } w' := by
    obtain ⟨less, w', fails⟩ := h
    exact ⟨less, w', start.trans (fails.runWhile steady)⟩
  unfold Evaluates
  dsimp only
  cases r with
  | ok v m =>
    refine ends.2.imp (fun ⟨k, le, leads⟩ => ⟨k, le, ?_⟩) exhausted
    rw [own]
    refine start.trans (leads.runWhile steady (Bool.eq_false_iff.mpr fun holds => ?_))
    exact Nat.lt_irrefl _ ((Track.holds_at _ _ _ _).mp holds).2
  | error e m =>
    cases e with
    | meaningless => exact .inl trivial
    | fault e => exact ends.imp (fun ⟨w', fails, memory⟩ => ⟨w', start.trans (fails.runWhile steady), memory⟩) exhausted

/-- As `Includes`, for any piece of code. -/
structure CodeModule.Contains (c : CodeModule) (p : Piece) (f : CodeFunction) (s : Segment) : Prop where
  function : f ∈ c.functions
  code : ∃ g is g', p s.first g = .ok (is, g') ∧ g'.KeepsStrings c ∧
    s.last = s.first + is.length ∧ Shows Eq f.code s.first is

/-- Wherever the code of a piece stands in a module that is linked, it does what lowering shows about it. -/
theorem CodeModule.Contains.evaluates {p : Piece} {c : CodeModule} {f : CodeFunction} {s : Segment}
    (lowered : c.Contains p f s) (distinct : (c.functions.toList.map (·.name)).Nodup) {m m' : Machine}
    {names : List String} (linked : Machine.link c m = .ok names m') :
    ∃ f', m'.functions.get? f.name = some f' ∧
      ∀ (η : Type) (host : Option (Host η)) (w : World η) (l : List Frame) (frame : Frame),
        frame.function = f' → Stands l frame s.first w →
          ∃ σ : Track η, σ.frame = frame ∧ σ.linked = m' ∧
            (∃ start g is g', p start g = .ok (is, g') ∧ σ.Knows g') ∧
            ∀ M, σ.Runs p [] M Option.toList → Evaluates host l frame s w (M w.machine) := by
  obtain ⟨function, g, is, g', run, keeps, last, shows_⟩ := lowered
  obtain ⟨strings, literals, finds⟩ := Machine.link_code linked distinct
  obtain ⟨code, patched, found⟩ := finds f function
  refine ⟨_, found, fun η host w l frame isFunction stands => ?_⟩
  let σ : Track η := ⟨Exec.templates host, l, frame, s, w.host, m', strings⟩
  have knows : σ.Knows g' := fun k text known => literals k text (keeps k text known)
  refine ⟨σ, rfl, rfl, ⟨_, g, is, g', run, knows⟩, fun M runs => ?_⟩
  have there : Shows σ.Patched σ.frame.function.code s.first is := by
    show Shows _ frame.function.code _ _
    rw [isFunction]
    exact shows_patched shows_ patched
  have here : σ.at_ w.machine w.machine.operands w.machine.instructionCount s.first = w := by
    have frames : (l ++ [{ frame with ip := s.first }]).toArray = w.machine.frames :=
      Array.toList_inj.mp stands.symm
    show (⟨{ w.machine with frames := (l ++ [{ frame with ip := s.first }]).toArray }, w.host⟩ : World η) = w
    rw [frames]
  have length : s.last - s.first = is.length := by omega
  have ends := runs s.first g is g' run knows there (Nat.le_refl _) (Nat.le_of_eq last.symm) w.machine
    w.machine.operands w.machine.instructionCount
  rw [List.nil_append, here, ← last, ← length] at ends
  exact evaluates_of_ends rfl stands ends rfl

theorem CodeModule.Includes.evaluates {a : Analysis} {e : Expr} {c : CodeModule} {f : CodeFunction} {s : Segment}
    (lowered : c.Includes a e f s) (distinct : (c.functions.toList.map (·.name)).Nodup) {m m' : Machine}
    {names : List String} (linked : Machine.link c m = .ok names m') :
    ∃ f', m'.functions.get? f.name = some f' ∧
      ∀ (η : Type) (host : Option (Host η)) (w : World η) (l : List Frame) (frame : Frame),
        frame.function = f' → Stands l frame s.first w →
          ∃ σ : Track η, σ.frame = frame ∧ σ.linked = m' ∧
            ∀ M, σ.Runs (rvalue a e) [] M Option.toList → Evaluates host l frame s w (M w.machine) := by
  have contains : c.Contains (rvalue a e) f s := ⟨lowered.function, lowered.code⟩
  obtain ⟨f', found, evaluates⟩ := contains.evaluates distinct linked
  refine ⟨f', found, fun η host w l frame isFunction stands => ?_⟩
  obtain ⟨σ, isFrame, isLinked, -, comes⟩ := evaluates η host w l frame isFunction stands
  exact ⟨σ, isFrame, isLinked, comes⟩

/-- Lowering keeps the meaning of an expression without calls and floating numbers. It is analysed without
errors and with no handler, and lowered in the state `b` that the analysis gets to afterwards. Wherever its
code stands in a module, once that is linked, on any memory, the code does what the evaluation of the tree
does; the tree has a meaning if a value stands wherever one is taken. -/
theorem expression_preserved {a₀ a b : Analysis} {e : Syntax.Expr} {t : Expr} (sound : a₀.Sound)
    (written : e.Written) (analyzed : (Analyze.expr e).run a₀ = (t, a)) (correct : a.errors = #[])
    (noHandler : a₀.fallback = none) (later : a.Extends b) (integral : t.each (Expr.isIntegral b.types))
    {c : CodeModule} {f : CodeFunction} {s : Segment} (lowered : c.Includes b t f s)
    (distinct : (c.functions.toList.map (·.name)).Nodup) {m m' : Machine} {names : List String}
    (linked : Machine.link c m = .ok names m') :
    ∃ f', m'.functions.get? f.name = some f' ∧
      ∀ (η : Type) (host : Option (Host η)) (w : World η) (l : List Frame) (frame : Frame),
        frame.function = f' → Stands l frame s.first w →
          Evaluates host l frame s w (Eval.run ⟨b.types, frame.base, m'⟩ t w.machine) ∧
          (t.filled → ∀ m'', Eval.run ⟨b.types, frame.base, m'⟩ t w.machine ≠ .error .meaningless m'') := by
  have accepted : t.Accepted b := Analyze.accepted_expr sound written analyzed correct later
  have noFallback : b.fallback = none := by
    have kept := (MeetsAt.expr (P := True) (a := a₀) written).grows.fallback
    rw [analyzed] at kept
    rw [later.fallback, kept, noHandler]
  obtain ⟨f', found, evaluates⟩ := lowered.evaluates distinct linked
  refine ⟨f', found, fun η host w l frame isFunction stands => ⟨?_, fun filled => ?_⟩⟩
  · obtain ⟨σ, rfl, rfl, comes⟩ := evaluates η host w l frame isFunction stands
    exact comes _ (accepted.computes noFallback integral).value
  · exact fun m'' ran => (accepted.meant noFallback rfl integral filled).run _ _ _ ran rfl

/-- `x = x * 2 + 1` -/
def twiceAndOne : Syntax.Expr :=
  let here : Span := ⟨0, 0, 0, 1, 1⟩
  .assign here none (.ident here "x")
    (.binary here .add (.binary here .mul (.ident here "x") (.int here 2 .none)) (.int here 1 .none))

/-- A function with the instructions is added to the module. -/
def CodeModule.withCode (c : CodeModule) (is : List Instr) : CodeModule :=
  c.addFunction ⟨"f", [], none, 0, (is ++ [Instr.returnVoid]).toArray⟩

theorem CodeModule.Includes.withCode {a : Analysis} {t : Expr} {c c' : CodeModule} {is : List Instr}
    (code : rvalue a t 0 c = .ok (is, c')) :
    (c'.withCode is).Includes a t ⟨"f", [], none, 0, (is ++ [Instr.returnVoid]).toArray⟩ ⟨0, is.length⟩ :=
  ⟨Array.mem_push_self, c, is, c', code, fun _ _ known => known, (Nat.zero_add _).symm, (shows_self _).left⟩

/-- A function that an idle machine calls stands at its first instruction. -/
theorem stands_enter {m : Machine} (idle : m.frames = #[]) (f : CodeFunction) :
    Stands [] ⟨f, 0, m.stack.size, m.operands.length⟩ 0 (⟨m.enter f [], ()⟩ : World Unit) := by
  show (m.frames.push _).toList = _
  rw [idle]
  rfl

theorem twiceAndOne_written : twiceAndOne.Written := by
  have x : IsWord "x" := ⟨⟨'x', [], rfl, by decide, by decide⟩, by decide⟩
  have small : 1 < UInt64.size ∧ 2 < UInt64.size := by decide
  exact ⟨nofun, x, ⟨x, small.2⟩, small.1⟩

theorem twice_and_one_evaluates :
    ∃ (u : Syntax.TopLevel) (u' : Typed.TopLevel) (t : Expr) (a : Analysis) (c c' : CodeModule) (is : List Instr)
      (names : List String) (m m' : Machine) (f : CodeFunction),
      Syntax.groupOf? "int x = 5;" = some u ∧ (({} : Analysis).analyze u).1 = .ok u' ∧
      (Analyze.expr twiceAndOne).run (({} : Analysis).analyze u).2 = (t, a) ∧ lower a u' {} = .ok c ∧
      rvalue a t 0 c = .ok (is, c') ∧ Machine.link (c'.withCode is) {} = .ok names m ∧
      m.functions.get? "f" = some f ∧
      Eval.run ⟨a.types, m.stack.size, m⟩ t (m.enter f []) = .ok (some (.int 11)) m' ∧
      Evaluates none [] ⟨f, 0, m.stack.size, m.operands.length⟩ ⟨0, is.length⟩ (⟨m.enter f [], ()⟩ : World Unit)
        (.ok (some (.int 11)) m') := by
  have outcome : (do
      let u ← Syntax.groupOf? "int x = 5;"
      let u' ← (({} : Analysis).analyze u).1.toOption
      let analyzed ← some ((Analyze.expr twiceAndOne).run (({} : Analysis).analyze u).2)
      let c ← (lower analyzed.2 u' {}).toOption
      let code ← (rvalue analyzed.2 analyzed.1 0 c).toOption
      let linked ← given? (Machine.link (code.2.withCode code.1) {})
      let m := linked.2
      let f ← m.functions.get? "f"
      let evaluated ← given? (Eval.run ⟨analyzed.2.types, m.stack.size, m⟩ analyzed.1 (m.enter f []))
      return (analyzed.2.errors.isEmpty && analyzed.1.each (Expr.isIntegral analyzed.2.types) && m.frames.isEmpty &&
        decide ((code.2.withCode code.1).functions.toList.map (·.name)).Nodup, evaluated.1) : Option _) =
      some (true, some (.int 11)) := by
    decide +kernel
  simp only [Option.bind_eq_bind, Option.bind_eq_some_iff] at outcome
  obtain ⟨u, read, u', accepted, ⟨t, a⟩, analyzed, c, lowered, ⟨is, c'⟩, code, ⟨names, m⟩, linked, f, found,
    ⟨r, m'⟩, evaluated, outcome⟩ := outcome
  have linked := given?_eq_some linked
  have evaluated := given?_eq_some evaluated
  obtain ⟨checks, rfl⟩ := Prod.mk.inj (Option.some.inj outcome)
  simp only [Bool.and_eq_true, decide_eq_true_eq] at checks
  obtain ⟨⟨⟨correct, integral⟩, frames⟩, distinct⟩ := checks
  have correct : a.errors = #[] := Array.isEmpty_iff.mp correct
  have frames : m.frames = #[] := Array.isEmpty_iff.mp frames
  have accepted := Syntax.toOption_eq_some accepted
  have analyzed := Option.some.inj analyzed
  have code := Syntax.toOption_eq_some code
  have sound := (Analysis.Reached.start.accepted (Syntax.groupOf?_written read) accepted).sound
  have fallback : (({} : Analysis).analyze u).2.fallback = none :=
    (Analyze.Changes.extends (analyze_changes {} u)).fallback
  obtain ⟨f', known, evaluates⟩ := expression_preserved sound twiceAndOne_written analyzed correct fallback (.refl a)
    integral (.withCode code) distinct linked
  cases found.symm.trans known
  have runs := (evaluates Unit none _ [] _ rfl (stands_enter frames f)).1
  rw [evaluated] at runs
  exact ⟨u, u', t, a, c, c', is, names, m, m', f, read, accepted, analyzed, Syntax.toOption_eq_some lowered, code,
    linked, found, evaluated, runs⟩

end IncrementalC
