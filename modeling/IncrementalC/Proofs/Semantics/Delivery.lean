import IncrementalC.Proofs.Lowering.Compiled
import IncrementalC.Proofs.Semantics.ControlPreserved

/-!
# What a stretch of code leaves on the operand stack

`Brings evaluate l f c Q`: whenever the function `f` gets from the first instruction of the stretch `c` to its end,
the operand stack satisfies `Q` there. What runs before the last part does not matter (`Brings.behind`), so a
piece of code delivers what its last part does (`Delivers.behind`), and code with several ends what each of them
does. It may call functions in between.
-/
namespace IncrementalC
set_option autoImplicit false

/-- The operand of the instruction is an address, which linking fills in. -/
def Instr.isAddress : Instr → Bool
  | .pushStr _ | .globalAddr _ => true
  | _ => false

/-- Linking fills in addresses and leaves the other instructions as they are. -/
structure Links (R : Instr → Instr → Prop) : Prop where
  becomes : ∀ i i', R i i' → i.Becomes i'
  plain : ∀ i i', R i i' → i.isAddress = false → i' = i

theorem links_patch (m : Machine) (strings : Array UInt64) : Links fun i i' => m.patch strings i = .ok i' := by
  refine ⟨fun _ _ => becomes_of_patch, fun i i' patched notAddress => ?_⟩
  cases i with
  | pushStr _ | globalAddr _ => cases notAddress
  | _ =>
    cases patched
    rfl

namespace Structured
open Lowering

variable {η : Type} {evaluate : List Value → Exec η Value} {l : List Frame} {f : Frame} {c d : Segment}
  {w w' : World η} {Q : List Value → Prop}

/-! ## Runs of a stretch -/

theorem holds_of_stands {ip : Nat} (stands : Stands l f ip w) :
    c.holds l.length w.machine ↔ c.first ≤ ip ∧ ip < c.last := by
  rw [Exec.holds_iff stands]
  exact or_iff_right fun h => h rfl

section Runs

variable (steady : ∀ args, Exec.Steady (evaluate args)) {u : Unit}
include steady

theorem run_ends (stands : Stands l f c.last w)
    (run : Exec.runWhile evaluate (c.holds l.length) w = .ok u w') : w' = w := by
  have out : c.holds l.length w.machine = false := by
    refine Bool.eq_false_iff.mpr fun holds => ?_
    exact Nat.lt_irrefl _ ((holds_of_stands stands).mp holds).2
  rw [Exec.runWhile_stop steady Exec.holds_active out] at run
  cases run
  rfl

/-- A part of the stretch is run from its first instruction to its end. -/
theorem run_passes (inward : d.Inward f.function.code) (low : c.first ≤ d.first) (high : d.last ≤ c.last)
    (stands : Stands l f d.first w) (run : Exec.runWhile evaluate (c.holds l.length) w = .ok u w') :
    ∃ w₁, Exec.runWhile evaluate (d.holds l.length) w = .ok () w₁ ∧ Stands l f d.last w₁ ∧
      Exec.runWhile evaluate (c.holds l.length) w₁ = .ok u w' := by
  rw [Exec.runWhile_split steady Exec.holds_active (Exec.holds_mono low high)] at run
  obtain ⟨_, w₁, first, rest⟩ := Exec.bind_eq_ok run
  obtain ⟨there, -⟩ := Exec.runWhile_within steady inward stands ⟨Nat.le_refl _, inward.ordered⟩ first
  exact ⟨w₁, first, there, rest⟩

/-- One instruction of the stretch, which calls nothing. -/
theorem run_steps {i : Instr} {k : Nat} (found : f.function.code[k]? = some i) (goesOn : i.isReturn = false)
    (direct : ∀ name n, i ≠ .call name n) (low : c.first ≤ k) (high : k < c.last) (stands : Stands l f k w)
    (run : Exec.runWhile evaluate (c.holds l.length) w = .ok u w') :
    ∃ ip w₁, (ip = k + 1 ∨ i.target? = some ip) ∧ Stands l f ip w₁ ∧
      Exec.act evaluate f.function.ret f.base i (Exec.advanced w (k + 1)) = .ok () w₁ ∧
      Exec.runWhile evaluate (c.holds l.length) w₁ = .ok u w' := by
  have goes : c.holds l.length w.machine := (holds_of_stands stands).mpr ⟨low, high⟩
  have next : Exec.next evaluate w = _ := Exec.next_eq stands
  rw [Exec.step_eq (f := { f with ip := k }) found] at next
  cases ran : Exec.next evaluate w with
  | error e w₁ =>
    rw [Exec.runWhile_error steady Exec.holds_active goes ran] at run
    cases run
  | ok _ w₁ =>
    rw [Exec.runWhile_step steady Exec.holds_active goes ran] at run
    rw [ran] at next
    split at next
    · cases next
    have acted := Exec.acted steady (l := l) (f := { f with ip := k })
      (Machine.goto_frames (f := { f with ip := k }) stands (k + 1)) next.symm
    have frames := acted.frames
    generalize framed : w₁.machine.frames.toList = fs at frames
    cases frames with
    | stays ip after _ => exact ⟨ip, w₁, after, framed, next.symm, run⟩
    | calls name argc _ => exact absurd rfl (direct name argc)
    | leaves returns =>
      rw [goesOn] at returns
      cases returns

/-- A jump to the end of the stretch leaves the operands alone. -/
theorem run_leaves {k : Nat} (found : f.function.code[k]? = some (.jump c.last)) (low : c.first ≤ k)
    (high : k < c.last) (stands : Stands l f k w) (run : Exec.runWhile evaluate (c.holds l.length) w = .ok u w') :
    w'.machine.operands = w.machine.operands := by
  obtain ⟨ip, w₁, -, -, act, run⟩ := run_steps steady found rfl nofun low high stands run
  have jumped : w₁ = (Exec.advanced w (k + 1)).goto c.last := by
    cases act
    rfl
  have landed : Stands l f c.last w₁ := by
    rw [jumped]
    exact Machine.goto_frames (f := { f with ip := k + 1 }) (Machine.goto_frames (f := { f with ip := k }) stands (k + 1)) c.last
  cases run_ends steady landed run
  rw [jumped]
  rfl

end Runs

/-! ## Stretches -/

/-- If the function gets from the first instruction of the stretch to its end, the operand stack is in `Q`. -/
def Brings (evaluate : List Value → Exec η Value) (l : List Frame) (f : Frame) (c : Segment)
    (Q : List Value → Prop) : Prop :=
  ∀ (w : World η) u w', Stands l f c.first w → Exec.runWhile evaluate (c.holds l.length) w = .ok u w' →
    Q w'.machine.operands

namespace Brings

variable (steady : ∀ args, Exec.Steady (evaluate args)) {p q r k stop : Nat} {i : Instr}
include steady

/-- What the last part of a stretch leaves is what the stretch leaves. -/
theorem behind (first : Segment.Inward f.function.code ⟨p, q⟩) (second : Segment.Inward f.function.code ⟨q, r⟩)
    (h : Brings evaluate l f ⟨q, r⟩ Q) : Brings evaluate l f ⟨p, r⟩ Q := by
  intro w u w' stands run
  obtain ⟨w₁, -, there, run⟩ :=
    run_passes (c := ⟨p, r⟩) steady first (Nat.le_refl p) second.ordered stands run
  obtain ⟨w₂, part, stop, run⟩ :=
    run_passes (c := ⟨p, r⟩) steady second first.ordered (Nat.le_refl r) there run
  cases run_ends (c := ⟨p, r⟩) steady stop run
  exact h w₁ _ _ there part

theorem single (found : f.function.code[k]? = some i) (straight : i.isStraight)
    (acts : ∀ (w : World η) u w', Exec.act evaluate f.function.ret f.base i w = .ok u w' → Q w'.machine.operands) :
    Brings evaluate l f ⟨k, k + 1⟩ Q := by
  intro w u w' stands run
  have goesOn : i.isReturn = false := by
    cases i <;> first | rfl | cases straight
  have target : i.target? = none := by
    cases i <;> first | rfl | cases straight
  have direct (name : String) (n : Nat) : i ≠ .call name n := by
    rintro rfl
    cases straight
  obtain ⟨ip, w₁, next, there, act, run⟩ :=
    run_steps steady found goesOn direct (Nat.le_refl k) (Nat.lt_succ_self k) stands run
  obtain rfl : ip = k + 1 := next.resolve_right (by rw [target]; exact nofun)
  cases run_ends steady there run
  exact acts _ _ _ act

/-- The end is reached from each of the two branches. -/
theorem conditional (test : Segment.Inward f.function.code ⟨p, q⟩)
    (decides : f.function.code[q]? = some (.jumpIfFalse (r + 1)))
    (yes : Segment.Inward f.function.code ⟨q + 1, r⟩) (leaves : f.function.code[r]? = some (.jump stop))
    (no : Segment.Inward f.function.code ⟨r + 1, stop⟩) (brings : Brings evaluate l f ⟨q + 1, r⟩ Q)
    (brings' : Brings evaluate l f ⟨r + 1, stop⟩ Q) : Brings evaluate l f ⟨p, stop⟩ Q := by
  intro w u w' stands run
  have before : p ≤ q := test.ordered
  have between : q + 1 ≤ r := yes.ordered
  have behind : r + 1 ≤ stop := no.ordered
  obtain ⟨w₁, -, there, run⟩ :=
    run_passes (c := ⟨p, stop⟩) steady test (Nat.le_refl p) (show q ≤ stop by omega) stands run
  obtain ⟨ip, w₂, next, branch, -, run⟩ :=
    run_steps (c := ⟨p, stop⟩) steady decides rfl nofun before (show q < stop by omega) there run
  obtain rfl | taken := next
  · obtain ⟨w₃, part, last, run⟩ := run_passes (c := ⟨p, stop⟩) steady yes (show p ≤ q + 1 by omega)
      (show r ≤ stop by omega) branch run
    rw [run_leaves (c := ⟨p, stop⟩) steady leaves (show p ≤ r by omega) (show r < stop by omega) last run]
    exact brings w₂ _ _ branch part
  · cases taken
    obtain ⟨w₃, part, last, run⟩ :=
      run_passes (c := ⟨p, stop⟩) steady no (show p ≤ r + 1 by omega) (Nat.le_refl stop) branch run
    cases run_ends (c := ⟨p, stop⟩) steady last run
    exact brings' w₂ _ _ branch part

/-- A truth value is pushed at the end, whichever of the two tests decides. -/
theorem logical {v v' : Int64} (left : Segment.Inward f.function.code ⟨p, q⟩)
    (right : Segment.Inward f.function.code ⟨q + 1, r⟩) (test : i.isTest) (jumps : i.target? = some (r + 3))
    (first : f.function.code[q]? = some i) (second : f.function.code[r]? = some i)
    (pushes : f.function.code[r + 1]? = some (.pushInt v)) (leaves : f.function.code[r + 2]? = some (.jump (r + 4)))
    (short : f.function.code[r + 3]? = some (.pushInt v')) (h : ∀ os, Q (.int v :: os)) (h' : ∀ os, Q (.int v' :: os)) :
    Brings evaluate l f ⟨p, r + 4⟩ Q := by
  have before : p ≤ q := left.ordered
  have between : q + 1 ≤ r := right.ordered
  have goesOn : i.isReturn = false := by
    cases i <;> first | rfl | cases test
  have direct (name : String) (n : Nat) : i ≠ .call name n := by
    rintro rfl
    cases test
  have skipped {w w' : World η} {u : Unit} (stands : Stands l f (r + 3) w)
      (run : Exec.runWhile evaluate (Segment.holds ⟨p, r + 4⟩ l.length) w = .ok u w') : Q w'.machine.operands := by
    obtain ⟨ip, w₁, next, there, act, run⟩ := run_steps (c := ⟨p, r + 4⟩) steady short rfl nofun (show p ≤ r + 3 by omega)
      (show r + 3 < r + 4 by omega) stands run
    obtain rfl : ip = r + 4 := next.resolve_right nofun
    cases run_ends (c := ⟨p, r + 4⟩) steady there run
    cases act
    exact h' _
  intro w u w' stands run
  obtain ⟨w₁, -, there, run⟩ :=
    run_passes (c := ⟨p, r + 4⟩) steady left (Nat.le_refl p) (show q ≤ r + 4 by omega) stands run
  obtain ⟨ip, w₂, next, branch, -, run⟩ := run_steps (c := ⟨p, r + 4⟩) steady first goesOn direct before
    (show q < r + 4 by omega) there run
  rw [jumps] at next
  obtain rfl | taken := next
  rotate_left
  · cases taken
    exact skipped branch run
  obtain ⟨w₃, -, there, run⟩ := run_passes (c := ⟨p, r + 4⟩) steady right (show p ≤ q + 1 by omega)
    (show r ≤ r + 4 by omega) branch run
  obtain ⟨ip, w₄, next, branch, -, run⟩ := run_steps (c := ⟨p, r + 4⟩) steady second goesOn direct
    (show p ≤ r by omega) (show r < r + 4 by omega) there run
  rw [jumps] at next
  obtain rfl | taken := next
  rotate_left
  · cases taken
    exact skipped branch run
  obtain ⟨ip, w₅, next, there, act, run⟩ := run_steps (c := ⟨p, r + 4⟩) steady pushes rfl nofun
    (show p ≤ r + 1 by omega) (show r + 1 < r + 4 by omega) branch run
  obtain rfl : ip = r + 2 := next.resolve_right nofun
  rw [run_leaves (c := ⟨p, r + 4⟩) steady leaves (show p ≤ r + 2 by omega) (show r + 2 < r + 4 by omega) there run]
  cases act
  exact h _

end Brings

/-! ## Pieces -/

/-- Wherever the code of the piece stands in the function, it leaves an operand stack in `Q`. -/
def Delivers (R : Instr → Instr → Prop) (evaluate : List Value → Exec η Value) (l : List Frame) (f : Frame)
    (p : Piece) (Q : List Value → Prop) : Prop :=
  ∀ c, p.Fills R f.function.code c → Brings evaluate l f c Q

theorem fills_append {R : Instr → Instr → Prop} {code : Array Instr} {p q : Piece}
    (h : (p ++ q).Fills R code c) : ∃ mid, p.Fills R code ⟨c.first, mid⟩ ∧ q.Fills R code ⟨mid, c.last⟩ := by
  obtain ⟨g, is, g', run, last, shows_⟩ := h
  obtain ⟨first, second, g₁, hp, hq, rfl⟩ := append_eq_ok run
  rw [List.length_append, ← Nat.add_assoc] at last
  refine ⟨c.first + first.length, ?_, ?_⟩
  · exact ⟨g, first, g₁, hp, rfl, shows_.left⟩
  · exact ⟨g₁, second, g', hq, last, shows_.right⟩

namespace Delivers

variable {R : Instr → Instr → Prop} {p q x y : Piece} {Q' : List Value → Prop}

theorem mono (hp : Delivers R evaluate l f p Q) (h : ∀ os, Q os → Q' os) : Delivers R evaluate l f p Q' :=
  fun c fills w u w' stands run => h _ (hp c fills w u w' stands run)

/-- Code that is not made leaves nothing. -/
theorem of_compiles (h : p.Compiles → Delivers R evaluate l f p Q) : Delivers R evaluate l f p Q := by
  intro c fills
  obtain ⟨g, is, g', run, -⟩ := id fills
  exact h ⟨_, _, _, run⟩ c fills

theorem fail (problem : LoweringProblem) (span : Span) : Delivers R evaluate l f (.gen (fail problem span)) Q :=
  of_compiles fun compiles => absurd compiles (Piece.not_compiles_fail _ _)

theorem need {β : Type} {o : Option β} {problem : LoweringProblem} {span : Span} {g : β → Gen (List Instr)}
    (h : ∀ b, o = some b → Delivers R evaluate l f (.gen (g b)) Q) :
    Delivers R evaluate l f (.gen (need o problem span >>= g)) Q := by
  cases o with
  | none => exact fail problem span
  | some b => exact h b rfl

/-- No code at the end. -/
theorem nothing (hp : Delivers R evaluate l f p Q) : Delivers R evaluate l f (p ++ .code []) Q := by
  intro c fills
  obtain ⟨mid, first, g, is, g', run, last, -⟩ := fills_append fills
  cases run
  obtain rfl : c.last = mid := last
  exact hp c first

variable (steady : ∀ args, Exec.Steady (evaluate args)) (links : Links R)
include steady links

theorem single {i : Instr} (straight : i.isStraight) (notAddress : i.isAddress = false)
    (acts : ∀ (w : World η) u w', Exec.act evaluate f.function.ret f.base i w = .ok u w' → Q w'.machine.operands) :
    Delivers R evaluate l f (.code [i]) Q := by
  rintro ⟨first, last⟩ ⟨g, is, g', run, length, shows_⟩
  cases run
  obtain rfl : last = first + 1 := length
  obtain ⟨i', found, patched⟩ := shows_.head
  rw [links.plain i i' patched notAddress] at found
  exact Brings.single steady found straight acts

/-- What the last piece leaves is what all of them leave. -/
theorem behind (hp : p.Inward) (hq : q.Inward) (h : Delivers R evaluate l f q Q) :
    Delivers R evaluate l f (p ++ q) Q := by
  intro c fills
  obtain ⟨mid, first, second⟩ := fills_append fills
  exact .behind steady (inward_of_fills links.becomes hp first) (inward_of_fills links.becomes hq second) (h _ second)

theorem logical {op : BinaryOp} (hx : x.Inward) (hy : y.Inward)
    (h : ∀ b os, Q (.int (boolWord b) :: os)) : Delivers R evaluate l f (logical op x y) Q := by
  rintro ⟨first, last⟩ ⟨g, is, g', run, length, shows_⟩
  dsimp only at run length shows_
  obtain ⟨xs, g₁, runX, run⟩ := bind_eq_ok run
  obtain ⟨ys, g₂, runY, run⟩ := bind_eq_ok run
  cases run
  generalize hjump : (if op = .and then Instr.jumpIfFalse (first + xs.length + 1 + ys.length + 3)
    else .jumpIfTrue (first + xs.length + 1 + ys.length + 3)) = jump at shows_ length
  have test : jump.isTest ∧ jump.target? = some (first + xs.length + 1 + ys.length + 3) := by
    rw [← hjump]
    split <;> exact ⟨rfl, rfl⟩
  simp only [List.length_append, List.length_cons, List.length_nil] at length
  have second := shows_.left.right
  have third : Shows R _ (first + xs.length + 1 + ys.length) _ := shows_.right.at_ (by
    rw [List.length_append, List.length_cons]
    omega)
  have pushed {k : Nat} {v : Int64} (stood : Stood R f.function.code k (.pushInt v)) :
      f.function.code[k]? = some (.pushInt v) := by
    obtain ⟨i', found, patched⟩ := stood
    rw [found, links.plain _ i' patched rfl]
  have control : (jump.isControl || jump.isTest) = true := by rw [test.1, Bool.or_true]
  have left := inward_of_fills links.becomes hx (fills runX shows_.left.left)
  have right := inward_of_fills links.becomes hy (fills runY second.tail)
  obtain rfl : last = first + xs.length + 1 + ys.length + 4 := by omega
  exact .logical steady left right test.1 test.2 (found_of_stood links.becomes second.head control)
    (found_of_stood links.becomes third.head control) (pushed third.tail.head) (found_of_stood links.becomes third.tail.tail.head rfl)
    (pushed third.tail.tail.tail.head) (h _) (h _)

theorem conditional {t : Piece} (ht : t.Inward) (hx : x.Inward) (hy : y.Inward) (dx : Delivers R evaluate l f x Q)
    (dy : Delivers R evaluate l f y Q) : Delivers R evaluate l f (conditional t x y) Q := by
  rintro ⟨first, last⟩ ⟨g, is, g', run, length, shows_⟩
  dsimp only at run length shows_
  obtain ⟨ts, g₁, runT, run⟩ := bind_eq_ok run
  obtain ⟨yes, g₂, runX, run⟩ := bind_eq_ok run
  obtain ⟨no, g₃, runY, run⟩ := bind_eq_ok run
  cases run
  simp only [List.length_append, List.length_cons] at length
  have second := shows_.left.right
  have third : Shows R _ (first + ts.length + 1 + yes.length) _ := shows_.right.at_ (by
    rw [List.length_append, List.length_cons]
    omega)
  have stop : last = first + ts.length + 1 + yes.length + 1 + no.length := by omega
  have decides := found_of_stood links.becomes second.head rfl
  have leaves := found_of_stood links.becomes third.head rfl
  have test := fills runT shows_.left.left
  have branch := fills runX second.tail
  have other := fills runY third.tail
  rw [← stop] at leaves other
  exact .conditional steady (inward_of_fills links.becomes ht test) decides (inward_of_fills links.becomes hx branch) leaves
    (inward_of_fills links.becomes hy other) (dx _ branch) (dy _ other)

end Delivers

end Structured
end IncrementalC
