import IncrementalC.Proofs.Lowering.Piece
import IncrementalC.Proofs.Lowering.Retained
import IncrementalC.Proofs.Machine.Represented
import IncrementalC.Proofs.Semantics.Layout
import IncrementalC.Proofs.Semantics.Track

/-!
# What pieces of code compute

`Track.Runs σ p xs M out`: wherever the code of the piece `p` stands in the stretch, it takes the values `xs`
from the operand stack, does what the computation `M` says, and leaves `out x` for its result `x`.
Pieces are put together as the computations are (`Runs.append`), and each operator of the lowering has
a computation of its own.
-/
namespace IncrementalC
set_option autoImplicit false
open Lowering

namespace Track

variable {η α β : Type} (σ : Track η)

def Patched (i i' : Instr) : Prop := σ.linked.patch σ.strings i = .ok i'

/-- The literals of the module have places in the linked machine. -/
def Knows (g : CodeModule) : Prop :=
  ∀ (k : Nat) (text : String), g.strings[k]? = some text →
    ∃ p, σ.strings[k]? = some p ∧ σ.linked.strings.get? text = some p

def Runs (p : Piece) (xs : List Value) (M : Eval α) (out : α → List Value) : Prop :=
  ∀ start g is g', p start g = .ok (is, g') → σ.Knows g' → Shows σ.Patched σ.frame.function.code start is →
    σ.stretch.first ≤ start → start + is.length ≤ σ.stretch.last →
    ∀ m os n, σ.Ends (σ.at_ m (xs ++ os) n start) m os (start + is.length) (n + is.length) out (M m)

/-- Instructions that turn the values `xs` into `ys`. -/
def Turns (c : List Instr) (xs ys : List Value) : Prop := σ.Runs (.code c) xs (pure ()) fun _ => ys

variable {σ} {p q : Piece} {xs ys zs : List Value} {M : Eval α} {out : α → List Value} {c : List Instr}

theorem Knows.of_keeps {g g' : CodeModule} (h : σ.Knows g') (keeps : g.KeepsStrings g') : σ.Knows g :=
  fun k text found => h k text (keeps k text found)

/-- Instructions without addresses are linked as they are. -/
theorem found_of_stood {k : Nat} {i : Instr} (stood : Stood σ.Patched σ.frame.function.code k i)
    (plain : σ.Patched i i) : σ.frame.function.code[k]? = some i := by
  obtain ⟨i', found, patched⟩ := stood
  cases plain.symm.trans patched
  exact found

namespace Runs

theorem append {N : α → Eval β} {out' : β → List Value} (hp : σ.Runs p xs M out) (keeps : q.Keeps)
    (hq : ∀ x m m', M m = .ok x m' → σ.Runs q (out x) (N x) out') : σ.Runs (p ++ q) xs (M >>= N) out' := by
  intro start g is g' run knows shows_ first last m os n
  obtain ⟨c, d, g₁, hc, hd, rfl⟩ := append_eq_ok run
  rw [List.length_append] at last ⊢
  have below := knows.of_keeps (keeps _ _ _ _ hd)
  have begun := hp start g c g₁ hc below shows_.left first (by omega) m os n
  refine begun.bind (by omega) fun x m' k ran le => ?_
  have ended := hq x m m' ran _ g₁ d g' hd knows shows_.right (by omega) (by omega) m' os k
  rw [← Nat.add_assoc]
  exact ended.mono (by omega)

/-- Values below those that the piece takes stay. -/
theorem frame (hp : σ.Runs p xs M out) (zs : List Value) : σ.Runs p (xs ++ zs) M fun x => out x ++ zs := by
  intro start g is g' run knows shows_ first last m os n
  have ends := hp start g is g' run knows shows_ first last m (zs ++ os) n
  rw [List.append_assoc]
  cases ran : M m with
  | ok x m' =>
    rw [ran] at ends
    refine ⟨ends.1, ends.2.imp_left fun ⟨k, le, leads⟩ => ⟨k, le, ?_⟩⟩
    rwa [List.append_assoc]
  | error e m' =>
    rw [ran] at ends
    cases e with
    | meaningless => trivial
    | fault e => exact ends

/-- Only the values that are left count. -/
theorem congr {out' : α → List Value} (hp : σ.Runs p xs M out) (same : ∀ m x m', M m = .ok x m' → out x = out' x) :
    σ.Runs p xs M out' := by
  intro start g is g' run knows shows_ first last m os n
  have ends := hp start g is g' run knows shows_ first last m os n
  cases ran : M m with
  | ok x m' =>
    rw [ran] at ends
    rwa [Ends, same m x m' ran] at ends
  | error e m' =>
    rw [ran] at ends
    cases e with
    | meaningless => trivial
    | fault e => exact ends

theorem map {f : α → β} {out' : β → List Value} (hp : σ.Runs p xs M fun x => out' (f x)) :
    σ.Runs p xs (do return f (← M)) out' := by
  intro start g is g' run knows shows_ first last m os n
  have ends := hp start g is g' run knows shows_ first last m os n
  show σ.Ends _ m os _ _ out' (EStateM.bind M (fun x => pure (f x)) m)
  unfold EStateM.bind
  cases ran : M m with
  | ok x m' =>
    rw [ran] at ends
    exact ends
  | error e m' =>
    rw [ran] at ends
    cases e with
    | meaningless => trivial
    | fault e => exact ends

/-- Code that changes nothing but the values at the end. -/
theorem passing {out' : α → List Value} (hp : σ.Runs p xs M out) (keeps : q.Keeps)
    (hq : ∀ x m m', M m = .ok x m' → σ.Runs q (out x) (pure ()) fun _ => out' x) : σ.Runs (p ++ q) xs M out' := by
  have both := hp.append (N := pure) keeps fun x m m' ran start g is g' run knows shows_ first last m os n =>
    hq x _ _ ran start g is g' run knows shows_ first last m os n
  rwa [bind_pure] at both

/-- Instructions that change the values at the end. -/
theorem turning {out' : α → List Value} (hp : σ.Runs p xs M out)
    (hc : ∀ x m m', M m = .ok x m' → σ.Turns c (out x) (out' x)) : σ.Runs (p ++ .code c) xs M out' :=
  hp.passing (.code c) hc

theorem turned (hc : σ.Turns c xs ys) (hq : σ.Runs q ys M out) (keeps : q.Keeps) :
    σ.Runs (.code c ++ q) xs M out :=
  append (N := fun _ => M) hc keeps fun _ _ _ _ => hq

theorem gen {m : Gen (List Instr)}
    (h : ∀ g is g', m g = .ok (is, g') → σ.Knows g' → σ.Runs (.code is) xs M out) : σ.Runs (.gen m) xs M out :=
  fun start g is g' run knows => h g is g' run knows start g' is g' rfl knows

theorem needs {γ : Type} {x : Option γ} {problem : LoweringProblem} {span : Span} {f : γ → Gen (List Instr)}
    (h : ∀ y, x = some y → σ.Runs (.gen (f y)) xs M out) : σ.Runs (.gen (need x problem span >>= f)) xs M out := by
  cases x with
  | none => exact fun start g is g' run => nomatch run
  | some y => exact h y rfl

theorem fail (problem : LoweringProblem) (span : Span) : σ.Runs (.gen (fail problem span)) xs M out :=
  fun _ _ _ _ run => nomatch run

theorem single {i i' : Instr} (acts : σ.Acts i' xs M out) (patched : σ.Patched i i') :
    σ.Runs (.code [i]) xs M out := by
  intro start g is g' run knows shows_ first last m os n
  cases run
  obtain ⟨i'', found, patched'⟩ := shows_.head
  cases patched.symm.trans patched'
  exact Ends.act found ⟨first, last⟩ acts (Nat.le_refl _)

/-- A computation without meaning asks for nothing. -/
theorem meaningless : σ.Runs p xs Eval.meaningless out := fun _ _ _ _ _ _ _ _ _ _ _ _ => trivial

theorem known {ty : Ty} (h : ty.isDependent = false → σ.Runs p xs M out) :
    σ.Runs p xs (Eval.known ty M) out := by
  unfold Eval.known
  split
  · exact meaningless
  · exact h (Bool.eq_false_iff.mpr ‹_›)

theorem counted {slots : Nat} (h : slots < UInt32.size → σ.Runs p xs M out) :
    σ.Runs p xs (Eval.counted slots M) out := by
  unfold Eval.counted
  split
  · exact h ‹_›
  · exact meaningless

/-- Only expressions with a value are asked for it. -/
theorem value {M : Eval (Option Value)} (hp : σ.Runs p xs M Option.toList) :
    σ.Runs p xs (Eval.value M) fun v => [v] := by
  intro start g is g' run knows shows_ first last m os n
  have ends := hp start g is g' run knows shows_ first last m os n
  show σ.Ends _ m os _ _ _ (EStateM.bind M _ m)
  unfold EStateM.bind
  cases ran : M m with
  | ok x m' =>
    rw [ran] at ends
    cases x with
    | none => trivial
    | some v => exact ends
  | error e m' =>
    rw [ran] at ends
    cases e with
    | meaningless => trivial
    | fault e => exact ends

end Runs

theorem Turns.nil : σ.Turns [] xs xs := by
  intro start g is g' run knows shows_ first last m os n
  cases run
  exact ⟨rfl, .inl ⟨n, Nat.le_refl n, .refl _⟩⟩

theorem Turns.append {d : List Instr} (hc : σ.Turns c xs ys) (hd : σ.Turns d ys zs) : σ.Turns (c ++ d) xs zs := by
  unfold Turns
  rw [Piece.code_append]
  exact Runs.turned hc hd (.code d)

theorem Turns.frame (hc : σ.Turns c xs ys) (zs : List Value) : σ.Turns c (xs ++ zs) (ys ++ zs) := Runs.frame hc zs

/-! ## Values -/

theorem turns_convert {source target : Ty} {v : Value} (suits : v.Suits source) :
    σ.Turns (convert source target) [v] [Eval.converted source target v] := by
  unfold convert kindOf? Eval.converted
  cases hs : source.decay.scalar? with
  | none => exact .nil
  | some s =>
    cases ht : target.decay.scalar? with
    | none => exact .nil
    | some t =>
      obtain ⟨notFloat, isOf⟩ := suits s hs
      by_cases same : s = t
      · subst same
        dsimp only
        rw [if_pos rfl, isOf.convert notFloat]
        exact .nil
      · dsimp only
        rw [if_neg same]
        exact .single (acts_convert s t v) rfl

theorem turns_movePointer {ty : Ty} {n p : Value} (suits : n.Suits ty) (negate : Bool) (stride : Int64) :
    σ.Turns (convert ty .long ++ (if negate then [.unary .neg .i64] else []) ++ [.ptrAdd stride]) [n, p]
      [Eval.moved p ((if negate then -Eval.steps ty n else Eval.steps ty n) * stride)] := by
  have converted : σ.Turns (convert ty .long) [n, p] [Eval.converted ty .long n, p] := (turns_convert suits).frame [p]
  cases negate with
  | false => exact (converted.append .nil).append (.single (acts_ptrAdd stride _ p) rfl)
  | true =>
    have negated (v : Value) : σ.Turns [.unary .neg .i64] [v, p] [.int (-v.word), p] :=
      .single (.pure fun _ _ _ _ => rfl) rfl
    exact (converted.append (negated _)).append (.single (acts_ptrAdd stride _ p) rfl)

theorem pointeeStride_eq (types : TypeTable) (ty : Ty) :
    pointeeStride types ty = Eval.pointeeDistance types ty := by
  unfold pointeeStride Eval.pointeeDistance
  cases ty.pointee? <;> rfl

/-! ## Results -/

/-- Instructions that need no memory, as a computation with a result. -/
theorem Turns.result {x : α} (hc : σ.Turns c xs (out x)) : σ.Runs (.code c) xs (pure x) out := by
  refine Runs.map (M := pure ()) (f := fun _ => x) ?_
  exact hc

theorem Turns.last {x : α} (hc : σ.Turns c xs (out x)) : σ.Runs (.gen (pure c)) xs (pure x) out := hc.result

end Track
end IncrementalC
