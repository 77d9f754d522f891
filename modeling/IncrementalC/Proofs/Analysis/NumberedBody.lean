import IncrementalC.Proofs.Analysis.Accepted
import IncrementalC.Proofs.Syntax.UnitWritten

/-!
# Statements have numbers of their own

The parser counts the statements as it ends them, so the number of a statement lies between the
counts before and after it (`Between`). The statements of one block follow each other, hence no two of
them have the same number (`topLevel?_numbered`).

A statement is analysed into one of the same number, so the body of an analysed function is a block of this kind
as well (`Analysis.analyze_numbered`).
-/
namespace IncrementalC
set_option autoImplicit false

/-- No two of the statements have the same number. -/
def Numbered {ε γ : Type} (ss : List (Statement ε γ)) : Prop := (ss.map (·.node.id)).Nodup

/-- A block whose statements have numbers of their own. -/
def NumberedBlock {ε γ : Type} (s : Statement ε γ) : Prop :=
  ∃ node ss, s = .compound node ss ∧ Numbered ss

namespace Syntax

variable {α β : Type}

/-! ## Counts before and after -/

def Between (lo : Nat) (s : Stmt) (hi : Nat) : Prop := lo ≤ s.node.id ∧ s.node.id < hi

/-- Statements with different numbers between two counts. -/
structure AllBetween (lo : Nat) (ss : List Stmt) (hi : Nat) : Prop where
  le : lo ≤ hi
  between : ∀ s ∈ ss, Between lo s hi
  numbered : Numbered ss

theorem AllBetween.nil (n : Nat) : AllBetween n [] n := ⟨Nat.le_refl n, nofun, List.nodup_nil⟩

theorem AllBetween.cons {lo mid hi : Nat} {s : Stmt} {ss : List Stmt} (head : Between lo s mid)
    (tail : AllBetween mid ss hi) : AllBetween lo (s :: ss) hi := by
  obtain ⟨lower, upper⟩ := head
  have le := tail.le
  refine ⟨by omega, fun s' hs' => ?_, ?_⟩
  · rcases List.mem_cons.mp hs' with rfl | hs'
    · exact ⟨lower, by omega⟩
    · obtain ⟨lower', upper'⟩ := tail.between s' hs'
      exact ⟨by omega, upper'⟩
  · refine List.nodup_cons.mpr ⟨fun mem => ?_, tail.numbered⟩
    obtain ⟨s', hs', same⟩ := List.mem_map.mp mem
    obtain ⟨lower', -⟩ := tail.between s' hs'
    have same : s'.node.id = s.node.id := same
    omega

theorem AllBetween.mono {lo hi hi' : Nat} {ss : List Stmt} (h : AllBetween lo ss hi) (le : hi ≤ hi') :
    AllBetween lo ss hi' :=
  ⟨Nat.le_trans h.le le, fun s hs => ⟨(h.between s hs).1, Nat.lt_of_lt_of_le (h.between s hs).2 le⟩,
    h.numbered⟩

/-- `Q` relates the count before `m`, what `m` reads and the count after it. -/
def Counts (m : Parser α) (Q : Nat → α → Nat → Prop) : Prop :=
  ∀ c x c', c.Written → m c = .ok (x, c') → Q c.nextId x c'.nextId

namespace Counts

variable {m : Parser α} {Q : Nat → α → Nat → Prop} {P : α → Prop}

theorem pure {x : α} (h : ∀ n, Q n x n) : Counts (Pure.pure x) Q := by
  intro c y c' _ run
  cases run
  exact h _

theorem bind {f : α → Parser β} {R : Nat → β → Nat → Prop} (hm : Counts m Q) (reads : Reads m P)
    (hf : ∀ x lo, Counts (f x) fun mid y hi => Q lo x mid → R lo y hi) : Counts (m >>= f) R := by
  intro c y c' hc run
  obtain ⟨⟨x, c₁⟩, first, second⟩ := Lexer.bind_ok (m := m c) run
  obtain ⟨left, -, -⟩ := reads c x c₁ hc first
  exact hf x c.nextId c₁ y c' (hc.of_suffix left) second (hm c x c₁ hc first)

/-- What is read first may only raise the count. -/
theorem skip {f : α → Parser β} {R : Nat → β → Nat → Prop} (reads : Reads m P)
    (lower : ∀ lo lo' y hi, lo ≤ lo' → R lo' y hi → R lo y hi) (hf : ∀ x, P x → Counts (f x) R) :
    Counts (m >>= f) R := by
  intro c y c' hc run
  obtain ⟨⟨x, c₁⟩, first, second⟩ := Lexer.bind_ok (m := m c) run
  obtain ⟨left, counted, hx⟩ := reads c x c₁ hc first
  exact lower _ _ y _ counted (hf x hx c₁ y c' (hc.of_suffix left) second)

/-- The count is taken as a number. -/
theorem fresh {g : Nat → α} (h : ∀ n, Q n (g n) (n + 1)) :
    Counts (do return g (← Parser.freshId)) Q := by
  intro c y c' _ run
  cases run
  exact h _

theorem ite {b : Prop} [Decidable b] {m' : Parser α} (h : Counts m Q) (h' : Counts m' Q) :
    Counts (if b then m else m') Q := by
  split
  · exact h
  · exact h'

theorem throw (e : ParseError) : Counts (MonadExcept.throw e : Parser α) Q := by
  intro c x c' _ run
  cases run

theorem unexpected (what : Expected) : Counts (Parser.unexpected what : Parser α) Q := by
  intro c x c' _ run
  cases run

theorem tooDeep : Counts (Parser.tooDeep : Parser α) Q := by
  intro c x c' _ run
  cases run

theorem mono {R : Nat → α → Nat → Prop} (hm : Counts m Q) (h : ∀ lo x hi, Q lo x hi → R lo x hi) :
    Counts m R :=
  fun c x c' hc run => h _ _ _ (hm c x c' hc run)

/-! ## Statements -/

theorem between_lower {lo lo' hi : Nat} {s : Stmt} (le : lo ≤ lo') (h : Between lo' s hi) :
    Between lo s hi :=
  ⟨Nat.le_trans le h.1, h.2⟩

/-- Whatever stands in front of the end of a statement. -/
theorem after {f : α → Parser Stmt} (reads : Reads m P) (hf : ∀ x, Counts (f x) Between) :
    Counts (m >>= f) Between :=
  skip reads (fun _ _ _ _ le h => between_lower le h) fun x _ => hf x

theorem node {start : Span} {mk : Node → Stmt} (h : ∀ n, (mk n).node = n) :
    Counts (do return mk (← Parser.node start)) Between := by
  intro c s c' _ run
  cases run
  have id : (mk ⟨c.nextId, start.merge c.prev⟩).node.id = c.nextId := congrArg Node.id (h _)
  exact ⟨Nat.le_of_eq id.symm, Nat.lt_succ_of_le (Nat.le_of_eq id)⟩

end Counts

/-- What the rules for statements count at one bound on the depth. -/
structure CountRules (depth : Nat) : Prop where
  block : Counts (block depth) fun lo s hi => Between lo s hi ∧ NumberedBlock s
  stmts : Counts (stmts depth) AllBetween
  stmt : Counts (stmt depth) Between

namespace Counts

variable {depth : Nat}

theorem block_succ (ih : CountRules depth) :
    Counts (block (depth + 1)) fun lo s hi => Between lo s hi ∧ NumberedBlock s := by
  refine skip (Reads.expect _) (fun _ _ _ _ le h => ⟨between_lower le h.1, h.2⟩) fun start _ => ?_
  refine bind ih.stmts (Reads.stmtRules depth).stmts fun ss lo => ?_
  refine skip (Reads.expect _) (fun _ _ _ _ le h all => h (all.mono le)) fun close _ => ?_
  exact fresh fun n all => ⟨⟨all.le, Nat.lt_succ_self n⟩, _, ss, rfl, all.numbered⟩

theorem stmts_succ (ih : CountRules depth) : Counts (stmts (depth + 1)) AllBetween := by
  refine bind (Q := fun lo _ hi => lo = hi) ?_ Reads.kind fun k lo => ?_
  · intro c x c' _ run
    cases run
    rfl
  · split
    · exact pure fun n same => same ▸ AllBetween.nil n
    · exact unexpected _
    · refine bind ih.stmt (Reads.stmtRules depth).stmt fun s lo' => ?_
      refine bind ih.stmts (Reads.stmtRules depth).stmts fun ss mid => ?_
      exact pure fun n all head same => same ▸ AllBetween.cons head all

theorem stmt_succ (ih : CountRules depth) : Counts (stmt (depth + 1)) Between := by
  have statement := (Reads.stmtRules depth).stmt
  have expression := (rules depth).expr
  refine after Reads.here fun start => after Reads.kind fun k => ?_
  split
  · exact ih.block.mono fun _ _ _ h => h.1
  iterate 2
    · exact after Reads.advance fun _ => node fun _ => rfl
  · refine after Reads.advance fun _ => after (Reads.condition _) fun c => after statement fun yes => ?_
    refine after Reads.kind fun _ => ite ?_ (node fun _ => rfl)
    exact after Reads.advance fun _ => after statement fun no => node fun _ => rfl
  · refine after Reads.advance fun _ => after (Reads.condition _) fun c => after statement fun body => ?_
    exact node fun _ => rfl
  · refine after Reads.advance fun _ => after statement fun body => after (Reads.expectKeyword _) fun _ => ?_
    exact after (Reads.condition _) fun c => after (Reads.expect _) fun _ => node fun _ => rfl
  · refine after Reads.advance fun _ => after (Reads.expect _) fun _ => after (Reads.forInit _) fun init => ?_
    refine after (Reads.exprUnless _ _) fun c => after (Reads.expect _) fun _ => ?_
    refine after (Reads.exprUnless _ _) fun step => after (Reads.expect _) fun _ => ?_
    exact after statement fun body => node fun _ => rfl
  iterate 2
    · exact after Reads.advance fun _ => after (Reads.expect _) fun _ => node fun _ => rfl
  · refine after Reads.advance fun _ => after (Reads.exprUnless _ _) fun value => ?_
    exact after (Reads.expect _) fun _ => node fun _ => rfl
  iterate 5
    · exact throw _
  · refine after Reads.get fun c => ite ?_ ?_
    · exact after (Reads.localGroup _) fun g => node fun _ => rfl
    · exact after expression fun e => after (Reads.expect _) fun _ => node fun _ => rfl

end Counts

theorem countRules (depth : Nat) : CountRules depth := by
  induction depth with
  | zero => constructor <;> exact Counts.tooDeep
  | succ depth ih => exact ⟨Counts.block_succ ih, Counts.stmts_succ ih, Counts.stmt_succ ih⟩

/-- The body that is read with a group is a block with numbered statements. -/
theorem topLevel?_numbered {c c' : Cursor} {t : TopLevel} (hc : c.Written)
    (h : topLevel? c = .ok (some t, c')) : ∀ s, t.body = some s → NumberedBlock s := by
  unfold topLevel? at h
  dsimp only at h
  split at h
  · cases h
  · cases h
  · rename_i c₁ skipped
    have hc₁ := hc.of_suffix (Cursor.skipMarks_suffix skipped)
    split at h
    · cases h
    · cases h
      exact nofun
    · rename_i start g c₂ read
      obtain ⟨left, -, -⟩ := Reads.groupOrHead _ _ _ _ _ hc₁ read
      split at h
      · rename_i body c₃ readBody
        cases h
        intro s hs
        cases hs
        exact ((countRules _).block _ _ _ (hc₁.of_suffix left) readBody).2
      · cases h

end Syntax

open Typed

namespace Analyze

/-! ## Analysed statements -/

variable {f : FunctionContext} {inLoop : Bool}

theorem stmt_node (s : Syntax.Stmt) : Gives (stmt f inLoop s) fun t => t.node = s.node := by
  cases s with
  | null node => exact .pure rfl
  | expr node e => exact .skip fun _ => .pure rfl
  | decl node g => exact .skip fun _ => .pure rfl
  | compound node ss => exact .skip fun _ => .pure rfl
  | ifThen node c yes => exact .skip fun _ => .skip fun _ => .pure rfl
  | ifElse node c yes no => exact .skip fun _ => .skip fun _ => .skip fun _ => .pure rfl
  | «while» node c body => exact .skip fun _ => .skip fun _ => .pure rfl
  | doWhile node body c => exact .skip fun _ => .skip fun _ => .pure rfl
  | «for» node init c step body =>
    exact .inScope (.skip fun _ => .skip fun _ => .skip fun _ => .skip fun _ => .pure rfl)
  | «break» node => exact .ite (.skip fun _ => .pure rfl) (.pure rfl)
  | «continue» node => exact .ite (.skip fun _ => .pure rfl) (.pure rfl)
  | «return» node value => exact .skip fun _ => .pure rfl

theorem stmts_numbers (ss : List Syntax.Stmt) :
    Gives (stmts f inLoop ss) fun ts => ts.map (·.node.id) = ss.map (·.node.id) := by
  induction ss with
  | nil => exact .pure rfl
  | cons s ss ih =>
    refine .bind (stmt_node s) fun t ht => .bind ih fun ts hts => .pure ?_
    rw [List.map_cons, List.map_cons, ht, hts]

theorem stmt_numbered {s : Syntax.Stmt} (h : NumberedBlock s) :
    Gives (stmt f inLoop s) NumberedBlock := by
  obtain ⟨node, ss, rfl, numbered⟩ := h
  refine .bind (.inScope (stmts_numbers ss)) fun ts same => .pure ⟨node, ts, rfl, ?_⟩
  unfold Numbered
  rw [same]
  exact numbered

/-! ## Function definitions -/

theorem functionBody_numbered {fn : FunctionDecl} {body : Syntax.Stmt} (h : NumberedBlock body) :
    Gives (functionBody fn body) fun r => NumberedBlock r.2 :=
  .skip fun _ => .bind (.inScope (stmt_numbered h)) fun _ ht => .skip fun _ => .skip fun _ => .pure ht

/-- Only functions have bodies. -/
def HasBlock (r : Decl × Option Stmt) : Prop :=
  ∀ s, r.2 = some s → (∃ fn, r.1.kind = .function fn) ∧ NumberedBlock s

theorem functionDefinition_numbered {spec : Syntax.DeclSpec} {d : Syntax.Decl} {body : Syntax.Stmt}
    (h : NumberedBlock body) : Gives (functionDefinition spec d body) HasBlock := by
  obtain ⟨kind, span⟩ := d
  unfold functionDefinition
  cases kind with
  | function name declarator externC =>
    refine .skip fun r => .ite (.pure nofun) (.skip fun a => .ite (.skip fun _ => .skip fun _ => .pure nofun) ?_)
    refine .bind (functionBody_numbered h) fun r hr => .pure fun s hs => ?_
    cases hs
    exact ⟨⟨r.1, rfl⟩, hr⟩
  | _ => exact .skip fun _ => .pure nofun

theorem topLevel_numbered {t : Syntax.TopLevel} (h : ∀ s, t.body = some s → NumberedBlock s) :
    Gives (topLevel t) fun t' => ∀ s, t'.body = some s →
      (∃ fn, t'.function? = some fn) ∧ NumberedBlock s := by
  unfold topLevel
  dsimp only
  split
  · rename_i body last hbody hlast
    refine .skip fun before => .bind (functionDefinition_numbered (h body hbody)) fun r hr => .pure ?_
    intro s hs
    obtain ⟨⟨fn, kind⟩, numbered⟩ := hr s hs
    refine ⟨⟨fn, ?_⟩, numbered⟩
    unfold TopLevel.function?
    rw [show r.2 = some s from hs, List.getLast?_concat]
    simp only [Option.bind_eq_bind, Option.bind_some]
    rw [kind]
  · exact .skip fun _ => .pure fun s hs => by cases hs

end Analyze

theorem Analysis.analyze_numbered {a : Analysis} {t : Syntax.TopLevel} {t' : Typed.TopLevel}
    (h : ∀ s, t.body = some s → NumberedBlock s) (accepted : (a.analyze t).1 = .ok t') :
    ∀ s, t'.body = some s → (∃ fn, t'.function? = some fn) ∧ NumberedBlock s := by
  have gives := Analyze.topLevel_numbered h { a with errors := #[] }
  unfold Analysis.analyze at accepted
  generalize (Analyze.topLevel t).run { a with errors := #[] } = r at gives accepted
  obtain ⟨result, b⟩ := r
  dsimp only at accepted
  split at accepted
  · cases accepted
    exact gives
  · cases accepted

end IncrementalC
