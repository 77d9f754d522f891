import IncrementalC.Proofs.Syntax.Depth

/-!
# The tree that precedence climbing builds

Operands with binary operators between them may be read as many trees. Only one of them is `Ordered`: a left child binds
at least as tightly as its parent, a right child more tightly. `binary` reads that tree. Each call of it stops in front
of the first operator below its bound, and an operator below the bound is at most as tight as what was read so far; so
the loop may take what it has read for the left child (`climbs`).
-/
namespace IncrementalC.Syntax
set_option autoImplicit false

/-! ## Trees of operators -/

/-- Operands joined by binary operators. -/
inductive OpTree where
  | operand (e : Expr)
  | node (op : BinaryOp) (l r : OpTree)

namespace OpTree

/-- The expression that the tree stands for. -/
def toExpr : OpTree → Expr
  | operand e => e
  | node op l r => .binary (l.toExpr.span.merge r.toExpr.span) op l.toExpr r.toExpr

/-- The first operand, from left to right. -/
def first : OpTree → Expr
  | operand e => e
  | node _ l _ => l.first

/-- The operators from left to right, each with the operand behind it. -/
def joined : OpTree → List (BinaryOp × Expr)
  | operand _ => []
  | node op l r => l.joined ++ (op, r.first) :: r.joined

/-- The tree is an operand, or its operator has precedence `p` or more. -/
def AtLeast (p : Nat) : OpTree → Prop
  | operand _ => True
  | node op _ _ => p ≤ op.precedence

/-- Left children bind at least as tightly as their parents, right children more tightly. -/
def Ordered : OpTree → Prop
  | operand _ => True
  | node op l r => l.AtLeast op.precedence ∧ r.AtLeast (op.precedence + 1) ∧ l.Ordered ∧ r.Ordered

instance decidableAtLeast (p : Nat) : (t : OpTree) → Decidable (t.AtLeast p)
  | operand _ => .isTrue trivial
  | node op _ _ => inferInstanceAs (Decidable (p ≤ op.precedence))

instance decidableOrdered : (t : OpTree) → Decidable t.Ordered
  | operand _ => .isTrue trivial
  | node op l r =>
    have := decidableOrdered l
    have := decidableOrdered r
    inferInstanceAs (Decidable (l.AtLeast op.precedence ∧ r.AtLeast (op.precedence + 1) ∧ l.Ordered ∧ r.Ordered))

theorem AtLeast.mono {p q : Nat} {t : OpTree} (h : t.AtLeast p) (le : q ≤ p) : t.AtLeast q := by
  cases t with
  | operand => trivial
  | node op l r => exact Nat.le_trans le h

/-- In an ordered tree no operator is looser than the one on top. -/
theorem Ordered.joined_le {t : OpTree} (h : t.Ordered) {p : Nat} (top : t.AtLeast p) :
    ∀ o ∈ t.joined, p ≤ o.1.precedence := by
  induction t generalizing p with
  | operand => simp [joined]
  | node op l r ihl ihr =>
    obtain ⟨left, right, hl, hr⟩ := h
    have top : p ≤ op.precedence := top
    intro o mem
    simp only [joined, List.mem_append, List.mem_cons] at mem
    rcases mem with before | rfl | behind
    · exact ihl hl (left.mono top) o before
    · exact top
    · exact ihr hr (right.mono (by omega)) o behind

/-- Two readings of a list around one of its elements agree, or the element of each is found on a side of the other. -/
theorem split_cases {α : Type} {xs ys xs' ys' : List α} {a b : α} (same : xs ++ a :: ys = xs' ++ b :: ys') :
    (xs = xs' ∧ a = b ∧ ys = ys') ∨ (a ∈ xs' ∧ b ∈ ys) ∨ (b ∈ xs ∧ a ∈ ys') := by
  rcases List.append_eq_append_iff.mp same with ⟨zs, front, back⟩ | ⟨zs, front, back⟩
  · cases zs with
    | nil => simp_all
    | cons z zs =>
      obtain ⟨rfl, rfl⟩ := List.cons.inj back
      exact .inr (.inl ⟨by simp [front], by simp⟩)
  · cases zs with
    | nil => simp_all
    | cons z zs =>
      obtain ⟨rfl, rfl⟩ := List.cons.inj back
      exact .inr (.inr ⟨by simp [front], by simp⟩)

/-- What is read from left to right is the reading of one ordered tree only. -/
theorem Ordered.unique {t t' : OpTree} (h : t.Ordered) (h' : t'.Ordered) (first : t.first = t'.first)
    (joined : t.joined = t'.joined) : t = t' := by
  induction t generalizing t' with
  | operand e =>
    cases t' with
    | operand e' => rw [show e = e' from first]
    | node op l r => simp [OpTree.joined] at joined
  | node op l r ihl ihr =>
    cases t' with
    | operand e => simp [OpTree.joined] at joined
    | node op' l' r' =>
      obtain ⟨left, right, hl, hr⟩ := h
      obtain ⟨left', right', hl', hr'⟩ := h'
      rcases split_cases joined with ⟨front, middle, back⟩ | ⟨before, behind⟩ | ⟨before, behind⟩
      · obtain ⟨rfl, next⟩ := Prod.mk.inj middle
        rw [ihl hl hl' first front, ihr hr hr' next back]
      · have loose : op'.precedence ≤ op.precedence := hl'.joined_le left' _ before
        have tight : op.precedence + 1 ≤ op'.precedence := hr.joined_le right _ behind
        omega
      · have loose : op.precedence ≤ op'.precedence := hl.joined_le left _ before
        have tight : op'.precedence + 1 ≤ op.precedence := hr'.joined_le right' _ behind
        omega

end OpTree

/-! ## Operands and operators in the text -/

/-- The binary operator that stands here. -/
def Cursor.operator? (c : Cursor) : Option BinaryOp :=
  match c.kind with
  | .punct p => binaryOp? p
  | _ => none

/-- From `c` on stand operators, each with one operand behind it, up to `stop`, where no operator stands. -/
inductive Joined : Cursor → List (BinaryOp × Expr) → Cursor → Prop where
  | done {c : Cursor} : c.operator? = none → Joined c [] c
  | more {c c' stop : Cursor} {op : BinaryOp} {e : Expr} {ops : List (BinaryOp × Expr)} : c.operator? = some op →
      unary c.advance.depthFor c.advance = .ok (e, c') → Joined c' ops stop → Joined c ((op, e) :: ops) stop

theorem Cursor.length_pos_of_operator? {c : Cursor} {op : BinaryOp} (h : c.operator? = some op) : 0 < c.rest.length := by
  refine length_pos fun eof => ?_
  unfold operator? at h
  rw [eof] at h
  cases h

/-- From the operators `ops` in front of `c` those of precedence `min` and more were read, up to one below it, and
make up an ordered tree behind `first` and `read`. -/
structure Climbed (min : Nat) (first : Expr) (read ops : List (BinaryOp × Expr)) (stop c' : Cursor) (t : OpTree) : Prop where
  ordered : t.Ordered
  atLeast : t.AtLeast min
  first : t.first = first
  split : ∃ taken left, ops = taken ++ left ∧ t.joined = read ++ taken ∧ Joined c' left stop ∧
    ∀ o ∈ left.head?, o.1.precedence < min

/-- What is read at a depth: by `binary`, and by its loop behind the tree `l`. -/
structure Climbs (depth : Nat) : Prop where
  binary : ∀ {c c₁ stop : Cursor} {e : Expr} {ops : List (BinaryOp × Expr)} (min : Nat),
    40 * c.rest.length + 3 ≤ depth → unary c.depthFor c = .ok (e, c₁) → Joined c₁ ops stop →
    ∃ t c', binary depth min c = .ok (t.toExpr, c') ∧ Climbed min e [] ops stop c' t
  binaryTail : ∀ {c stop : Cursor} {l : OpTree} {ops : List (BinaryOp × Expr)} (min : Nat),
    40 * c.rest.length + 1 ≤ depth → l.Ordered → l.AtLeast min → Joined c ops stop →
    (∀ o ∈ ops.head?, l.AtLeast o.1.precedence) →
    ∃ t c', binaryTail depth min l.toExpr c = .ok (t.toExpr, c') ∧ Climbed min l.first l.joined ops stop c' t

theorem Parser.bind_eq {α β : Type} {m : Parser α} {f : α → Parser β} {c c' : Cursor} {x : α} (h : m c = .ok (x, c')) :
    (m >>= f) c = f x c' := by
  show (m c >>= fun r => f r.1 r.2) = f x c'
  rw [h]
  rfl

/-- The loop goes on with an operator of precedence `min` or more. -/
theorem binaryTail_eq (depth min : Nat) (lhs : Expr) (c : Cursor) :
    binaryTail (depth + 1) min lhs c = c.operator?.elim (Pure.pure lhs : Parser Expr) (fun op =>
      if op.precedence < min then Pure.pure lhs else do
        let _ ← Parser.advance
        let rhs ← binary depth (op.precedence + 1)
        binaryTail depth min (.binary (lhs.span.merge rhs.span) op lhs rhs)) c := by
  have here : Parser.kind c = .ok (c.kind, c) := rfl
  rw [binaryTail, Parser.bind_eq here, Cursor.operator?]
  generalize c.kind = k
  cases k with
  | punct p => cases found : binaryOp? p <;> simp only [found, Option.elim_none, Option.elim_some]
  | _ => rfl

theorem Climbs.binary_succ {depth : Nat} (ih : Climbs depth) {c c₁ stop : Cursor} {e : Expr} {ops : List (BinaryOp × Expr)}
    (min : Nat) (enough : 40 * c.rest.length + 3 ≤ depth + 1) (operand : unary c.depthFor c = .ok (e, c₁))
    (joined : Joined c₁ ops stop) :
    ∃ t c', Syntax.binary (depth + 1) min c = .ok (t.toExpr, c') ∧ Climbed min e [] ops stop c' t := by
  have left := Settled.left (fun d => (depths d).unary) (by unfold Cursor.depthFor; omega) operand
  rw [← unary_eq (d := depth) (by omega)] at operand
  obtain ⟨t, c', read, climbed⟩ :=
    ih.binaryTail (l := .operand e) min (by omega) trivial trivial joined fun _ _ => trivial
  refine ⟨t, c', ?_, climbed⟩
  rw [Syntax.binary, Parser.bind_eq operand]
  exact read

theorem Climbs.binaryTail_succ {depth : Nat} (ih : Climbs depth) {c stop : Cursor} {l : OpTree}
    {ops : List (BinaryOp × Expr)} (min : Nat) (enough : 40 * c.rest.length + 1 ≤ depth + 1) (ordered : l.Ordered)
    (atLeast : l.AtLeast min) (joined : Joined c ops stop) (loose : ∀ o ∈ ops.head?, l.AtLeast o.1.precedence) :
    ∃ t c', Syntax.binaryTail (depth + 1) min l.toExpr c = .ok (t.toExpr, c') ∧ Climbed min l.first l.joined ops stop c' t := by
  cases joined with
  | done none =>
    refine ⟨l, c, ?_, ordered, atLeast, rfl, [], [], rfl, by simp, .done none, by simp⟩
    rw [binaryTail_eq, none]
    rfl
  | @more _ c₁ _ op e ops found operand joined =>
    have fewer := Cursor.advance_lt (c.length_pos_of_operator? found)
    rw [binaryTail_eq, found, Option.elim_some]
    by_cases low : op.precedence < min
    · refine ⟨l, c, ?_, ordered, atLeast, rfl, [], _, rfl, by simp, .more found operand joined, by simpa using low⟩
      rw [if_pos low]
      rfl
    · obtain ⟨r, c₂, read, climbed⟩ := ih.binary (op.precedence + 1) (by omega) operand joined
      have left : c₂.rest.length ≤ c.advance.rest.length :=
        Settled.left (fun d => (depths d).binary _) (by omega) read
      obtain ⟨taken, more, rfl, same, joined, below⟩ := climbed.split
      have node : (OpTree.node op l r).Ordered := ⟨loose _ rfl, climbed.atLeast, ordered, climbed.ordered⟩
      have next : ∀ o ∈ more.head?, (OpTree.node op l r).AtLeast o.1.precedence := fun o mem =>
        Nat.le_of_lt_succ (below o mem)
      obtain ⟨t, c', rest, climbed'⟩ := ih.binaryTail min (by omega) node (Nat.not_lt.mp low) joined next
      obtain ⟨taken', more', rfl, same', joined', below'⟩ := climbed'.split
      refine ⟨t, c', ?_, climbed'.ordered, climbed'.atLeast, climbed'.first, (op, e) :: (taken ++ taken'), more', by simp,
        ?_, joined', below'⟩
      · have passed : Parser.advance c = .ok (c.current, c.advance) := rfl
        rw [if_neg low, Parser.bind_eq passed, Parser.bind_eq read]
        exact rest
      · rw [same', OpTree.joined, same, climbed.first]
        simp

theorem climbs (depth : Nat) : Climbs depth := by
  induction depth with
  | zero =>
    constructor
    · intros
      omega
    · intros
      omega
  | succ depth ih => exact ⟨ih.binary_succ, ih.binaryTail_succ⟩

/-- An operand, and operators with an operand behind each, up to something that is no operator: `binary` reads all of
them, and yields the only ordered tree with this reading. -/
theorem binary_reads_ordered {c c₁ stop : Cursor} {e : Expr} {ops : List (BinaryOp × Expr)}
    (operand : unary c.depthFor c = .ok (e, c₁)) (joined : Joined c₁ ops stop) :
    ∃ t : OpTree, binary c.depthFor 0 c = .ok (t.toExpr, stop) ∧ t.Ordered ∧ t.first = e ∧ t.joined = ops ∧
      ∀ t' : OpTree, t'.Ordered → t'.first = e → t'.joined = ops → t' = t := by
  have enough : 40 * c.rest.length + 3 ≤ c.depthFor := by
    unfold Cursor.depthFor
    omega
  obtain ⟨t, c', read, climbed⟩ := (climbs c.depthFor).binary 0 enough operand joined
  obtain ⟨taken, left, rfl, same, joined, below⟩ := climbed.split
  cases left with
  | cons o left => exact absurd (below o rfl) (Nat.not_lt_zero _)
  | nil =>
    cases joined
    have same : t.joined = taken ++ [] := by simpa using same
    exact ⟨t, read, climbed.ordered, climbed.first, same, fun t' ordered first joined =>
      ordered.unique climbed.ordered (first.trans climbed.first.symm) (joined.trans same.symm)⟩

theorem binary_reads_ordered_difference :
    let name (w : String) : Expr := .ident .none w
    let text : List TokenKind := [.ident "a", .punct .minus, .ident "b", .punct .star, .ident "c", .punct .minus,
      .ident "d", .punct .semi]
    let start := Cursor.ofTokens (text.map (⟨·, .none⟩)) [] 0
    let stop := { start with rest := [⟨.punct .semi, .none⟩] }
    let tree : OpTree := .node .sub
      (.node .sub (.operand (name "a")) (.node .mul (.operand (name "b")) (.operand (name "c")))) (.operand (name "d"))
    unary start.depthFor start = .ok (name "a", start.advance) ∧
      Joined start.advance [(.sub, name "b"), (.mul, name "c"), (.sub, name "d")] stop ∧
      binary start.depthFor 0 start = .ok (tree.toExpr, stop) := by
  intro name text start stop tree
  have first : unary start.depthFor start = .ok (name "a", start.advance) := rfl
  have joined : Joined start.advance [(.sub, name "b"), (.mul, name "c"), (.sub, name "d")] stop := by
    refine .more rfl rfl ?_
    refine .more rfl rfl ?_
    refine .more rfl rfl ?_
    exact .done rfl
  obtain ⟨t, read, -, -, -, only⟩ := binary_reads_ordered first joined
  have ordered : tree.Ordered := by decide
  refine ⟨first, joined, ?_⟩
  rw [read, ← only tree ordered rfl rfl]

end IncrementalC.Syntax
