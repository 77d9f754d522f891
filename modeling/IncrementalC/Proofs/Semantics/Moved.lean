import IncrementalC.Proofs.Machine.Elsewhere
import IncrementalC.Proofs.Semantics.ExpressionPreserved

/-!
# The same expression at another place

Where an expression stands in the source matters for the errors of its lowering only: the code of `e` is the code of
`e.unplaced` (`sameCode_rvalue`, `sameCode_lvalue`). Where its code is to stand matters for jumps only: two stretches of
linked code that were made by one piece form a `Twin` (`CodeModule.Contains.twin`).
-/
namespace IncrementalC
set_option autoImplicit false
open Lowering
open Typed (Expr Info Binding)

/-! ## Trees without places -/

namespace Typed

def Info.unplaced (i : Info) : Info := ⟨.none, i.ty⟩

mutual

/-- The tree as if no source text stood behind it. -/
def Expr.unplaced : Expr → Expr
  | .int i v suffix => .int i.unplaced v suffix
  | .float i x single => .float i.unplaced x single
  | .char i c => .char i.unplaced c
  | .str i text => .str i.unplaced text
  | .bool i b => .bool i.unplaced b
  | .null i => .null i.unplaced
  | .ident i name binding => .ident i.unplaced name binding
  | .unary i op x => .unary i.unplaced op x.unplaced
  | .binary i op x y => .binary i.unplaced op x.unplaced y.unplaced
  | .assign i op x y => .assign i.unplaced op x.unplaced y.unplaced
  | .conditional i c x y => .conditional i.unplaced c.unplaced x.unplaced y.unplaced
  | .call i name target args => .call i.unplaced name target (unplacedAll args)
  | .index i x y => .index i.unplaced x.unplaced y.unplaced
  | .member i x field arrow => .member i.unplaced x.unplaced field arrow
  | .cast i target x => .cast i.unplaced target x.unplaced
  | .sizeofType i target => .sizeofType i.unplaced target
  | .sizeofExpr i x => .sizeofExpr i.unplaced x.unplaced
  | .comma i x y => .comma i.unplaced x.unplaced y.unplaced
  | .invalid i => .invalid i.unplaced

def unplacedAll : List Expr → List Expr
  | [] => []
  | e :: es => e.unplaced :: unplacedAll es

end

theorem Expr.ty_unplaced (e : Expr) : e.unplaced.ty = e.ty := by
  cases e <;> rfl

theorem Expr.isLvalue_unplaced : ∀ e : Expr, e.unplaced.isLvalue = e.isLvalue
  | .ident .. | .index .. | .int .. | .float .. | .char .. | .str .. | .bool .. | .null .. | .binary ..
  | .assign .. | .conditional .. | .call .. | .cast .. | .sizeofType .. | .sizeofExpr .. | .comma .. | .invalid .. => rfl
  | .unary _ op _ => by cases op <;> rfl
  | .member _ x _ arrow => congrArg (arrow || ·) (Expr.isLvalue_unplaced x)

end Typed

/-! ## Code that does not depend on places in the source -/

namespace Lowering

variable {α β : Type} {p p' q q' : Piece} {T : TypeTable}

theorem bind_ok_iff {m : Gen α} {f : α → Gen β} {g g'' : CodeModule} {y : β} :
    (m >>= f) g = .ok (y, g'') ↔ ∃ x g', m g = .ok (x, g') ∧ f x g' = .ok (y, g'') := by
  refine ⟨bind_eq_ok, fun ⟨x, g', first, second⟩ => ?_⟩
  show StateT.bind m f g = _
  unfold StateT.bind
  rw [first]
  exact second

/-- The productions yield the same. They may have different errors. -/
def SameCode (m m' : Gen α) : Prop := ∀ g r, m g = .ok r ↔ m' g = .ok r

namespace SameCode

theorem refl (m : Gen α) : SameCode m m := fun _ _ => .rfl

theorem fail {problem problem' : LoweringProblem} {span span' : Span} :
    SameCode (fail problem span : Gen α) (Lowering.fail problem' span') := fun _ _ => ⟨nofun, nofun⟩

theorem bind {m m' : Gen α} {f f' : α → Gen β} (hm : SameCode m m') (hf : ∀ x, SameCode (f x) (f' x)) :
    SameCode (m >>= f) (m' >>= f') := by
  intro g ⟨y, g''⟩
  simp only [bind_ok_iff, hm _ _, hf _ _ _]

/-- The place of an option that the analysis makes sure of matters if it is missing. -/
theorem need {x : Option α} {problem problem' : LoweringProblem} {span span' : Span} {f f' : α → Gen β}
    (h : ∀ y, SameCode (f y) (f' y)) : SameCode (need x problem span >>= f) (Lowering.need x problem' span' >>= f') := by
  cases x with
  | none => exact .fail
  | some y => exact h y

end SameCode

/-- The pieces yield the same code wherever they stand. -/
def Piece.SameCode (p q : Piece) : Prop := ∀ start, Lowering.SameCode (p start) (q start)

namespace Piece.SameCode

theorem refl (p : Piece) : p.SameCode p := fun _ => .refl _

theorem symm (h : p.SameCode q) : q.SameCode p := fun start g r => (h start g r).symm

theorem fail {problem problem' : LoweringProblem} {span span' : Span} :
    (Piece.gen (fail problem span)).SameCode (.gen (Lowering.fail problem' span')) := fun _ => .fail

theorem gen {m m' : Gen (List Instr)} (h : Lowering.SameCode m m') : Piece.SameCode (.gen m) (.gen m') := fun _ => h

theorem append (hp : p.SameCode p') (hq : q.SameCode q') : (p ++ q).SameCode (p' ++ q') := by
  intro start
  show Lowering.SameCode (Piece.append p q start) (Piece.append p' q' start)
  exact .bind (hp start) fun c => .bind (hq _) fun _ => .refl _

theorem ite {c : Prop} [Decidable c] (hp : p.SameCode p') (hq : q.SameCode q') :
    (if c then p else q).SameCode (if c then p' else q') := by
  split
  · exact hp
  · exact hq

theorem logical (op : BinaryOp) (hp : p.SameCode p') (hq : q.SameCode q') :
    (logical op p q).SameCode (Lowering.logical op p' q') :=
  fun start => .bind (hp start) fun _ => .bind (hq _) fun _ => .refl _

theorem conditional {c c' : Piece} (hc : c.SameCode c') (hp : p.SameCode p') (hq : q.SameCode q') :
    (conditional c p q).SameCode (Lowering.conditional c' p' q') :=
  fun start => .bind (hc start) fun _ => .bind (hp _) fun _ => .bind (hq _) fun _ => .refl _

theorem load (ty : Ty) (span span' : Span) : (load T ty span).SameCode (Lowering.load T ty span') := by
  refine .gen ?_
  split
  · exact .refl _
  · exact .need fun _ => .refl _

theorem discard (ty : Ty) (hp : p.SameCode p') : (discard ty p).SameCode (Lowering.discard ty p') := .ite hp (hp.append (.refl _))

theorem branch (target ty : Ty) (hp : p.SameCode p') : (rvalue.branch target ty p).SameCode (rvalue.branch target ty p') :=
  .ite (hp.discard ty) (hp.append (.refl _))

theorem elementAddress (elem a b : Ty) (hp : p.SameCode p') (hq : q.SameCode q') :
    (elementAddress T elem a b p q).SameCode (Lowering.elementAddress T elem a b p' q') :=
  .ite ((hp.append hq).append (.refl _)) ((hq.append hp).append (.refl _))

theorem fieldOffset (record : Option Ty) (field : String) (span span' : Span) :
    (fieldOffset T record field span).SameCode (Lowering.fieldOffset T record field span') := by
  refine .gen ?_
  split
  · exact .need fun _ => .refl _
  · exact .fail

theorem variableAddress (binding : Binding) (problem : LoweringProblem) (span span' : Span) :
    (variableAddress binding problem span).SameCode (Lowering.variableAddress binding problem span') := by
  refine .gen ?_
  split
  · exact .refl _
  · exact .refl _
  · exact .fail

theorem binary (op : BinaryOp) (a b : Ty) (i : Info) (hp : p.SameCode p') (hq : q.SameCode q') :
    (binary T op a b i p q).SameCode (Lowering.binary T op a b i.unplaced p' q') := by
  unfold Lowering.binary
  refine .ite (.logical op hp hq) ?_
  dsimp only
  rw [show operation T op a.decay b.decay i.unplaced.ty = operation T op a.decay b.decay i.ty from rfl]
  split
  · exact (hp.append hq).append (.refl _)
  · exact (hq.append hp).append (.refl _)
  · exact (hp.append hq).append (.refl _)
  · refine (((hp.append (.refl _)).append hq).append (.refl _)).append (.gen ?_)
    exact .need fun _ => .need fun _ => .refl _

theorem compound (op : BinaryOp) (kind : Scalar) (a b : Ty) (span span' : Span) (hp : p.SameCode p') (hq : q.SameCode q') :
    (compound T op kind a b span p q).SameCode (Lowering.compound T op kind a b span' p' q') := by
  have old := hp.append (.refl (.code [.dup, .load kind]))
  refine .ite (((old.append hq).append (.refl _)).append (.refl _)) ?_
  refine (((old.append (.refl _)).append hq).append (.refl _)).append (.gen ?_)
  exact .need fun _ => .need fun _ => .refl _

theorem assign (op : Option BinaryOp) (a b : Ty) (span span' : Span) (hp : p.SameCode p') (hq : q.SameCode q') :
    (assign T op a b span p q).SameCode (Lowering.assign T op a b span' p' q') := by
  refine .ite ?_ ?_
  · cases op with
    | none => exact (hp.append hq).append (.refl _)
    | some op => exact .fail
  · split
    · exact .fail
    · cases op with
      | none => exact (hp.append hq).append (.refl _)
      | some op => exact .compound op _ a b span span' hp hq

theorem increment (ty : Ty) (up post : Bool) (span span' : Span) (hp : p.SameCode p') :
    (increment T ty up post span p).SameCode (Lowering.increment T ty up post span' p') :=
  hp.append (.gen (.need fun _ => .refl _))

theorem unary (op : UnaryOp) (ty : Ty) (i : Info) (hp : p.SameCode p') :
    (unary T op ty i p).SameCode (Lowering.unary T op ty i.unplaced p') := by
  cases op with
  | neg | bitNot => exact (hp.append (.refl _)).append (.gen (.need fun _ => .refl _))
  | not => exact hp.append (.gen (.need fun _ => .refl _))
  | deref => exact hp.append (.load _ _ _)
  | plus | addrOf | preInc | preDec | postInc | postDec => exact hp.append (.refl _)

/-- Arguments with the same types and the same code. -/
def Arguments : List (Expr × Piece) → List (Expr × Piece) → Prop :=
  List.Forall₂ fun x y => x.1.ty = y.1.ty ∧ x.2.SameCode y.2

theorem passed (params : List Ty) {xs ys : List (Expr × Piece)} (h : Arguments xs ys) :
    (passed params xs).SameCode (Lowering.passed params ys) := by
  induction h generalizing params with
  | nil => exact .refl _
  | @cons x y xs ys first rest ih =>
    obtain ⟨ty, value⟩ := first
    unfold Lowering.passed
    rw [ty]
    refine .append ?_ (ih _)
    split
    · exact .fail
    · exact value.append (.refl _)

theorem call (a : Analysis) (i : Info) (name : String) (target : Binding) {xs ys : List (Expr × Piece)}
    (h : Arguments xs ys) : (call a i name target xs).SameCode (Lowering.call a i.unplaced name target ys) := by
  have count : xs.length = ys.length := h.length_eq
  unfold Lowering.call
  rw [count]
  split
  · split
    · exact (passed _ h).append (.refl _)
    · exact .fail
  · cases h with
    | nil => exact .fail
    | @cons x y xs ys first rest =>
      obtain ⟨ty, value⟩ := first
      dsimp only
      rw [ty]
      exact value.append (.refl _)
  · cases h with
    | nil => exact .fail
    | cons first rest => exact first.2.append (.refl _)
  · split
    · exact (passed _ h).append (.refl _)
    · exact .fail
  · exact .fail

end Piece.SameCode

variable {a : Analysis}

mutual

theorem sameCode_lvalue : ∀ e : Expr, (lvalue a e).SameCode (lvalue a e.unplaced)
  | .ident .. => .variableAddress _ _ _ _
  | .unary _ op e => by
    cases op with
    | deref => exact sameCode_rvalue e
    | _ => exact .fail
  | .index i x y => by
    unfold Expr.unplaced lvalue
    rw [x.ty_unplaced, y.ty_unplaced]
    exact .elementAddress _ _ _ (sameCode_rvalue x) (sameCode_rvalue y)
  | .member i x field true => by
    unfold Expr.unplaced lvalue
    rw [x.ty_unplaced]
    exact (sameCode_rvalue x).append (.fieldOffset _ _ _ _)
  | .member i x field false => by
    unfold Expr.unplaced lvalue
    rw [x.ty_unplaced]
    exact (sameCode_lvalue x).append (.fieldOffset _ _ _ _)
  | .str .. => .refl _
  | .int .. | .float .. | .char .. | .bool .. | .null _ | .binary .. | .assign .. | .conditional .. | .call .. | .cast ..
  | .sizeofType .. | .sizeofExpr .. | .comma .. | .invalid _ => .fail

theorem sameCode_rvalue : ∀ e : Expr, (rvalue a e).SameCode (rvalue a e.unplaced)
  | .int .. | .float .. | .char .. | .bool .. | .null _ | .sizeofType .. | .str .. => .refl _
  | .sizeofExpr _ e => by
    unfold Expr.unplaced rvalue
    rw [e.ty_unplaced]
    exact .refl _
  | .ident _ _ binding => by
    cases binding with
    | enumConst v => exact .refl _
    | _ => exact .append (.variableAddress _ _ _ _) (.load _ _ _)
  | .unary i op e => by
    have applied (op : UnaryOp) : (unary a.types op e.ty i (rvalue a e)).SameCode
        (unary a.types op e.unplaced.ty i.unplaced (rvalue a e.unplaced)) :=
      e.ty_unplaced.symm ▸ .unary op e.ty i (sameCode_rvalue e)
    have moved (up post : Bool) : (increment a.types e.ty up post i.span (lvalue a e)).SameCode
        (increment a.types e.unplaced.ty up post i.unplaced.span (lvalue a e.unplaced)) :=
      e.ty_unplaced.symm ▸ .increment e.ty up post _ _ (sameCode_lvalue e)
    cases op with
    | addrOf => exact sameCode_lvalue e
    | preInc => exact moved true false
    | preDec => exact moved false false
    | postInc => exact moved true true
    | postDec => exact moved false true
    | neg => exact applied .neg
    | bitNot => exact applied .bitNot
    | not => exact applied .not
    | deref => exact applied .deref
    | plus => exact applied .plus
  | .binary i op x y => by
    unfold Expr.unplaced rvalue
    rw [x.ty_unplaced, y.ty_unplaced]
    exact .binary op _ _ i (sameCode_rvalue x) (sameCode_rvalue y)
  | .assign i op x y => by
    unfold Expr.unplaced rvalue
    rw [x.ty_unplaced, y.ty_unplaced]
    exact .assign op _ _ _ _ (sameCode_lvalue x) (sameCode_rvalue y)
  | .conditional i c x y => by
    unfold Expr.unplaced rvalue
    rw [x.ty_unplaced, y.ty_unplaced]
    exact .conditional (sameCode_rvalue c) (.branch _ _ (sameCode_rvalue x)) (.branch _ _ (sameCode_rvalue y))
  | .call i name target args => .call a i name target (sameCode_rvalues args)
  | .index i x y => by
    unfold Expr.unplaced rvalue
    rw [x.ty_unplaced, y.ty_unplaced]
    exact (Piece.SameCode.elementAddress _ _ _ (sameCode_rvalue x) (sameCode_rvalue y)).append (.load _ _ _)
  | .member i x field true => by
    unfold Expr.unplaced rvalue
    rw [x.ty_unplaced]
    exact ((sameCode_rvalue x).append (.fieldOffset _ _ _ _)).append (.load _ _ _)
  | .member i x field false => by
    unfold Expr.unplaced rvalue
    rw [x.ty_unplaced]
    exact ((sameCode_lvalue x).append (.fieldOffset _ _ _ _)).append (.load _ _ _)
  | .cast _ target e => by
    unfold Expr.unplaced rvalue
    rw [e.ty_unplaced]
    exact .branch target _ (sameCode_rvalue e)
  | .comma _ x y => by
    unfold Expr.unplaced rvalue
    rw [x.ty_unplaced]
    exact .append (.discard _ (sameCode_rvalue x)) (sameCode_rvalue y)
  | .invalid _ => .fail

theorem sameCode_rvalues : ∀ es : List Expr, Piece.SameCode.Arguments (rvalues a es) (rvalues a (Typed.unplacedAll es))
  | [] => .nil
  | e :: es => .cons ⟨e.ty_unplaced.symm, sameCode_rvalue e⟩ (sameCode_rvalues es)

end

end Lowering

/-! ## Code that stands at another position -/

namespace Track

variable {η : Type} (σ : Track η)

/-- Linking makes the same of two instructions, but for jumps, which move with the code around them. -/
def Moves (first first' length : Nat) (i i' : Instr) : Prop :=
  ∀ j j', σ.Patched i j → σ.Patched i' j' → j.Moved first first' length j'

/-- At any two positions, linking makes the same of the code of the piece. -/
def Movable (p : Piece) : Prop :=
  ∀ start start' g g' h h' is is', p start g = .ok (is, g') → p start' h = .ok (is', h') → σ.Knows g' → σ.Knows h' →
    List.Forall₂ (σ.Moves start start' is.length) is is'

variable {σ} {first first' length : Nat} {i i' : Instr} {p q : Piece}

namespace Moves

theorem goesOn (goesOn : i.goesOn) : σ.Moves first first' length i i := by
  intro j j' patched patched'
  cases patched.symm.trans patched'
  have becomes := becomes_of_patch patched
  unfold Instr.goesOn at goesOn
  rw [Bool.and_eq_true, Option.isNone_iff_eq_none, Bool.not_eq_true'] at goesOn
  exact .same (becomes.target.trans goesOn.1) (becomes.returns.trans goesOn.2)

theorem jump {k : Nat} (inside : k ≤ length) : σ.Moves first first' length (.jump (first + k)) (.jump (first' + k)) := by
  rintro _ _ ⟨⟩ ⟨⟩
  exact .jump inside

theorem test {k : Nat} {c : Prop} [Decidable c] (inside : k ≤ length) :
    σ.Moves first first' length (if c then .jumpIfFalse (first + k) else .jumpIfTrue (first + k))
      (if c then .jumpIfFalse (first' + k) else .jumpIfTrue (first' + k)) := by
  split
  · rintro _ _ ⟨⟩ ⟨⟩
    exact .jumpIfFalse inside
  · rintro _ _ ⟨⟩ ⟨⟩
    exact .jumpIfTrue inside

theorem jumpIfFalse {k : Nat} (inside : k ≤ length) :
    σ.Moves first first' length (.jumpIfFalse (first + k)) (.jumpIfFalse (first' + k)) := by
  rintro _ _ ⟨⟩ ⟨⟩
  exact .jumpIfFalse inside

/-- A literal has one address, whatever numbers it has in two modules. -/
theorem string {k k' : Nat} {p : UInt64} (found : σ.strings[k]? = some p) (found' : σ.strings[k']? = some p) :
    σ.Moves first first' length (.pushStr k) (.pushStr k') := by
  have patched {k : Nat} {j : Instr} (found : σ.strings[k]? = some p) (h : σ.Patched (.pushStr k) j) : j = .pushPtr p := by
    have address : Machine.stringAddress σ.strings k = .ok p := by
      unfold Machine.stringAddress
      rw [found]
    have h : (do return .pushPtr (← Machine.stringAddress σ.strings k) : Except Fault Instr) = .ok j := h
    rw [address] at h
    cases h
    rfl
  intro j j' left right
  rw [patched found left, patched found' right]
  exact .same rfl rfl

/-- The instructions are in a larger piece of code. -/
theorem widen {n length' : Nat} (h : σ.Moves (first + n) (first' + n) length i i') (room : n + length ≤ length') :
    σ.Moves first first' length' i i' := by
  intro j j' patched patched'
  cases h j j' patched patched' with
  | same straight stays => exact .same straight stays
  | jump inside =>
    rw [Nat.add_assoc, Nat.add_assoc]
    exact .jump (by omega)
  | jumpIfFalse inside =>
    rw [Nat.add_assoc, Nat.add_assoc]
    exact .jumpIfFalse (by omega)
  | jumpIfTrue inside =>
    rw [Nat.add_assoc, Nat.add_assoc]
    exact .jumpIfTrue (by omega)

end Moves

/-- A part of the code, which begins with its instruction `n`. -/
theorem forall₂_widen {is is' : List Instr} {n length' : Nat}
    (h : List.Forall₂ (σ.Moves (first + n) (first' + n) is.length) is is') (room : n + is.length ≤ length') :
    List.Forall₂ (σ.Moves first first' length') is is' := h.imp fun _ _ moves => moves.widen room

theorem movable_quiet {m : Gen (List Instr)} (quiet : Quiet m) : σ.Movable (.gen m) := by
  intro start start' g g' h h' is is' run run' _ _
  obtain ⟨-, plain, again⟩ := quiet g is g' run
  have run' : m h = .ok (is', h') := run'
  rw [again h] at run'
  cases run'
  exact List.forall₂_same.mpr fun i mem => .goesOn (Instr.goesOn_of_isPlain (plain i mem))

theorem movable_string (s : String) : σ.Movable (stringAddress s) := by
  intro start start' g g' h h' is is' run run' knows knows'
  cases run
  cases run'
  obtain ⟨p, numbered, found⟩ := knows _ s (g.intern_keeps s).2
  obtain ⟨p', numbered', found'⟩ := knows' _ s (h.intern_keeps s).2
  cases found.symm.trans found'
  exact .cons (.string numbered numbered') .nil

theorem Movable.append (hp : σ.Movable p) (hq : σ.Movable q) (keeps : q.Keeps) : σ.Movable (p ++ q) := by
  intro start start' g g' h h' is is' run run' knows knows'
  obtain ⟨c, d, g₁, hc, hd, rfl⟩ := append_eq_ok run
  obtain ⟨c', d', h₁, hc', hd', rfl⟩ := append_eq_ok run'
  have left := hp _ _ _ _ _ _ _ _ hc hc' (knows.of_keeps (keeps _ _ _ _ hd)) (knows'.of_keeps (keeps _ _ _ _ hd'))
  rw [← left.length_eq] at hd'
  have right := hq _ _ _ _ _ _ _ _ hd hd' knows knows'
  rw [List.length_append]
  exact List.rel_append (forall₂_widen (n := 0) left (by omega)) (forall₂_widen right (Nat.le_refl _))

theorem movable_logical (op : BinaryOp) (hp : σ.Movable p) (hq : σ.Movable q) (keeps : q.Keeps) :
    σ.Movable (logical op p q) := by
  intro start start' g g' h h' is is' run run' knows knows'
  obtain ⟨c, g₁, hc, run⟩ := bind_eq_ok run
  obtain ⟨d, g₂, hd, run⟩ := bind_eq_ok run
  obtain ⟨c', h₁, hc', run'⟩ := bind_eq_ok run'
  obtain ⟨d', h₂, hd', run'⟩ := bind_eq_ok run'
  cases run
  cases run'
  have left := hp _ _ _ _ _ _ _ _ hc hc' (knows.of_keeps (keeps _ _ _ _ hd)) (knows'.of_keeps (keeps _ _ _ _ hd'))
  rw [← left.length_eq] at hd' ⊢
  have right := hq _ _ _ _ _ _ _ _ hd hd' knows knows'
  rw [← right.length_eq]
  have short (s : Nat) : s + c.length + 1 + d.length + 3 = s + (c.length + 1 + d.length + 3) := by omega
  simp only [short, List.length_append, List.length_cons, List.length_nil]
  have decides : σ.Moves start start' (c.length + (d.length + 1) + (0 + 1 + 1 + 1 + 1)) _ _ :=
    .test (c := op = .and) (k := c.length + 1 + d.length + 3) (by omega)
  refine List.rel_append (List.rel_append (forall₂_widen (n := 0) left (by omega)) (.cons decides ?_)) ?_
  · exact forall₂_widen (n := c.length + 1) right (by omega)
  · refine .cons decides (.cons (.goesOn rfl) (.cons ?_ (.cons (.goesOn rfl) .nil)))
    exact .jump (k := c.length + 1 + d.length + 3 + 1) (by omega)

theorem movable_conditional {t : Piece} (ht : σ.Movable t) (hp : σ.Movable p) (hq : σ.Movable q) (keeps : p.Keeps)
    (keeps' : q.Keeps) : σ.Movable (conditional t p q) := by
  intro start start' g g' h h' is is' run run' knows knows'
  obtain ⟨c, g₁, hc, run⟩ := bind_eq_ok run
  obtain ⟨d, g₂, hd, run⟩ := bind_eq_ok run
  obtain ⟨e, g₃, he, run⟩ := bind_eq_ok run
  obtain ⟨c', h₁, hc', run'⟩ := bind_eq_ok run'
  obtain ⟨d', h₂, hd', run'⟩ := bind_eq_ok run'
  obtain ⟨e', h₃, he', run'⟩ := bind_eq_ok run'
  cases run
  cases run'
  have before := knows.of_keeps (keeps' _ _ _ _ he)
  have before' := knows'.of_keeps (keeps' _ _ _ _ he')
  have test := ht _ _ _ _ _ _ _ _ hc hc' (before.of_keeps (keeps _ _ _ _ hd)) (before'.of_keeps (keeps _ _ _ _ hd'))
  rw [← test.length_eq] at hd' he' ⊢
  have yes := hp _ _ _ _ _ _ _ _ hd hd' before before'
  rw [← yes.length_eq] at he' ⊢
  have no := hq _ _ _ _ _ _ _ _ he he' knows knows'
  rw [← no.length_eq]
  have other (s : Nat) : s + c.length + 1 + d.length + 1 = s + (c.length + 1 + d.length + 1) := by omega
  simp only [other, Nat.add_assoc _ _ e.length, List.length_append, List.length_cons] at no ⊢
  refine List.rel_append (List.rel_append (forall₂_widen (n := 0) test (by omega)) ?_) ?_
  · exact .cons (.jumpIfFalse (by omega)) (forall₂_widen (n := c.length + 1) yes (by omega))
  · exact .cons (.jump (by omega)) (forall₂_widen no (by omega))

theorem Movable.of_composed {L : Nat → Prop} (h : p.Composed L) : σ.Movable p := by
  induction h with
  | quiet h => exact movable_quiet h
  | slot _ =>
    intro start start' g g' h h' is is' run run' _ _
    cases run
    cases run'
    exact .cons (.goesOn rfl) .nil
  | string s => exact movable_string s
  | append _ kq hp hq => exact hp.append hq kq.keeps
  | logical op _ kq hp hq => exact movable_logical op hp hq kq.keeps
  | conditional _ kp kq hc hp hq => exact movable_conditional hc hp hq kp.keeps kq.keeps

/-! ## Stretches of linked code -/

variable (σ) in
/-- The code of the piece stands, linked, in a stretch of the function. -/
def Stands (p : Piece) (f : CodeFunction) (s : Segment) : Prop :=
  ∃ g is g', p s.first g = .ok (is, g') ∧ σ.Knows g' ∧ s.last = s.first + is.length ∧ Shows σ.Patched f.code s.first is

variable {f f' : CodeFunction} {s s' : Segment}

/-- What one piece made of two places does the same in both. -/
theorem Stands.twin (movable : σ.Movable p) (h : σ.Stands p f s) (h' : σ.Stands p f' s') (below : List Frame)
    (base operandBase : Nat) : ∃ t : Twin, t.below = below ∧ t.base = base ∧ t.operandBase = operandBase ∧
      t.left = ⟨f, s.first⟩ ∧ t.right = ⟨f', s'.first⟩ ∧ s.last = s.first + t.length ∧ s'.last = s'.first + t.length := by
  obtain ⟨g, is, g₁, run, knows, last, shows_⟩ := h
  obtain ⟨g', is', g₁', run', knows', last', shows_'⟩ := h'
  have moves := movable _ _ _ _ _ _ _ _ run run' knows knows'
  refine ⟨⟨below, base, operandBase, is.length, ⟨f, s.first⟩, ⟨f', s'.first⟩, fun k inside => ?_⟩, rfl, rfl, rfl, rfl, rfl,
    last, moves.length_eq ▸ last'⟩
  have inside' : k < is'.length := moves.length_eq ▸ inside
  obtain ⟨j, found, patched⟩ := shows_ k _ (List.getElem?_eq_getElem inside)
  obtain ⟨j', found', patched'⟩ := shows_' k _ (List.getElem?_eq_getElem inside')
  exact ⟨j, j', found, found', moves.get inside inside' j j' patched patched'⟩

end Track

namespace CodeModule.Contains

variable {c : CodeModule} {p q : Piece} {f : CodeFunction} {s : Segment}

theorem sameCode (h : c.Contains p f s) (same : p.SameCode q) : c.Contains q f s := by
  obtain ⟨function, g, is, g', run, rest⟩ := h
  exact ⟨function, g, is, g', (same _ _ _).mp run, rest⟩

theorem append (h : c.Contains (p ++ q) f s) (keeps : q.Keeps) :
    ∃ mid, c.Contains p f ⟨s.first, mid⟩ ∧ c.Contains q f ⟨mid, s.last⟩ := by
  obtain ⟨function, g, is, g', run, strings, last, shows_⟩ := h
  obtain ⟨d, e, g₁, hp, hq, rfl⟩ := append_eq_ok run
  rw [List.length_append, ← Nat.add_assoc] at last
  refine ⟨s.first + d.length, ⟨function, g, d, g₁, hp, ?_, rfl, shows_.left⟩, ⟨function, g₁, e, g', hq, strings, last, shows_.right⟩⟩
  exact (keeps _ _ _ _ hq).trans strings

theorem ordered (h : c.Contains p f s) : s.first ≤ s.last := by
  obtain ⟨-, g, is, g', -, -, last, -⟩ := h
  omega

/-- The code of a linked module refers to objects and literals where they lie in the machine. -/
theorem stands {η : Type} {σ : Track η} (h : c.Contains p f s)
    (literals : ∀ (k : Nat) (text : String), c.strings[k]? = some text →
      ∃ p, σ.strings[k]? = some p ∧ σ.linked.strings.get? text = some p)
    (finds : ∀ f ∈ c.functions, σ.linked.FindsLinked σ.strings f) {f' : CodeFunction}
    (found : σ.linked.functions.get? f.name = some f') : σ.Stands p f' s := by
  obtain ⟨function, g, is, g', run, strings, last, shows_⟩ := h
  obtain ⟨code, patched, linked⟩ := finds f function
  cases linked.symm.trans found
  exact ⟨g, is, g', run, fun k text known => literals k text (strings k text known), last, shows_patched shows_ patched⟩

end CodeModule.Contains

end IncrementalC
