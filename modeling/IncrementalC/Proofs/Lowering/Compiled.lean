import IncrementalC.Proofs.Analysis.Definite
import IncrementalC.Proofs.Lowering.Composed

/-!
# Expressions with code

`Piece.Compiles p`: the piece yields code at some place. The code of an expression holds the code of its operands
(`Expr.Compiles.typeOperands`), and a name that is looked up at run time has none. So the type of an accepted
expression with code is definite, whether a handler answers for unknown names or not
(`Expr.Accepted.definite_of_compiles`).
-/
namespace IncrementalC
set_option autoImplicit false
open Typed (Expr Binding)

namespace Lowering

namespace Piece

def Compiles (p : Piece) : Prop := ∃ start g r, p start g = .ok r

variable {p q : Piece}

theorem Compiles.both (h : (p ++ q).Compiles) : p.Compiles ∧ q.Compiles := by
  obtain ⟨start, g, ⟨is, g'⟩, run⟩ := h
  have run : Piece.append p q start g = .ok (is, g') := run
  obtain ⟨c, g₁, first, run⟩ := bind_eq_ok run
  obtain ⟨d, g₂, second, -⟩ := bind_eq_ok run
  exact ⟨⟨_, _, _, first⟩, ⟨_, _, _, second⟩⟩

theorem Compiles.left (h : (p ++ q).Compiles) : p.Compiles := h.both.1

theorem not_compiles_fail (problem : LoweringProblem) (span : Span) : ¬(Piece.gen (fail problem span)).Compiles := by
  rintro ⟨start, g, r, run⟩
  cases run

end Piece

open Piece

variable {types : TypeTable} {p q : Piece}

theorem compiles_logical {op : BinaryOp} (h : (logical op p q).Compiles) : p.Compiles ∧ q.Compiles := by
  obtain ⟨start, g, ⟨is, g'⟩, run⟩ := h
  obtain ⟨c, g₁, first, run⟩ := bind_eq_ok run
  obtain ⟨d, g₂, second, -⟩ := bind_eq_ok run
  exact ⟨⟨_, _, _, first⟩, ⟨_, _, _, second⟩⟩

theorem compiles_conditional {c : Piece} (h : (conditional c p q).Compiles) : c.Compiles ∧ p.Compiles ∧ q.Compiles := by
  obtain ⟨start, g, ⟨is, g'⟩, run⟩ := h
  obtain ⟨cs, g₁, test, run⟩ := bind_eq_ok run
  obtain ⟨yes, g₂, first, run⟩ := bind_eq_ok run
  obtain ⟨no, g₃, second, -⟩ := bind_eq_ok run
  exact ⟨⟨_, _, _, test⟩, ⟨_, _, _, first⟩, ⟨_, _, _, second⟩⟩

theorem compiles_discard {ty : Ty} (h : (discard ty p).Compiles) : p.Compiles := by
  unfold discard at h
  split at h
  · exact h
  · exact h.left

theorem compiles_branch {target ty : Ty} (h : (rvalue.branch target ty p).Compiles) : p.Compiles := by
  unfold rvalue.branch at h
  split at h
  · exact compiles_discard h
  · exact h.left

theorem compiles_elementAddress {elem a b : Ty} (h : (elementAddress types elem a b p q).Compiles) :
    p.Compiles ∧ q.Compiles := by
  unfold elementAddress at h
  split at h
  · exact h.left.both
  · exact h.left.both.symm

theorem compiles_binary {op : BinaryOp} {a b : Ty} {i : Typed.Info} (h : (binary types op a b i p q).Compiles) :
    p.Compiles ∧ q.Compiles := by
  unfold binary at h
  split at h
  · exact compiles_logical h
  · dsimp only at h
    split at h
    · exact h.left.both
    · exact h.left.both.symm
    · exact h.left.both
    · have operands := h.left.left.both
      exact ⟨operands.1.left, operands.2⟩

theorem compiles_assign {op : Option BinaryOp} {a b : Ty} {span : Span} (h : (assign types op a b span p q).Compiles) :
    p.Compiles := by
  unfold assign at h
  split at h
  · split at h
    · exact absurd h (not_compiles_fail _ _)
    · exact h.left.left
  split at h
  · exact absurd h (not_compiles_fail _ _)
  split at h
  · exact h.left.left
  · unfold compound at h
    dsimp only at h
    split at h
    · exact h.left.left.left.left
    · exact h.left.left.left.left.left

theorem compiles_unary {op : UnaryOp} {ty : Ty} {i : Typed.Info} (h : (unary types op ty i p).Compiles) :
    p.Compiles := by
  cases op with
  | neg | bitNot => exact h.left.left
  | _ => exact h.left

end Lowering

/-! ## Expressions -/

namespace Typed
open Lowering

variable {a : Analysis}

/-- The expression has code, or its address has. -/
def Expr.Compiles (a : Analysis) (e : Expr) : Prop := (rvalue a e).Compiles ∨ (lvalue a e).Compiles

theorem Expr.Compiles.of_lvalue {e : Expr} (h : (lvalue a e).Compiles) : e.Compiles a := .inr h

theorem Expr.Compiles.of_rvalue {e : Expr} (h : (rvalue a e).Compiles) : e.Compiles a := .inl h

/-- The code of an expression holds the code of its operands. -/
theorem Expr.Compiles.typeOperands {e : Expr} (h : e.Compiles a) : ∀ x ∈ e.typeOperands, x.Compiles a := by
  have one {x : Expr} (hx : x.Compiles a) : ∀ z ∈ [x], z.Compiles a := List.forall_mem_singleton.mpr hx
  have two {x y : Expr} (h : (rvalue a x).Compiles ∧ (rvalue a y).Compiles) : ∀ z ∈ [x, y], z.Compiles a :=
    List.forall_mem_cons.mpr ⟨.of_rvalue h.1, one (.of_rvalue h.2)⟩
  -- an expression that has no address
  have only {x : Expr} {p : Piece} (h : p.Compiles ∨ (Piece.gen (fail .notAddressable x.span)).Compiles) : p.Compiles :=
    h.resolve_right (Piece.not_compiles_fail _ _)
  cases e with
  | unary i op x =>
    refine one ?_
    have acting (value : (Lowering.unary a.types op x.ty i (rvalue a x)).Compiles) : x.Compiles a :=
      .of_rvalue (compiles_unary value)
    cases op with
    | addrOf => exact .of_lvalue (only (x := .unary i .addrOf x) h)
    | preInc => exact .of_lvalue (only (x := .unary i .preInc x) h).left
    | preDec => exact .of_lvalue (only (x := .unary i .preDec x) h).left
    | postInc => exact .of_lvalue (only (x := .unary i .postInc x) h).left
    | postDec => exact .of_lvalue (only (x := .unary i .postDec x) h).left
    | deref => exact h.elim acting .of_rvalue
    | neg => exact acting (only (x := .unary i .neg x) h)
    | plus => exact acting (only (x := .unary i .plus x) h)
    | bitNot => exact acting (only (x := .unary i .bitNot x) h)
    | not => exact acting (only (x := .unary i .not x) h)
  | binary i op x y => exact two (compiles_binary (only (x := .binary i op x y) h))
  | assign i op x y => exact one (.of_lvalue (compiles_assign (only (x := .assign i op x y) h)))
  | conditional i c x y =>
    obtain ⟨hc, hx, hy⟩ := compiles_conditional (only (x := .conditional i c x y) h)
    exact List.forall_mem_cons.mpr ⟨.of_rvalue hc, two ⟨compiles_branch hx, compiles_branch hy⟩⟩
  | index i x y => exact two (h.elim (fun value => compiles_elementAddress value.left) compiles_elementAddress)
  | member i x field arrow =>
    cases arrow with
    | true => exact one (.of_rvalue (h.elim (fun value => value.left.left) Piece.Compiles.left))
    | false => exact one (.of_lvalue (h.elim (fun value => value.left.left) Piece.Compiles.left))
  | cast i target x =>
    refine one (.of_rvalue ?_)
    have value : (rvalue.branch target x.ty (rvalue a x)).Compiles := only (x := .cast i target x) h
    exact compiles_branch value
  | comma i x y =>
    have both := (only (x := .comma i x y) h).both
    exact two ⟨compiles_discard both.1, both.2⟩
  | _ => exact nofun

/-- A name that is looked up at run time has no code. -/
theorem Expr.Compiles.names_known {e : Expr} (h : e.Compiles a) : e.binding? ≠ some .placeholder := by
  cases e with
  | ident i name binding =>
    rintro ⟨⟩
    rcases h with value | place
    · exact Piece.not_compiles_fail _ _ value.left
    · exact Piece.not_compiles_fail _ _ place
  | call i name target args =>
    rintro ⟨⟩
    rcases h with value | place
    · exact Piece.not_compiles_fail _ _ value
    · exact Piece.not_compiles_fail _ _ place
  | _ => exact nofun

theorem Expr.Accepted.definite_of_compiles {e : Expr} (h : e.Accepted a) (compiles : e.Compiles a) : e.ty.Definite := by
  induction e using Expr.typeOperands_induction with
  | step e ih =>
    exact h.definite_of_operands (fun x mem => ih x mem (h.typeOperands x mem) (compiles.typeOperands x mem))
      compiles.names_known

end Typed
end IncrementalC
