import IncrementalC.Proofs.Token.Word
import IncrementalC.Syntax.Cursor

/-!
# What parsed trees carry

`Written` says of a tree what the parser makes sure of: names are words, numbers fit 64 bits, and
the operator of a compound assignment is an arithmetic one. `Reads m P`: on written tokens the
parser `m` leaves the last of them and yields what has `P`.
-/
namespace IncrementalC
set_option autoImplicit false

/-- The operators that a compound assignment may hold. -/
def BinaryOp.isArithmetic (op : BinaryOp) : Bool := !op.isLogical && !op.isComparison

theorem TokenKind.eq_of_isPunct {k : TokenKind} {p : Punct} (h : k.isPunct p) : k = .punct p := by
  cases k with
  | punct q => exact congrArg punct (beq_iff_eq.mp h).symm
  | _ => cases h

namespace Syntax

/-! ## Trees -/

def BaseType.Written : BaseType → Prop
  | .named name | .record _ name | .enum name => IsWord name
  | _ => True

def DeclSpec.Written (s : DeclSpec) : Prop := s.base.Written

mutual

def Expr.Written : Expr → Prop
  | .int _ v _ => v < UInt64.size
  | .ident _ name => IsWord name
  | .unary _ _ e | .sizeofExpr _ e => e.Written
  | .binary _ _ a b | .index _ a b | .comma _ a b => a.Written ∧ b.Written
  | .assign _ op a b => (∀ o, op = some o → o.isArithmetic) ∧ a.Written ∧ b.Written
  | .conditional _ c a b => c.Written ∧ a.Written ∧ b.Written
  | .call _ callee args => callee.Written ∧ WrittenExprs args
  | .member _ e field _ => e.Written ∧ IsWord field
  | .cast _ spec d e => spec.Written ∧ d.Written ∧ e.Written
  | .sizeofType _ spec d => spec.Written ∧ d.Written
  | .float .. | .char .. | .str .. | .bool .. | .null _ => True

def WrittenExprs : List Expr → Prop
  | [] => True
  | e :: es => e.Written ∧ WrittenExprs es

def Declarator.Written : Declarator → Prop
  | .mk name _ suffixes _ => (∀ n, name = some n → IsWord n) ∧ WrittenSuffixes suffixes

def Suffix.Written : Suffix → Prop
  | .unsized => True
  | .sized e => e.Written
  | .function params _ => WrittenParams params

def WrittenSuffixes : List Suffix → Prop
  | [] => True
  | s :: ss => s.Written ∧ WrittenSuffixes ss

def Param.Written : Param → Prop
  | .mk spec d _ => spec.Written ∧ d.Written

def WrittenParams : List Param → Prop
  | [] => True
  | p :: ps => p.Written ∧ WrittenParams ps

end

theorem Expr.withSpan_written {e : Expr} (s : Span) (h : e.Written) : (e.withSpan s).Written := by
  cases e <;> exact h

structure FieldDecl.Written (f : FieldDecl) : Prop where
  spec : f.spec.Written
  declarators : ∀ d ∈ f.declarators, d.Written ∧ d.name.isSome

structure Enumerator.Written (v : Enumerator) : Prop where
  name : IsWord v.name
  value : ∀ e, v.value = some e → e.Written

mutual

def WrittenInit : Initializer → Prop
  | .expr e => e.Written
  | .list items _ => WrittenInits items
  | .construct args _ => ∀ e ∈ args, e.Written

def WrittenInits : List Initializer → Prop
  | [] => True
  | i :: is => WrittenInit i ∧ WrittenInits is

end

def DeclKind.Written : DeclKind → Prop
  | .var name d init => IsWord name ∧ d.Written ∧ ∀ i, init = some i → WrittenInit i
  | .function name d _ | .typedef name d => IsWord name ∧ d.Written
  | .record _ name fields => IsWord name ∧ ∀ fs, fields = some fs → ∀ f ∈ fs, f.Written
  | .enum name variants => (∀ n, name = some n → IsWord n) ∧ ∀ v ∈ variants, v.Written

def Decl.Written (d : Decl) : Prop := d.kind.Written

structure DeclGroup.Written (g : DeclGroup) : Prop where
  spec : g.spec.Written
  decls : ∀ d ∈ g.decls, d.Written

def WrittenForInit : ForInit Expr DeclGroup → Prop
  | .none => True
  | .decl _ g => g.Written
  | .expr _ e => e.Written

mutual

def WrittenStmt : Stmt → Prop
  | .null _ | .break _ | .continue _ => True
  | .expr _ e => e.Written
  | .decl _ g => g.Written
  | .compound _ ss => WrittenStmts ss
  | .ifThen _ c yes => c.Written ∧ WrittenStmt yes
  | .ifElse _ c yes no => c.Written ∧ WrittenStmt yes ∧ WrittenStmt no
  | .while _ c body | .doWhile _ body c => c.Written ∧ WrittenStmt body
  | .for _ init c step body =>
    WrittenForInit init ∧ (∀ e, c = some e → e.Written) ∧ (∀ e, step = some e → e.Written)
      ∧ WrittenStmt body
  | .return _ value => ∀ e, value = some e → e.Written

def WrittenStmts : List Stmt → Prop
  | [] => True
  | s :: ss => WrittenStmt s ∧ WrittenStmts ss

end

structure TopLevel.Written (t : TopLevel) : Prop where
  group : t.group.Written
  body : ∀ s, t.body = some s → WrittenStmt s

/-! ## Parsers -/

def Cursor.Written (c : Cursor) : Prop := ∀ t ∈ c.rest, t.kind.Written

variable {α β : Type}

/-- From written tokens `m` reads something that satisfies `P`, and leaves the last of them. Numbers of
statements are only counted up. -/
def Reads (m : Parser α) (P : α → Prop) : Prop :=
  ∀ c x c', c.Written → m c = .ok (x, c') → c'.rest <:+ c.rest ∧ c.nextId ≤ c'.nextId ∧ P x

theorem Cursor.Written.of_suffix {c c' : Cursor} (h : c.Written) (left : c'.rest <:+ c.rest) : c'.Written :=
  fun t mem => h t (left.subset mem)

theorem Cursor.Written.current {c : Cursor} (h : c.Written) : c.current.kind.Written := by
  unfold Cursor.current
  cases hrest : c.rest with
  | nil => trivial
  | cons t r => exact h t (by rw [hrest]; exact List.mem_cons_self)

theorem Cursor.advance_suffix (c : Cursor) : c.advance.rest <:+ c.rest := by
  unfold Cursor.advance
  split
  · rename_i t r same
    rw [same]
    exact List.suffix_cons t r
  · exact List.suffix_rfl

theorem Cursor.le_nextId_advance (c : Cursor) : c.nextId ≤ c.advance.nextId := by
  unfold Cursor.advance
  split <;> exact Nat.le_refl _

namespace Reads

variable {P Q : α → Prop}

theorem pure {x : α} (hx : P x) : Reads (Pure.pure x) P := by
  intro c y c' hc run
  cases run
  exact ⟨List.suffix_rfl, Nat.le_refl _, hx⟩

theorem bind {m : Parser α} {f : α → Parser β} {R : β → Prop} (hm : Reads m P)
    (hf : ∀ x, P x → Reads (f x) R) : Reads (m >>= f) R := by
  intro c y c' hc run
  obtain ⟨⟨x, c₁⟩, first, second⟩ := Lexer.bind_ok (m := m c) run
  obtain ⟨left, counted, hx⟩ := hm c x c₁ hc first
  obtain ⟨left', counted', hy⟩ := hf x hx c₁ y c' (hc.of_suffix left) second
  exact ⟨left'.trans left, Nat.le_trans counted counted', hy⟩

theorem mapTo {m : Parser α} {f : α → β} {R : β → Prop} (hf : ∀ x, P x → R (f x))
    (hm : Reads m P) : Reads (f <$> m) R :=
  bind hm fun x hx => pure (hf x hx)

/-- An optional part, when it is there. -/
theorem map {m : Parser α} (hm : Reads m P) :
    Reads (some <$> m) fun x => ∀ y, x = some y → P y :=
  mapTo (fun _ hx _ h => Option.some.inj h ▸ hx) hm

theorem throw (e : ParseError) : Reads (MonadExcept.throw e : Parser α) P := by
  intro c x c' _ run
  cases run

theorem throw_bind (e : ParseError) (f : α → Parser β) {R : β → Prop} :
    Reads (MonadExcept.throw e >>= f) R := by
  intro c x c' _ run
  cases run

theorem unexpected (what : Expected) : Reads (Parser.unexpected what : Parser α) P := by
  intro c x c' _ run
  cases run

theorem tooDeep : Reads (Parser.tooDeep : Parser α) P := by
  intro c x c' _ run
  cases run

theorem unexpected_bind (what : Expected) (f : α → Parser β) {R : β → Prop} :
    Reads (Parser.unexpected what >>= f) R := by
  intro c x c' _ run
  cases run

theorem ite {b : Prop} [Decidable b] {m m' : Parser α} (h : b → Reads m P) (h' : ¬b → Reads m' P) :
    Reads (if b then m else m') P := by
  split
  · rename_i hb
    exact h hb
  · rename_i hb
    exact h' hb

theorem get : Reads (MonadState.get : Parser Cursor) Cursor.Written := by
  intro c x c' hc run
  cases run
  exact ⟨List.suffix_rfl, Nat.le_refl _, hc⟩

theorem kind : Reads Parser.kind TokenKind.Written :=
  bind get fun _ hc => pure hc.current

theorem here : Reads Parser.here fun _ => True := bind get fun _ _ => pure trivial

theorem prev : Reads Parser.prev fun _ => True := bind get fun _ _ => pure trivial

theorem isAtPunct (p : Punct) : Reads (Parser.isAtPunct p) fun _ => True :=
  bind get fun _ _ => pure trivial

theorem advance : Reads Parser.advance fun t => t.kind.Written := by
  intro c x c' hc run
  cases run
  exact ⟨c.advance_suffix, c.le_nextId_advance, hc.current⟩

theorem eat (p : Punct) : Reads (Parser.eat p) fun _ => True := by
  intro c x c' hc run
  unfold Parser.eat at run
  split at run
  · cases run
    exact ⟨c.advance_suffix, c.le_nextId_advance, trivial⟩
  · cases run
    exact ⟨List.suffix_rfl, Nat.le_refl _, trivial⟩

theorem expect (p : Punct) : Reads (Parser.expect p) fun _ => True := by
  intro c x c' hc run
  unfold Parser.expect at run
  split at run
  · cases run
    exact ⟨c.advance_suffix, c.le_nextId_advance, trivial⟩
  · cases run

theorem expectKeyword (k : Keyword) : Reads (Parser.expectKeyword k) fun _ => True := by
  intro c x c' hc run
  unfold Parser.expectKeyword at run
  split at run
  · cases run
    exact ⟨c.advance_suffix, c.le_nextId_advance, trivial⟩
  · cases run

theorem ident? : Reads Parser.ident? fun name => ∀ n, name = some n → IsWord n := by
  intro c x c' hc run
  unfold Parser.ident? at run
  split at run
  · rename_i name hname
    cases run
    refine ⟨c.advance_suffix, c.le_nextId_advance, fun n hn => ?_⟩
    cases hn
    have current := hc.current
    unfold Cursor.kind at hname
    rw [hname] at current
    exact current
  · cases run
    exact ⟨List.suffix_rfl, Nat.le_refl _, fun _ h => by cases h⟩

theorem expectIdent : Reads Parser.expectIdent fun x => IsWord x.1 := by
  intro c x c' hc run
  unfold Parser.expectIdent at run
  split at run
  · rename_i name hname
    cases run
    refine ⟨c.advance_suffix, c.le_nextId_advance, ?_⟩
    have current := hc.current
    unfold Cursor.kind at hname
    rw [hname] at current
    exact current
  · cases run

theorem addTypeName (name : String) : Reads (Parser.addTypeName name) fun _ => True := by
  intro c x c' hc run
  cases run
  exact ⟨List.suffix_rfl, Nat.le_refl _, trivial⟩

theorem freshId : Reads Parser.freshId fun _ => True := by
  intro c x c' hc run
  cases run
  exact ⟨List.suffix_rfl, Nat.le_succ _, trivial⟩

theorem pointers_go_suffix (n : Nat) (prev : Span) (rest : List Token) : (Parser.pointers.go n prev rest).2.2 <:+ rest := by
  induction rest generalizing n prev with
  | nil => exact List.suffix_rfl
  | cons t rest ih =>
    unfold Parser.pointers.go
    split
    · exact (ih _ _).trans (List.suffix_cons t rest)
    · split
      · exact (ih _ _).trans (List.suffix_cons t rest)
      · exact List.suffix_rfl

theorem pointers : Reads Parser.pointers fun _ => True := by
  intro c x c' _ run
  cases run
  exact ⟨pointers_go_suffix _ _ _, Nat.le_refl _, trivial⟩

end Reads

end Syntax

end IncrementalC
