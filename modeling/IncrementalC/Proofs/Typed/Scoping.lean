import IncrementalC.Proofs.Typed.EveryPart
import IncrementalC.Types.Table

/-!
# Scopes of a body

* `Scope`, `meaning?`: what the declarations around a place make of a name, by the innermost one.
* `Stmt.Resolved Γ`: with the declarations in `Γ` around a statement, every identifier in it that refers to an
  object of the frame is bound to the slot of that object.
* `stmtLocals`: the objects of the frame that a statement declares; `InRow` puts objects side by side.
-/
namespace IncrementalC.Typed
set_option autoImplicit false

/-! ## Names -/

/-- What a name stands for that is declared in a function. -/
inductive Meaning where
  /-- An object of the frame. -/
  | object (slot : Nat)
  /-- An object that outlives the call, a type or an enumerator. -/
  | lasting
  /-- Declared again: an object or a function of the program. -/
  | linked
deriving DecidableEq

/-- The names that are declared in a block so far, the last one first. -/
abbrev Scope := List (String × Meaning)

/-- What a name means where the scopes `Γ` are open, the innermost one first. -/
def meaning? (Γ : List Scope) (name : String) : Option Meaning := Γ.findSome? (·.lookup name)

def Scope.unlinked (s : Scope) : Scope := s.filter fun x => x.2 ≠ .linked

/-- The identifier is bound to a slot if its innermost declaration is that of an object of the frame, and to the
slot of that object. Only if that declaration is one of an object or a function of the program, the slot may be
that of an object declared further out. -/
structure Binds (Γ : List Scope) (name : String) (binding : Binding) : Prop where
  object : ∀ slot, meaning? Γ name = some (.object slot) → binding = .local slot
  slot : ∀ slot, binding = .local slot → meaning? Γ name = some (.object slot) ∨
    meaning? Γ name = some .linked ∧ meaning? (Γ.map Scope.unlinked) name = some (.object slot)

theorem lookup_unlinked (s : Scope) (name : String) :
    s.lookup name = some .linked ∨ s.unlinked.lookup name = s.lookup name := by
  induction s with
  | nil => exact .inr rfl
  | cons x s ih =>
    obtain ⟨other, m⟩ := x
    by_cases same : name = other
    · subst same
      have here : List.lookup name ((name, m) :: s) = some m := List.lookup_cons_self
      by_cases linked : m = .linked
      · exact .inl (here.trans (congrArg some linked))
      · refine .inr ?_
        rw [Scope.unlinked, List.filter_cons_of_pos (by simpa using linked), here]
        exact List.lookup_cons_self
    · have apart : (name == other) = false := beq_eq_false_iff_ne.mpr same
      have behind (u : Scope) : List.lookup name ((other, m) :: u) = u.lookup name := by
        rw [List.lookup_cons, apart]
      rw [behind]
      refine ih.imp_right fun ih => ?_
      by_cases linked : m = .linked
      · rw [Scope.unlinked, List.filter_cons_of_neg (by simpa using linked)]
        exact ih
      · rw [Scope.unlinked, List.filter_cons_of_pos (by simpa using linked), behind]
        exact ih

theorem meaning?_unlinked (Γ : List Scope) (name : String) :
    meaning? Γ name = some .linked ∨ meaning? (Γ.map Scope.unlinked) name = meaning? Γ name := by
  induction Γ with
  | nil => exact .inr rfl
  | cons s Γ ih =>
    unfold meaning? at *
    rw [List.map_cons, List.findSome?_cons, List.findSome?_cons]
    rcases lookup_unlinked s name with linked | same
    · rw [linked]
      exact .inl rfl
    · rw [same]
      cases s.lookup name with
      | none => exact ih
      | some m => exact .inr rfl

theorem Binds.of_unlinked {Γ : List Scope} {name : String} {binding : Binding}
    (h : ∀ slot, binding = .local slot ↔ meaning? (Γ.map Scope.unlinked) name = some (.object slot)) :
    Binds Γ name binding := by
  rcases meaning?_unlinked Γ name with linked | same
  · refine ⟨fun slot object => ?_, fun slot bound => .inr ⟨linked, (h slot).mp bound⟩⟩
    rw [linked] at object
    cases object
  · rw [same] at h
    exact ⟨fun slot => (h slot).mpr, fun slot bound => .inl ((h slot).mp bound)⟩

/-! ## Declarations -/

def VarStorage.meaning : VarStorage → Meaning
  | .local slot => .object slot
  | .static => .lasting
  | .global => .linked

/-- The names that a declaration in a function declares. -/
def DeclKind.declared : DeclKind → Scope
  | .var v => [(v.name, v.storage.meaning)]
  | .function f => [(f.name, .linked)]
  | .typedef name _ => [(name, .lasting)]
  | .enum _ variants => (variants.map fun v => (v.1, .lasting)).reverse
  | .record .. => []

def declared : List Decl → Scope
  | [] => []
  | d :: ds => declared ds ++ d.kind.declared

/-- Declares names in the innermost scope. -/
def declare (names : Scope) : List Scope → List Scope
  | [] => []
  | s :: Γ => (names ++ s) :: Γ

theorem declare_nil (Γ : List Scope) : declare [] Γ = Γ := by cases Γ <;> rfl

theorem declare_append (new old : Scope) (Γ : List Scope) : declare (new ++ old) Γ = declare new (declare old Γ) := by
  cases Γ with
  | nil => rfl
  | cons s Γ => exact congrArg (· :: Γ) (List.append_assoc _ _ _)

/-- A name is declared behind its initial value. -/
def DeclsResolved (Γ : List Scope) : List Decl → Prop
  | [] => True
  | d :: ds => (∀ v i, d.kind = .var v → v.init = some i → NamesInit (Binds Γ) i) ∧
    DeclsResolved (declare d.kind.declared Γ) ds

/-! ## Statements -/

def initDeclared : ForInit Expr DeclGroup → Scope
  | .decl _ g => declared g.decls
  | .none | .expr .. => []

/-- The names that a statement declares in the scope around it. -/
def stmtDeclared : Stmt → Scope
  | .decl _ g => declared g.decls
  | .ifThen _ _ yes => stmtDeclared yes
  | .ifElse _ _ yes no => stmtDeclared no ++ stmtDeclared yes
  | .while _ _ body | .doWhile _ body _ => stmtDeclared body
  | .null _ | .expr .. | .compound .. | .for .. | .break _ | .continue _ | .return .. => []

/-- The names that a list of statements declares in the scope around it. -/
def stmtsDeclared : List Stmt → Scope
  | [] => []
  | s :: ss => stmtsDeclared ss ++ stmtDeclared s

def InitResolved (Γ : List Scope) : ForInit Expr DeclGroup → Prop
  | .none => True
  | .decl _ g => DeclsResolved Γ g.decls
  | .expr _ e => e.Names (Binds Γ)

mutual

def StmtResolved (Γ : List Scope) : Stmt → Prop
  | .null _ | .break _ | .continue _ => True
  | .expr _ e => e.Names (Binds Γ)
  | .decl _ g => DeclsResolved Γ g.decls
  | .compound _ ss => StmtsResolved ([] :: Γ) ss
  | .ifThen _ c yes => c.Names (Binds Γ) ∧ StmtResolved Γ yes
  | .ifElse _ c yes no =>
    c.Names (Binds Γ) ∧ StmtResolved Γ yes ∧ StmtResolved (declare (stmtDeclared yes) Γ) no
  | .while _ c body => c.Names (Binds Γ) ∧ StmtResolved Γ body
  | .doWhile _ body c => StmtResolved Γ body ∧ c.Names (Binds (declare (stmtDeclared body) Γ))
  | .for _ init c step body =>
    InitResolved ([] :: Γ) init ∧ (∀ e, c = some e → e.Names (Binds (declare (initDeclared init) ([] :: Γ)))) ∧
      (∀ e, step = some e → e.Names (Binds (declare (initDeclared init) ([] :: Γ)))) ∧
      StmtResolved (declare (initDeclared init) ([] :: Γ)) body
  | .return _ value => ∀ e, value = some e → e.Names (Binds Γ)

def StmtsResolved (Γ : List Scope) : List Stmt → Prop
  | [] => True
  | s :: ss => StmtResolved Γ s ∧ StmtsResolved (declare (stmtDeclared s) Γ) ss

end

/-! ## Objects of the frame -/

/-- The object, if it lies in the frame. -/
def VarDecl.locals (v : VarDecl) : List VarDecl :=
  match v.storage with
  | .local _ => [v]
  | .static | .global => []

def DeclKind.locals : DeclKind → List VarDecl
  | .var v => v.locals
  | _ => []

def declsLocals (ds : List Decl) : List VarDecl := ds.flatMap (·.kind.locals)

def initLocals : ForInit Expr DeclGroup → List VarDecl
  | .decl _ g => declsLocals g.decls
  | .none | .expr .. => []

mutual

/-- The objects of the frame that are declared in a statement, in the order of their declarations. -/
def stmtLocals : Stmt → List VarDecl
  | .decl _ g => declsLocals g.decls
  | .compound _ ss => stmtsLocals ss
  | .ifThen _ _ yes => stmtLocals yes
  | .ifElse _ _ yes no => stmtLocals yes ++ stmtLocals no
  | .while _ _ body | .doWhile _ body _ => stmtLocals body
  | .for _ init _ _ body => initLocals init ++ stmtLocals body
  | .null _ | .expr .. | .break _ | .continue _ | .return .. => []

def stmtsLocals : List Stmt → List VarDecl
  | [] => []
  | s :: ss => stmtLocals s ++ stmtsLocals ss

end

/-- The scope that the parameters of a function make up. -/
def paramsDeclared (ps : List Param) : Scope := (ps.filterMap fun p => p.name.map (·, .object p.slot)).reverse

/-- The slots of the object in a frame. -/
def VarDecl.Occupies (t : TypeTable) (v : VarDecl) (slot : Nat) : Prop :=
  ∃ first, v.storage = .local first ∧ first ≤ slot ∧ slot < first + t.stride v.ty

/-- The objects lie side by side from slot `start` on up to slot `stop`. -/
def InRow (t : TypeTable) (start : Nat) : List VarDecl → Nat → Prop
  | [], stop => start = stop
  | v :: vs, stop => v.storage = .local start ∧ t.isComplete v.ty ∧
    InRow t (start + t.stride v.ty % UInt32.size) vs stop

namespace InRow

variable {t t' : TypeTable} {start middle stop : Nat} {vs ws : List VarDecl} {v w : VarDecl}

theorem append (h : InRow t start vs middle) (h' : InRow t middle ws stop) : InRow t start (vs ++ ws) stop := by
  induction vs generalizing start with
  | nil =>
    cases (h : start = middle)
    exact h'
  | cons v vs ih => exact ⟨h.1, h.2.1, ih h.2.2⟩

theorem mono (complete : ∀ ty, t.isComplete ty → t'.isComplete ty ∧ t'.stride ty = t.stride ty)
    (h : InRow t start vs stop) : InRow t' start vs stop := by
  induction vs generalizing start with
  | nil => exact h
  | cons v vs ih =>
    obtain ⟨complete', same⟩ := complete v.ty h.2.1
    exact ⟨h.1, complete', by rw [same]; exact ih h.2.2⟩

/-- Together the objects fit into slots that can be counted in 32 bits. -/
def Counted (t : TypeTable) (start : Nat) (vs : List VarDecl) : Prop :=
  start + (vs.map fun v => t.stride v.ty).foldr (· + ·) 0 < UInt32.size

theorem Counted.head (counted : Counted t start (v :: vs)) :
    t.stride v.ty % UInt32.size = t.stride v.ty ∧ Counted t (start + t.stride v.ty) vs := by
  unfold Counted at *
  rw [List.map_cons, List.foldr_cons] at counted
  exact ⟨Nat.mod_eq_of_lt (by omega), by omega⟩

/-- The row ends behind the slots of all objects. -/
theorem stop_eq (h : InRow t start vs stop) (counted : Counted t start vs) :
    stop = start + (vs.map fun v => t.stride v.ty).foldr (· + ·) 0 := by
  induction vs generalizing start with
  | nil => exact h.symm
  | cons v vs ih =>
    obtain ⟨fits, rest⟩ := counted.head
    have behind := h.2.2
    rw [fits] at behind
    rw [ih behind rest, List.map_cons, List.foldr_cons, Nat.add_assoc]

theorem bounds (h : InRow t start vs stop) (counted : Counted t start vs) :
    ∀ v ∈ vs, ∃ first, v.storage = .local first ∧ start ≤ first ∧ first + t.stride v.ty ≤ stop := by
  induction vs generalizing start with
  | nil => exact nofun
  | cons v vs ih =>
    obtain ⟨fits, rest⟩ := counted.head
    have behind := h.2.2
    rw [fits] at behind
    refine List.forall_mem_cons.mpr ⟨⟨start, h.1, Nat.le_refl _, ?_⟩, fun w mem => ?_⟩
    · rw [behind.stop_eq rest]
      exact Nat.le_add_right _ _
    · obtain ⟨first, known, above, below⟩ := ih behind rest w mem
      exact ⟨first, known, by omega, below⟩

/-- No slot belongs to two objects. -/
theorem apart (h : InRow t start vs stop) (counted : Counted t start vs) :
    vs.Pairwise fun v w => ∀ slot, v.Occupies t slot → ¬w.Occupies t slot := by
  induction vs generalizing start with
  | nil => exact .nil
  | cons v vs ih =>
    obtain ⟨fits, rest⟩ := counted.head
    have behind := h.2.2
    rw [fits] at behind
    refine .cons (fun w mem slot inV inW => ?_) (ih behind rest)
    obtain ⟨first, known, above, -⟩ := behind.bounds rest w mem
    obtain ⟨firstV, knownV, -, below⟩ := inV
    obtain ⟨firstW, knownW, above', -⟩ := inW
    cases h.1.symm.trans knownV
    cases known.symm.trans knownW
    omega

end InRow

end IncrementalC.Typed
