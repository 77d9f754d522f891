import IncrementalC.Machine.Run
import IncrementalC.Proofs.Analysis.PlacedBody
import IncrementalC.Proofs.Machine.Places
import IncrementalC.Proofs.Syntax.UnitWritten
import IncrementalC.Proofs.Typed.Scoping
import IncrementalC.Unit.Basic
import Mathlib.Data.List.Induction

/-!
# Every local object has slots of its own

`Declares a b N names objects`: on the way from `a` to `b` the analysis declares `names` in the innermost scope,
puts `objects` side by side behind the slots that are taken, and what it gives satisfies `N` in the scopes of `a`.
Declarations and statements are put together by `Declares.trans`, and `Analysis.analyze_frame` is the result for a
function: its objects share no slot, and identifiers are bound to the slots of the objects that they refer to.
-/
namespace IncrementalC
set_option autoImplicit false
open Relation
open Typed (Expr Initializer VarDecl FunctionDecl Param Decl DeclKind Stmt Binding Binds Scope Meaning NamesInit InRow
  StmtResolved StmtsResolved InitResolved DeclsResolved stmtDeclared stmtLocals stmtsLocals initDeclared initLocals declare
  declared meaning? paramsDeclared)

/-! ## Scopes of the analysis and of the tree -/

def LocalSymbol.meaning : LocalSymbol → Meaning
  | .var _ (.local slot) => .object slot
  | .var .. | .typedef _ | .enumConst .. => .lasting

theorem LocalSymbol.meaning_ne_linked (s : LocalSymbol) : s.meaning ≠ .linked := by
  unfold meaning
  split <;> nofun

/-- A scope of the analysis has the names of a scope of the tree, but for those of objects of the program. -/
def Agrees (s : Scope) (m : NameMap LocalSymbol) : Prop :=
  ∀ name, s.unlinked.lookup name = (m.get? name).map LocalSymbol.meaning

abbrev Agree (Γ : List Scope) (S : List (NameMap LocalSymbol)) : Prop := List.Forall₂ Agrees Γ S

variable {Γ : List Scope} {S : List (NameMap LocalSymbol)} {a b c : Analysis} {name : String}

theorem Agree.meaning? (h : Agree Γ S) (name : String) :
    meaning? (Γ.map Scope.unlinked) name = (S.findSome? (·.get? name)).map LocalSymbol.meaning := by
  unfold Typed.meaning?
  induction h with
  | nil => rfl
  | @cons s m Γ S same _ ih =>
    rw [List.map_cons, List.findSome?_cons, List.findSome?_cons, same name]
    cases m.get? name with
    | none => exact ih
    | some s => rfl

theorem Agree.binds (h : Agree Γ S) {binding : Binding} (bound : Analyze.BoundIn S name binding) : Binds Γ name binding := by
  refine .of_unlinked fun slot => (bound slot).trans ?_
  rw [h.meaning?]
  constructor
  · rintro ⟨ty, found⟩
    rw [found]
    rfl
  · intro known
    obtain ⟨s, found, object⟩ := Option.map_eq_some_iff.mp known
    cases s with
    | var ty binding =>
      cases binding <;> cases object
      exact ⟨ty, found⟩
    | _ => cases object

theorem Agrees.insert {s : Scope} {m : NameMap LocalSymbol} (h : Agrees s m) (name : String) (new : LocalSymbol) :
    Agrees ((name, new.meaning) :: s) (m.insert name new) := by
  intro other
  rw [Scope.unlinked, List.filter_cons_of_pos (by simpa using new.meaning_ne_linked), List.lookup_cons, NameMap.get?_insert]
  by_cases same : other = name
  · rw [if_pos same, same, beq_self_eq_true]
    rfl
  · rw [if_neg same, beq_eq_false_iff_ne.mpr same]
    exact h other

/-- An object of the program is no name of the analysis' scopes. -/
theorem Agree.linked (h : Agree Γ S) (name : String) : Agree (declare [(name, .linked)] Γ) S := by
  cases h with
  | nil => exact .nil
  | cons same rest => exact .cons same rest

theorem Agree.setLocal (h : Agree Γ a.scopes) (name : String) (new : LocalSymbol) :
    Agree (declare [(name, new.meaning)] Γ) ((Analyze.setLocal name new).run a).2.scopes := by
  rw [Analyze.run_setLocal]
  generalize scopes : a.scopes = S at h
  cases h with
  | nil =>
    dsimp only
    rw [scopes]
    exact .nil
  | cons same rest => exact .cons (same.insert name new) rest

theorem agrees_paramScope (ps : List Param) : Agrees (paramsDeclared ps) (Analyze.paramScope ps) := by
  induction ps using List.reverseRecOn with
  | nil => exact fun _ => rfl
  | append_singleton ps p ih =>
    unfold paramsDeclared Analyze.paramScope at *
    rw [List.foldl_append, List.filterMap_append, List.reverse_append]
    cases named : p.name with
    | none =>
      simp only [List.filterMap_cons, named, Option.map_none, List.filterMap_nil, List.reverse_nil, List.nil_append,
        List.foldl_cons, List.foldl_nil]
      exact ih
    | some name =>
      simp only [List.filterMap_cons, named, Option.map_some, List.filterMap_nil, List.reverse_singleton, List.cons_append,
        List.nil_append, List.foldl_cons, List.foldl_nil]
      exact ih.insert name (.var p.ty (.local p.slot))

/-! ## What a step declares -/

namespace Analyze

structure Declares (a b : Analysis) (N : List Scope → Prop) (names : Scope) (objects : List VarDecl) : Prop where
  changes : ReflTransGen Change a b
  inside : b.function.isSome = a.function.isSome
  scopes : (a.function = none → a.scopes = []) → ∀ Γ, Agree Γ a.scopes → N Γ ∧ Agree (declare names Γ) b.scopes
  row : a.types.Layered → InRow b.types a.frame objects b.frame

variable {N N' : List Scope → Prop} {names names' : Scope} {objects objects' : List VarDecl} {α : Type}

theorem InRow.changes {t : Analysis} {start stop : Nat} (layered : t.types.Layered) (h : ReflTransGen Change t b)
    (row : InRow t.types start objects stop) : InRow b.types start objects stop := by
  have grows := Changes.extends h
  refine row.mono fun ty complete => ⟨TypeTable.isComplete_mono grows.complete complete, ?_⟩
  unfold TypeTable.stride
  rw [layered.slots_mono grows.complete complete]

namespace Declares

theorem trans (h : Declares a b N names objects) (h' : Declares b c N' names' objects') :
    Declares a c (fun Γ => N Γ ∧ N' (declare names Γ)) (names' ++ names) (objects ++ objects') where
  changes := h.changes.trans h'.changes
  inside := h'.inside.trans h.inside
  scopes outermost Γ agree := by
    obtain ⟨first, agree'⟩ := h.scopes outermost Γ agree
    have outermost' : b.function = none → b.scopes = [] := by
      intro closed
      have closed : a.function = none := by
        rw [← Option.not_isSome_iff_eq_none, ← h.inside, Option.not_isSome_iff_eq_none]
        exact closed
      rw [outermost closed] at agree
      cases agree
      exact List.forall₂_nil_left_iff.mp agree'
    obtain ⟨second, agree''⟩ := h'.scopes outermost' _ agree'
    exact ⟨⟨first, second⟩, Typed.declare_append _ _ _ ▸ agree''⟩
  row layered := (InRow.changes (Changes.layered h.changes layered) h'.changes (h.row layered)).append
    (h'.row (Changes.layered h.changes layered))

theorem mono (h : Declares a b N names objects) (hN : ∀ Γ, N Γ → N' Γ) : Declares a b N' names objects :=
  { h with scopes := fun outermost Γ agree => (h.scopes outermost Γ agree).imp_left (hN Γ) }

theorem names_eq (h : Declares a b N names objects) (same : names = names') : Declares a b N names' objects := same ▸ h

/-- Two steps, of which the second one declares nothing. -/
theorem trans_mention (h : Declares a b N names objects) (h' : Declares b c N' [] []) :
    Declares a c (fun Γ => N Γ ∧ N' (declare names Γ)) names objects := by
  have both := h.trans h'
  rwa [List.append_nil, List.nil_append] at both

/-- Two steps, of which the first one declares nothing. -/
theorem mention_trans (h : Declares a b N [] []) (h' : Declares b c N' names objects) :
    Declares a c (fun Γ => N Γ ∧ N' Γ) names objects := by
  have both := h.trans h'
  rw [List.append_nil, List.nil_append] at both
  refine both.mono fun Γ known => ?_
  rwa [Typed.declare_nil] at known

/-- A step that declares no name of a function. -/
theorem of_same (changes : ReflTransGen Change a b) (function : b.function = a.function) (scopes : b.scopes = a.scopes)
    (h : ∀ Γ, Agree Γ a.scopes → N Γ) : Declares a b N [] [] where
  changes := changes
  inside := congrArg Option.isSome function
  scopes _ Γ agree := ⟨h Γ agree, by rw [Typed.declare_nil, scopes]; exact agree⟩
  row _ := by
    show a.frame = b.frame
    unfold Analysis.frame
    rw [function]

theorem refl (h : ∀ Γ, Agree Γ a.scopes → N Γ) : Declares a a N [] [] := of_same .refl rfl rfl h

/-- A step of an expression. -/
theorem of_mention {m : Analyze α} {Q : List Scope → α → Prop} (does : Does Mention m)
    (inside : ∀ Γ, Agree Γ a.scopes → Inside a.scopes (Q Γ) m) :
    Declares a (m.run a).2 (fun Γ => Q Γ (m.run a).1) [] [] :=
  of_same (does.changes a) (Mentions.tame (does a)).function (Mentions.scopes (does a))
    fun Γ agree => (inside Γ agree a rfl).1

/-- A mention in front of a step that declares. -/
theorem after_mention {m : Analyze α} (does : Does Mention m) (h : Declares (m.run a).2 b N names objects) :
    Declares a b N names objects := by
  have first : Declares a (m.run a).2 (fun _ => True) [] [] :=
    of_same (does.changes a) (Mentions.tame (does a)).function (Mentions.scopes (does a)) fun _ _ => trivial
  exact (first.mention_trans h).mono fun Γ => And.right

end Declares

/-! ## Objects -/

/-- The object gets the next slots, or a name without slots, as its storage says. -/
structure Registers (v : VarDecl) (a b : Analysis) : Prop where
  inside : b.function.isSome = a.function.isSome
  scopes : ∀ Γ, Agree Γ a.scopes → Agree (declare [(v.name, v.storage.meaning)] Γ) b.scopes
  row : InRow b.types a.frame v.locals b.frame

def RegistersAt (m : Analyze VarDecl) (a : Analysis) : Prop := Registers (m.run a).1 a (m.run a).2

namespace RegistersAt

variable {v : VarDecl}

/-- Nothing happens to the scopes and the frame. -/
theorem of_same (storage : v.storage = .global) (function : b.function = a.function) (scopes : b.scopes = a.scopes) :
    Registers v a b where
  inside := congrArg Option.isSome function
  scopes Γ agree := by
    rw [storage, scopes]
    exact agree.linked v.name
  row := by
    unfold VarDecl.locals Analysis.frame
    rw [storage, function]
    rfl

theorem get {f : Analysis → Analyze VarDecl} (h : RegistersAt (f a) a) : RegistersAt (MonadState.get >>= f) a := h

theorem ite {p : Prop} [Decidable p] {m m' : Analyze VarDecl} (h : p → RegistersAt m a) (h' : ¬p → RegistersAt m' a) :
    RegistersAt (if p then m else m') a := by
  split
  · exact h ‹_›
  · exact h' ‹_›

theorem pure (storage : v.storage = .global) : RegistersAt (Pure.pure v) a := of_same storage rfl rfl

theorem refused {problem : Problem} {span : Span} (storage : v.storage = .global) :
    RegistersAt (do Analyze.report problem span; return v) a := of_same storage rfl rfl

theorem bind {m : Analyze α} {f : α → Analyze VarDecl} (does : Does Mention m)
    (h : ∀ x b, RegistersAt (f x) b) : RegistersAt (m >>= f) a := by
  have same := Mentions.scopes (does a)
  have function := (Mentions.tame (does a)).function
  have registers := h (m.run a).1 (m.run a).2
  refine ⟨registers.inside.trans (congrArg Option.isSome function), fun Γ agree => registers.scopes Γ ?_, ?_⟩
  · rw [same]
    exact agree
  · have row := registers.row
    unfold Analysis.frame at row ⊢
    rw [function] at row
    exact row

/-- The name of an object that lies elsewhere. -/
theorem named {s : LocalSymbol} (meaning : s.meaning = v.storage.meaning) (outside : ∀ slot, v.storage ≠ .local slot) :
    RegistersAt (do setLocal v.name s; return v) a := by
  obtain ⟨function, -⟩ := EntersAt.kept_setLocal (a := a) v.name s
  refine ⟨congrArg Option.isSome function, fun Γ agree => meaning ▸ agree.setLocal v.name s, ?_⟩
  have elsewhere : v.locals = [] := by
    unfold VarDecl.locals
    split
    · exact absurd ‹_› (outside _)
    · rfl
    · rfl
  show InRow _ a.frame v.locals ((setLocal v.name s).run a).2.frame
  rw [elsewhere]
  show a.frame = ((setLocal v.name s).run a).2.frame
  unfold Analysis.frame
  rw [function]

theorem inFrame {f : FunctionContext} (inside : a.function = some f) (complete : a.types.isComplete v.ty)
    (image : Option (List (Nat × Constant))) : RegistersAt (do
      modify fun a =>
        { a with function := some { f with nextSlot := f.nextSlot + a.types.stride v.ty % UInt32.size } }
      setLocal v.name (.var v.ty (.local f.nextSlot))
      return { v with storage := .local f.nextSlot, constantInit := image }) a := by
  let b : Analysis := { a with function := some { f with nextSlot := f.nextSlot + a.types.stride v.ty % UInt32.size } }
  obtain ⟨function, types⟩ := EntersAt.kept_setLocal (a := b) v.name (.var v.ty (.local f.nextSlot))
  have agrees (Γ : List Scope) (agree : Agree Γ b.scopes) :=
    agree.setLocal v.name (.var v.ty (.local f.nextSlot))
  have taken : a.frame = f.nextSlot := by
    unfold Analysis.frame
    rw [inside]
    rfl
  show Registers { v with storage := .local f.nextSlot, constantInit := image } a
    ((setLocal v.name (.var v.ty (.local f.nextSlot))).run b).2
  generalize ((setLocal v.name (.var v.ty (.local f.nextSlot))).run b).2 = c at function types agrees
  have types : c.types = a.types := types
  refine ⟨by rw [function, inside]; rfl, agrees, taken ▸ rfl, types ▸ complete, ?_⟩
  show a.frame + c.types.stride v.ty % UInt32.size = c.frame
  unfold Analysis.frame at taken ⊢
  rw [function, taken, types]
  rfl

theorem localVar {isStatic : Bool} {span : Span} (storage : v.storage = .global) (complete : a.types.isComplete v.ty) :
    RegistersAt (localVar isStatic v span) a := by
  refine get (ite (fun _ => refused storage) fun _ => ?_)
  split
  · exact pure storage
  · rename_i f inside
    refine ite (fun _ => ?_) fun _ => inFrame inside complete _
    have kept (b : Analysis) (link : String) (image : Option (List (Nat × Constant))) : RegistersAt (do
        setLocal v.name (.var v.ty (.global link))
        return { v with storage := .static, linkName := link, constantInit := image }) b :=
      named (v := { v with storage := .static, linkName := link, constantInit := image }) rfl nofun
    refine ite (fun _ => ?_) fun _ => kept _ _ _
    exact bind (Does.mention_report _ _) fun _ b => kept b _ _

theorem globalVar {span : Span} : RegistersAt (globalVar v span) a := by
  refine get ?_
  extract_lets types image v'
  refine get ?_
  split
  · exact ite (fun _ => get (get (refused rfl))) fun _ => ite (fun _ => refused rfl) fun _ => of_same rfl rfl rfl
  · exact refused rfl
  · exact of_same rfl rfl rfl

theorem enterVar {storage : Syntax.Storage} {name : String} {ty : Ty} {init : Option Initializer} {span : Span} :
    RegistersAt (enterVar storage name ty init span) a := by
  refine get (ite (fun _ => ?_) fun known => ?_)
  · split
    · exact refused rfl
    · exact get (refused rfl)
  · refine get (ite (fun inside => ?_) fun _ => globalVar)
    have isObject := (Bool.not_eq_true' _).mp ((Bool.and_eq_true _ _).mp inside).2
    refine localVar rfl ((Bool.not_eq_false _).mp fun incomplete => known ?_)
    rw [incomplete, isObject]
    rfl

theorem autoVar {storage : Syntax.Storage} {name : String} {nameSpan span : Span} {init : Option Syntax.Initializer} :
    RegistersAt (autoVar storage name nameSpan span init) a := by
  unfold Analyze.autoVar
  dsimp only
  split
  · exact bind (Does.expr _) fun e b => ite (fun _ => refused rfl) fun _ => ite (fun _ => refused rfl) fun _ => enterVar
  · exact bind (Does.expr _) fun e b => ite (fun _ => refused rfl) fun _ => ite (fun _ => refused rfl) fun _ => enterVar
  · exact refused rfl

theorem varDecl {spec : Syntax.DeclSpec} {name : String} {d : Syntax.Declarator} {init : Option Syntax.Initializer}
    {span : Span} : RegistersAt (varDecl spec name d init span) a := by
  refine ite (fun _ => autoVar) fun _ => bind (Does.baseType spec) fun base b => bind (Does.declaredType base d) fun ty c => ?_
  refine ite (fun _ => pure rfl) fun _ => ite (fun _ => refused rfl) fun _ => ?_
  cases init with
  | none => exact enterVar
  | some init => exact bind (Does.initializer ty init) fun _ _ => enterVar

end RegistersAt

/-! ## Other declarations -/

/-- The scopes and the function at hand stay as they are. -/
structure Stays (a b : Analysis) : Prop where
  function : b.function = a.function
  scopes : b.scopes = a.scopes

theorem stays_of_steps (h : ReflTransGen Stays a b) : Stays a b := by
  induction h with
  | refl => exact ⟨rfl, rfl⟩
  | tail _ step ih => exact ⟨step.function.trans ih.function, step.scopes.trans ih.scopes⟩

theorem Does.stays {m : Analyze α} (hm : Does Mention m) : Does Stays m :=
  hm.mono fun _ _ h => ⟨h.tame (N := fun _ => False) |>.function, h.scopes⟩

theorem Does.stays_report (problem : Problem) (span : Span) (x : α) :
    Does Stays (do Analyze.report problem span; return x) :=
  .bind (Does.mention_report problem span).stays fun _ => .pure x

theorem Does.stays_recordDecl (kind : Syntax.RecordKind) (name : String) (fds : Option (List Syntax.FieldDecl)) (span : Span) :
    Does Stays (Analyze.recordDecl kind name fds span) := by
  unfold Analyze.recordDecl
  extract_lets decl define
  have defines (id : RecordId) : Does Stays (define id) := by
    dsimp only [define]
    cases fds with
    | none => exact .pure _
    | some fds =>
      refine .bind .get fun a => .ite (Does.stays_report _ _ _) (.bind (Does.fieldDecls fds _).stays fun fields => ?_)
      refine .bind (fun a => .single ?_) fun _ => .pure _
      rw [run_defineRecord]
      split <;> exact ⟨rfl, rfl⟩
  refine .read fun a => ?_
  split
  · exact defines _ a
  · exact Does.stays_report _ _ _ a
  · exact Does.bindAt (.single ⟨rfl, rfl⟩) fun id => defines id

theorem Does.stays_functionHead (spec : Syntax.DeclSpec) (name : String) (d : Syntax.Declarator) (externC hasBody : Bool) :
    Does Stays (Analyze.functionHead spec name d externC hasBody) := by
  unfold Analyze.functionHead
  refine .bind (Does.baseType spec).stays fun base => ?_
  dsimp only
  split
  · refine .bind (Does.params _ _).stays fun ps => .read fun a => ?_
    split
    · split
      · exact Does.stays_report _ _ _ a
      · split
        · exact Does.stays_report _ _ _ a
        · exact Does.bindAt (.single ⟨rfl, rfl⟩) fun _ => .pure _
    · exact Does.stays_report _ _ _ a
    · exact Does.bindAt (.single ⟨rfl, rfl⟩) fun _ => .pure _
  · exact Does.stays_report _ _ _

namespace Declares

theorem of_stays {m : Analyze α} (stays : Does Stays m) (changes : Does Change m) : Declares a (m.run a).2 (fun _ => True) [] [] :=
  have same := stays_of_steps (stays a)
  of_same (changes a) same.function same.scopes fun _ _ => trivial

theorem of_setLocal {s : LocalSymbol} :
    Declares a ((setLocal name s).run a).2 (fun _ => True) [(name, s.meaning)] [] where
  changes := Does.setLocal name s a
  inside := congrArg Option.isSome (EntersAt.kept_setLocal name s).1
  scopes _ Γ agree := ⟨trivial, agree.setLocal name s⟩
  row _ := by
    show a.frame = ((setLocal _ s).run a).2.frame
    unfold Analysis.frame
    rw [(EntersAt.kept_setLocal _ s).1]

/-- Outside of functions no scope is open. -/
theorem outside (closed : a.function = none) (changes : ReflTransGen Change a b) (stays : Stays a b) :
    Declares a b (fun _ => True) names [] where
  changes := changes
  inside := congrArg Option.isSome stays.function
  scopes outermost Γ agree := by
    rw [outermost closed] at agree
    cases agree
    refine ⟨trivial, ?_⟩
    rw [stays.scopes, outermost closed]
    exact .nil
  row _ := by
    show a.frame = b.frame
    unfold Analysis.frame
    rw [stays.function]

end Declares

/-- The step declares no object, and these names of what it gives. -/
def DeclaresNames (names : α → Scope) (m : Analyze α) (a : Analysis) : Prop :=
  Declares a (m.run a).2 (fun _ => True) (names (m.run a).1) []

namespace DeclaresNames

variable {β : Type} {names : β → Scope}

theorem read {f : Analysis → Analyze β} (h : DeclaresNames names (f a) a) :
    DeclaresNames names (MonadState.get >>= f) a := h

theorem after_mention {m : Analyze α} {f : α → Analyze β} (does : Does Mention m)
    (h : ∀ x b, DeclaresNames names (f x) b) : DeclaresNames names (m >>= f) a :=
  Declares.after_mention does (h (m.run a).1 (m.run a).2)

def ofVariants (vs : List (String × Int64)) : Scope := (vs.map fun v => (v.1, Meaning.lasting)).reverse

theorem enumerators (ty : Ty) (next : Int64) (vs : List Syntax.Enumerator) : DeclaresNames ofVariants (enumerators ty next vs) a := by
  induction vs generalizing next a with
  | nil => exact .refl fun _ _ => trivial
  | cons v vs ih =>
    have rest (value : Int64) {m : Analyze PUnit} {b : Analysis}
        (h : Declares b (m.run b).2 (fun _ => True) [(v.name, .lasting)] []) : DeclaresNames ofVariants (do
          m
          Pure.pure ((v.name, value) :: (← Analyze.enumerators ty (value + 1) vs))) b := by
      have both := h.trans (ih (value + 1) (a := (m.run b).2))
      refine (both.mono fun _ _ => trivial).names_eq ?_
      exact List.reverse_cons.symm
    have enter (value : Int64) (b : Analysis) : DeclaresNames ofVariants (do
        let a ← MonadState.get
        if a.function.isSome then setLocal v.name (.enumConst value ty)
        else if a.names.globals.contains v.name then report (.redefinition v.name) v.span
        else setGlobal v.name (.enumConst value ty)
        Pure.pure ((v.name, value) :: (← Analyze.enumerators ty (value + 1) vs))) b := by
      refine read ?_
      split
      · exact rest value .of_setLocal
      · rename_i outside
        have closed := Option.not_isSome_iff_eq_none.mp outside
        split
        · exact rest value (.outside closed (Does.change_report _ _ b) ⟨rfl, rfl⟩)
        · rename_i fresh
          refine rest value (.outside closed (Does.setGlobal_fresh ?_) ⟨rfl, rfl⟩)
          simpa [NameMap.contains] using fresh
    rw [Analyze.enumerators]
    dsimp only
    split
    · exact enter _ _
    · refine after_mention (Does.expr _) fun e b => read ?_
      split
      · exact enter _ _
      · exact after_mention (Does.mention_report _ _) fun _ c => enter _ _

theorem enumDecl (name : Option String) (vs : List Syntax.Enumerator) (span : Span) : DeclaresNames DeclKind.declared (enumDecl name vs span) a := by
  cases name with
  | none => exact DeclaresNames.enumerators .signedInt 0 vs
  | some tag =>
    show DeclaresNames DeclKind.declared (if a.names.tags.contains tag then (do report (.redefinition tag) span; return .enum (some tag) [])
      else do setTag tag .enum; return .enum (some tag) (← Analyze.enumerators (.enum tag) 0 vs)) a
    split
    · exact .of_same (Does.change_report _ _ a) rfl rfl fun _ _ => trivial
    · rename_i fresh
      have first : Declares a ((setTag tag .enum).run a).2 (fun _ => True) [] [] :=
        .of_same (.single (.enum (by simpa [NameMap.contains] using fresh))) rfl rfl fun _ _ => trivial
      exact (first.mention_trans (DeclaresNames.enumerators (.enum tag) 0 vs)).mono fun _ _ => trivial

theorem typedefDecl (spec : Syntax.DeclSpec) (name : String) (d : Syntax.Declarator) (span : Span) :
    DeclaresNames DeclKind.declared (typedefDecl spec name d span) a := by
  refine after_mention (Does.baseType spec) fun base _ => after_mention (Does.declaredType base d) fun ty b => read ?_
  split
  · exact .of_setLocal
  · rename_i outside
    have closed := Option.not_isSome_iff_eq_none.mp outside
    have reported (problem : Problem) : DeclaresNames DeclKind.declared (do report problem span; return .typedef name ty) b :=
      .outside closed (Does.change_report _ _ b) ⟨rfl, rfl⟩
    split
    · split
      · exact read (read (reported (.typedefConflict (b.types.name ty) (b.types.name _))))
      · exact .outside closed .refl ⟨rfl, rfl⟩
    · exact reported _
    · exact .outside closed (Does.setGlobal_fresh ‹_›) ⟨rfl, rfl⟩

theorem recordDecl (kind : Syntax.RecordKind) (name : String) (fds : Option (List Syntax.FieldDecl)) (span : Span) :
    DeclaresNames DeclKind.declared (recordDecl kind name fds span) a := by
  have gives : Gives (Analyze.recordDecl kind name fds span) fun k => k.declared = [] := by
    unfold Analyze.recordDecl
    extract_lets decl define
    have defines (id : RecordId) : Gives (define id) fun k => k.declared = [] := by
      dsimp only [define]
      cases fds with
      | none => exact .pure rfl
      | some fields =>
        exact .skip fun a => .ite (.skip fun _ => .pure rfl) (.skip fun _ => .skip fun _ => .pure rfl)
    refine .skip fun a => ?_
    split
    · exact defines _
    · exact .skip fun _ => .pure rfl
    · exact .skip fun id => defines id
  exact (Declares.of_stays (Does.stays_recordDecl kind name fds span) (Does.recordDecl kind name fds span)).names_eq
    (gives a).symm

/-- A declaration of a function in a body is one of the program. -/
theorem functionHead (spec : Syntax.DeclSpec) (name : String) (d : Syntax.Declarator) (externC hasBody : Bool) :
    DeclaresNames DeclKind.declared (do return .function (← functionHead spec name d externC hasBody).1) a := by
  have head := Declares.of_stays (a := a) (Does.stays_functionHead spec name d externC hasBody)
    (Does.functionHead spec name d externC hasBody)
  refine { head with scopes := fun outermost Γ agree => ⟨trivial, ?_⟩ }
  obtain ⟨-, still⟩ := head.scopes outermost Γ agree
  rw [Typed.declare_nil] at still
  exact still.linked _

end DeclaresNames

theorem declKind_declares (spec : Syntax.DeclSpec) (d : Syntax.Decl) (a : Analysis) :
    Declares a ((declKind spec d).run a).2
      (fun Γ => ∀ v i, ((declKind spec d).run a).1 = .var v → v.init = some i → NamesInit (Binds Γ) i)
      ((declKind spec d).run a).1.declared ((declKind spec d).run a).1.locals := by
  have other {m : Analyze DeclKind} (names : DeclaresNames DeclKind.declared m a) (kind : Gives m fun k => ∀ v, k ≠ .var v) :
      Declares a (m.run a).2 (fun Γ => ∀ v i, (m.run a).1 = .var v → v.init = some i → NamesInit (Binds Γ) i)
        (m.run a).1.declared (m.run a).1.locals := by
    have noObject : (m.run a).1.locals = [] := by
      unfold DeclKind.locals
      split
      · exact absurd ‹_› (kind a _)
      · rfl
    rw [noObject]
    exact names.mono fun _ _ v i same => absurd same (kind a v)
  obtain ⟨kind, span⟩ := d
  cases kind with
  | var name declarator init =>
    have registers : RegistersAt (varDecl spec name declarator init span) a := RegistersAt.varDecl
    refine ⟨Does.varDecl _ _ _ _ _ a, registers.inside, fun outermost Γ agree => ⟨?_, registers.scopes Γ agree⟩,
      fun _ => registers.row⟩
    rintro v i ⟨⟩ given
    have named : InitialNames a.scopes (Binds Γ) (varDecl spec name declarator init span) :=
      InitialNames.varDecl fun _ _ => agree.binds
    exact named a rfl i given
  | function name declarator externC =>
    exact other (.functionHead _ _ _ _ _) (.skip fun _ => .pure nofun)
  | record kind name fds => exact other (.recordDecl _ _ _ _) (gives_recordDecl _ _ _ _)
  | enum name variants => exact other (.enumDecl _ _ _) (gives_enumDecl _ _ _)
  | typedef name declarator => exact other (.typedefDecl _ _ _ _) (gives_typedefDecl _ _ _ _)

theorem decls_declares (spec : Syntax.DeclSpec) (ds : List Syntax.Decl) (a : Analysis) :
    Declares a ((decls spec ds).run a).2 (fun Γ => DeclsResolved Γ ((decls spec ds).run a).1)
      (declared ((decls spec ds).run a).1) (Typed.declsLocals ((decls spec ds).run a).1) := by
  induction ds generalizing a with
  | nil => exact .refl fun _ _ => trivial
  | cons d ds ih => exact (declKind_declares spec d a).trans (ih ((declKind spec d).run a).2)

/-! ## Statements -/

theorem Inside.condition {P : String → Binding → Prop} (bound : ∀ name binding, BoundIn S name binding → P name binding)
    (e : Syntax.Expr) : Inside S (Expr.Names P) (condition e) := by
  refine .bind (Inside.expr bound e) fun e named => .ite ?_ (.pure named)
  exact .mention_bind (Does.typeName _) fun _ => .report_bind (Does.report _ _) fun _ => .pure named

theorem Inside.condition? {P : String → Binding → Prop} (bound : ∀ name binding, BoundIn S name binding → P name binding)
    (e : Option Syntax.Expr) : Inside S (fun c => ∀ e, c = some e → e.Names P) (Analyze.condition? e) := by
  cases e with
  | none => exact .pure nofun
  | some e => exact .bind (Inside.condition bound e) fun e named => .pure fun _ same => by cases same; exact named

theorem Inside.expr? {P : String → Binding → Prop} (bound : ∀ name binding, BoundIn S name binding → P name binding)
    (e : Option Syntax.Expr) : Inside S (fun c => ∀ e, c = some e → e.Names P) (Analyze.expr? e) := by
  cases e with
  | none => exact .pure nofun
  | some e => exact .bind (Inside.expr bound e) fun e named => .pure fun _ same => by cases same; exact named

theorem Inside.returned {P : String → Binding → Prop} (bound : ∀ name binding, BoundIn S name binding → P name binding)
    (f : FunctionContext) (value : Option Syntax.Expr) (span : Span) :
    Inside S (fun c => ∀ e, c = some e → e.Names P) (Analyze.returned f value span) := by
  cases value with
  | none => exact .ite (.report_bind (Does.report _ _) fun _ => .pure nofun) (.pure nofun)
  | some e =>
    refine .bind (Inside.expr bound e) fun e named => ?_
    have given (e' : Expr) (same : some e = some e') : e'.Names P := by
      cases same
      exact named
    refine .ite (.report_bind (Does.checkAssignable _ _ _) fun _ => .pure given) (.ite ?_ (.pure given))
    exact .report_bind (Does.report _ _) fun _ => .pure given

theorem forInit_declares (i : ForInit Syntax.Expr Syntax.DeclGroup) (a : Analysis) :
    Declares a ((forInit i).run a).2 (fun Γ => InitResolved Γ ((forInit i).run a).1) (initDeclared ((forInit i).run a).1)
      (initLocals ((forInit i).run a).1) := by
  cases i with
  | none => exact .refl fun _ _ => trivial
  | decl node g => exact decls_declares g.spec g.decls a
  | expr node e => exact .of_mention (Does.expr e) fun Γ agree => Inside.expr (fun _ _ => agree.binds) e

/-- What is declared in a scope of its own is forgotten behind it. -/
theorem Declares.inScope {N : List Scope → Prop} {names s : Scope} {objects : List VarDecl} {scope : NameMap LocalSymbol}
    (agrees : Agrees s scope) (inside : a.function.isSome)
    (h : Declares { a with scopes := scope :: a.scopes } b N names objects) :
    Declares a { b with scopes := b.scopes.tail } (fun Γ => N (s :: Γ)) [] objects where
  changes := .head (.scopes _) (h.changes.tail (.scopes _))
  inside := h.inside
  scopes _ Γ agree := by
    obtain ⟨resolved, agree'⟩ := h.scopes (fun closed => by rw [closed] at inside; cases inside) _ (.cons agrees agree)
    refine ⟨resolved, ?_⟩
    rw [Typed.declare_nil]
    show Agree Γ b.scopes.tail
    generalize b.scopes = S at agree'
    cases agree' with
    | cons _ rest => exact rest
  row := h.row

mutual

/-- Statements of a function declare what is written in them, and refer to what is declared around them. -/
theorem stmt_declares (f : FunctionContext) (inLoop : Bool) {a : Analysis} (inside : a.function.isSome) :
    ∀ s : Syntax.Stmt, Declares a ((stmt f inLoop s).run a).2 (fun Γ => StmtResolved Γ ((stmt f inLoop s).run a).1)
      (stmtDeclared ((stmt f inLoop s).run a).1) (stmtLocals ((stmt f inLoop s).run a).1)
  | .null _ => .refl fun _ _ => trivial
  | .expr _ e => .of_mention (Does.expr e) fun Γ agree => Inside.expr (fun _ _ => agree.binds) e
  | .decl _ g => decls_declares g.spec g.decls a
  | .compound _ ss => by
    have body := stmts_declares f inLoop (a := { a with scopes := {} :: a.scopes }) inside ss
    exact body.inScope (s := []) (fun _ => rfl) inside
  | .ifThen _ c yes => by
    have first := Declares.of_mention (Does.condition c) fun Γ (agree : Agree Γ a.scopes) => Inside.condition (fun _ _ => agree.binds) c
    exact first.mention_trans (stmt_declares f inLoop (first.inside.trans inside) yes)
  | .ifElse _ c yes no => by
    have first := Declares.of_mention (Does.condition c) fun Γ (agree : Agree Γ a.scopes) => Inside.condition (fun _ _ => agree.binds) c
    have second := first.mention_trans (stmt_declares f inLoop (first.inside.trans inside) yes)
    exact (second.trans (stmt_declares f inLoop (second.inside.trans inside) no)).mono fun Γ ⟨⟨hc, hyes⟩, hno⟩ => ⟨hc, hyes, hno⟩
  | .while _ c body => by
    have first := Declares.of_mention (Does.condition c) fun Γ (agree : Agree Γ a.scopes) => Inside.condition (fun _ _ => agree.binds) c
    exact first.mention_trans (stmt_declares f true (first.inside.trans inside) body)
  | .doWhile _ body c => by
    have first := stmt_declares f true inside body
    exact first.trans_mention (.of_mention (Does.condition c) fun Γ agree => Inside.condition (fun _ _ => agree.binds) c)
  | .for _ init c step body => by
    let a' : Analysis := { a with scopes := {} :: a.scopes }
    have first := forInit_declares init a'
    have second := first.trans_mention (.of_mention (Does.condition? c) fun Γ agree => Inside.condition? (fun _ _ => agree.binds) c)
    have third := second.trans_mention (.of_mention (Does.expr? step) fun Γ agree => Inside.expr? (fun _ _ => agree.binds) step)
    have last := third.trans (stmt_declares f true (third.inside.trans inside) body)
    refine (last.inScope (s := []) (fun _ => rfl) inside).mono fun Γ known => ?_
    obtain ⟨⟨⟨hinit, hc⟩, hstep⟩, hbody⟩ := known
    exact ⟨hinit, hc, hstep, hbody⟩
  | .break node | .continue node => by
    cases inLoop
    · exact .of_same (Does.change_report _ _ a) rfl rfl fun _ _ => trivial
    · exact .refl fun _ _ => trivial
  | .return _ value => .of_mention (Does.returned f value _) fun Γ agree => Inside.returned (fun _ _ => agree.binds) f value _

theorem stmts_declares (f : FunctionContext) (inLoop : Bool) {a : Analysis} (inside : a.function.isSome) :
    ∀ ss : List Syntax.Stmt, Declares a ((stmts f inLoop ss).run a).2 (fun Γ => StmtsResolved Γ ((stmts f inLoop ss).run a).1)
      (Typed.stmtsDeclared ((stmts f inLoop ss).run a).1) (stmtsLocals ((stmts f inLoop ss).run a).1)
  | [] => .refl fun _ _ => trivial
  | s :: ss => by
    have first := stmt_declares f inLoop inside s
    exact first.trans (stmts_declares f inLoop (first.inside.trans inside) ss)

end

/-! ## Functions -/

/-- The parameters and the local objects of a function lie side by side in its frame. -/
structure Framed (t : TypeTable) (f : FunctionDecl) (s : Typed.Stmt) : Prop where
  ordered : MeetsAt.HeadOrdered f
  row : InRow t f.params.length (stmtLocals s) f.frameSlots
  resolved : StmtResolved [paramsDeclared f.params] s

theorem functionBody_framed {f : FunctionDecl} (ordered : MeetsAt.HeadOrdered f) (layered : a.types.Layered)
    (outermost : a.scopes = []) (body : Syntax.Stmt) :
    Framed ((functionBody f body).run a).2.types ((functionBody f body).run a).1.1 ((functionBody f body).run a).1.2 := by
  let context : FunctionContext := { name := f.name, ret := f.ret, nextSlot := f.params.length }
  have declares := (stmt_declares context false
    (a := { a with function := some context, scopes := Analyze.paramScope f.params :: a.scopes }) rfl body).inScope
    (a := { a with function := some context }) (agrees_paramScope f.params) rfl
  refine ⟨ordered, declares.row layered, (declares.scopes nofun [] ?_).1⟩
  rw [show ({ a with function := some context } : Analysis).scopes = a.scopes from rfl, outermost]
  exact .nil

/-- If the step gives a function with its body, they have a frame. -/
def FramesAt (m : Analyze (Decl × Option Typed.Stmt)) (a : Analysis) : Prop :=
  ∀ f s, (m.run a).1.1.kind = .function f → (m.run a).1.2 = some s → Framed (m.run a).2.types f s

theorem functionDefinition_framed (layered : a.types.Layered) (outermost : a.scopes = []) (spec : Syntax.DeclSpec)
    (d : Syntax.Decl) (body : Syntax.Stmt) : FramesAt (functionDefinition spec d body) a := by
  obtain ⟨kind, span⟩ := d
  cases kind with
  | function name declarator externC =>
    have behind (f : FunctionDecl) (entered : Bool) (b : Analysis) (ordered : MeetsAt.HeadOrdered f)
        (layered : b.types.Layered) (outermost : b.scopes = []) : FramesAt (do
          if !entered then return (⟨.function f, span⟩, none)
          else if !f.ret.isVoid && !(← get).types.isComplete f.ret then
            report (.incompleteResult (← typeName f.ret)) span
            return (⟨.function f, span⟩, none)
          else
            let r ← functionBody f body
            return (⟨.function r.1, span⟩, some r.2)) b := by
      split
      · rintro g s - ⟨⟩
      · refine (?_ : FramesAt (if !f.ret.isVoid && !b.types.isComplete f.ret then _ else _) b)
        split
        · rintro g s - ⟨⟩
        · rintro g s ⟨⟩ ⟨⟩
          exact functionBody_framed ordered layered outermost body
    have head := Does.functionHead spec name declarator externC true a
    have stays := stays_of_steps (Does.stays_functionHead spec name declarator externC true a)
    exact behind _ _ _ (MeetsAt.functionHead_ordered spec name declarator externC true a) (Changes.layered head layered)
      (stays.scopes.trans outermost)
  | var name declarator init => rintro f s - ⟨⟩
  | record kind name fds => rintro f s - ⟨⟩
  | enum name variants => rintro f s - ⟨⟩
  | typedef name declarator => rintro f s - ⟨⟩

end Analyze

/-! ## Groups -/

namespace Typed

/-- The slots of the objects of a frame: a parameter has one, a local object those of its type. -/
def frameObjects (t : TypeTable) (f : FunctionDecl) (s : Stmt) : List (Nat → Prop) :=
  f.params.map (fun p slot => slot = p.slot) ++ (stmtLocals s).map (·.Occupies t)

/-- A write to one slot of a frame leaves another one as it is. -/
def KeepsSlot (m : Machine) (base slot other : Nat) : Prop :=
  ∀ value, (m.put (Address.stack (base + slot)).encode value).read? (Address.stack (base + other)).encode =
    m.read? (Address.stack (base + other)).encode

/-- The frame of a function with this body. -/
structure FrameLaidOut (t : TypeTable) (f : FunctionDecl) (s : Stmt) : Prop where
  params : ∀ (i : Nat) (p : Param), f.params[i]? = some p → p.slot = i
  locals : ∀ v ∈ stmtLocals s, ∃ first, v.storage = .local first ∧ f.params.length ≤ first ∧
    first + t.stride v.ty ≤ f.frameSlots
  apart : (frameObjects t f s).Pairwise fun v w => ∀ slot, v slot → ¬w slot
  resolved : StmtResolved [paramsDeclared f.params] s
  kept : ∀ (m : Machine) (base : Nat), base + f.frameSlots ≤ m.stack.size → m.stack.size ≤ Address.reach →
    (frameObjects t f s).Pairwise fun v w => ∀ slot other, v slot → w other →
      KeepsSlot m base slot other ∧ KeepsSlot m base other slot

end Typed

namespace Analysis

/-- If the step gives a group with a function and its body, they have a frame. -/
def FramesGroupAt (m : Analyze Typed.TopLevel) (a : Analysis) : Prop :=
  ∀ f s, (m.run a).1.function? = some f → (m.run a).1.body = some s → Analyze.Framed (m.run a).2.types f s

theorem topLevel_framed {a : Analysis} (layered : a.types.Layered) (outermost : a.scopes = []) (t : Syntax.TopLevel) : FramesGroupAt (Analyze.topLevel t) a := by
  unfold Analyze.topLevel
  dsimp only
  split
  · rename_i body last _ _
    have before := Analyze.decls_declares t.group.spec t.group.decls.dropLast a
    have outermost' := (before.scopes (fun _ => outermost) [] (outermost ▸ .nil)).2
    rintro f s function given
    obtain ⟨d, last, kind⟩ := Typed.TopLevel.function?_eq_some function
    refine Analyze.functionDefinition_framed (Analyze.Changes.layered before.changes layered)
      (List.forall₂_nil_left_iff.mp outermost') t.group.spec _ body f s ?_ given
    refine Eq.trans (congrArg _ ?_) kind
    exact Option.some.inj (List.getLast?_concat.symm.trans last)
  · rintro f s - ⟨⟩

theorem analyze_framed {a : Analysis} (h : a.Reached) {t : Syntax.TopLevel} {t' : Typed.TopLevel}
    (accepted : (a.analyze t).1 = .ok t') {f : FunctionDecl} {s : Typed.Stmt} (function : t'.function? = some f)
    (body : t'.body = some s) : Analyze.Framed (a.analyze t).2.types f s := by
  have framed := topLevel_framed (a := { a with errors := #[] }) h.layered h.outermost.2 t
  obtain ⟨b, run, -, behind⟩ := analyze_ok accepted
  rw [behind]
  unfold FramesGroupAt at framed
  rw [run] at framed
  exact framed f s function body

theorem frameObjects_apart {t : TypeTable} {f : FunctionDecl} {s : Typed.Stmt} (framed : Analyze.Framed t f s)
    (counted : InRow.Counted t f.params.length (stmtLocals s)) :
    (Typed.frameObjects t f s).Pairwise fun v w => ∀ slot, v slot → ¬w slot := by
  refine List.pairwise_append.mpr ⟨List.pairwise_map.mpr ?_, List.pairwise_map.mpr (framed.row.apart counted), ?_⟩
  · refine List.pairwise_iff_getElem.mpr fun i j hi hj less slot inI inJ => ?_
    have first := framed.ordered i _ (List.getElem?_eq_getElem hi)
    have second := framed.ordered j _ (List.getElem?_eq_getElem hj)
    omega
  · intro v memV w memW slot inV inW
    obtain ⟨p, memP, rfl⟩ := List.mem_map.mp memV
    obtain ⟨x, memX, rfl⟩ := List.mem_map.mp memW
    obtain ⟨first, located, above, -⟩ := framed.row.bounds counted x memX
    obtain ⟨first', located', above', -⟩ := inW
    cases located.symm.trans located'
    have param := framed.ordered.numbered p memP
    have same : slot = p.slot := inV
    omega

/-- Every object lies in the frame. -/
theorem frameObjects_inside {t : TypeTable} {f : FunctionDecl} {s : Typed.Stmt} (framed : Analyze.Framed t f s)
    (counted : InRow.Counted t f.params.length (stmtLocals s)) :
    ∀ v ∈ Typed.frameObjects t f s, ∀ slot, v slot → slot < f.frameSlots := by
  have stop := framed.row.stop_eq counted
  intro v mem slot inside
  rcases List.mem_append.mp mem with mem | mem
  · obtain ⟨p, memP, rfl⟩ := List.mem_map.mp mem
    have param := framed.ordered.numbered p memP
    have same : slot = p.slot := inside
    omega
  · obtain ⟨x, memX, rfl⟩ := List.mem_map.mp mem
    obtain ⟨first, located, -, below⟩ := framed.row.bounds counted x memX
    obtain ⟨first', located', -, below'⟩ := inside
    cases located.symm.trans located'
    omega

theorem keepsSlot {m : Machine} {base size slot other : Nat} (inside : base + size ≤ m.stack.size)
    (reaches : m.stack.size ≤ Address.reach) (hslot : slot < size) (hother : other < size) (apart : slot ≠ other) :
    Typed.KeepsSlot m base slot other := by
  have mapped : m.isMapped (Address.stack (base + slot)).encode := by
    unfold Machine.isMapped Machine.read?
    rw [Address.decode_stack (by omega)]
    show (m.stack[(Address.stack (base + slot)).index.toNat]?).isSome
    rw [Address.index_stack (by omega), Array.getElem?_eq_getElem (by omega)]
    rfl
  intro value
  rw [Machine.read?_put mapped, Address.decode_stack (by omega), Address.decode_stack (by omega)]
  refine if_neg fun same => apart ?_
  have index := congrArg (fun a : Address => a.index.toNat) same
  rw [Address.index_stack (by omega), Address.index_stack (by omega)] at index
  omega

/-- In the frame of an accepted function the parameters come first, one slot each. The local objects of all its blocks
and loop headers lie behind them, and no slot belongs to two objects. An identifier is bound to a slot if its innermost
declaration is that of an object in the frame, and to the slot of that object; a declaration of an object or a function
of the program does not hide an object of the frame. So a write to a slot of one object changes no other. -/
theorem analyze_frame {a : Analysis} (h : a.Reached) {t : Syntax.TopLevel} {t' : Typed.TopLevel}
    (accepted : (a.analyze t).1 = .ok t') {f : FunctionDecl} {s : Typed.Stmt} (function : t'.function? = some f)
    (body : t'.body = some s) (counted : InRow.Counted (a.analyze t).2.types f.params.length (stmtLocals s)) :
    Typed.FrameLaidOut (a.analyze t).2.types f s := by
  have framed := analyze_framed h accepted function body
  have apart := frameObjects_apart framed counted
  have inside := frameObjects_inside framed counted
  refine ⟨framed.ordered, framed.row.bounds counted, apart, framed.resolved, fun m base enough reaches => ?_⟩
  refine apart.imp_of_mem fun {v w} memV memW apart slot other inV inW => ?_
  have below := inside v memV slot inV
  have below' := inside w memW other inW
  have differ : slot ≠ other := fun same => apart slot inV (same ▸ inW)
  exact ⟨keepsSlot enough reaches below below' differ, keepsSlot enough reaches below' below differ.symm⟩

/-- Objects that hide each other in the blocks and the loop header of one function. -/
theorem nested_objects_laid_out : ∃ t t' f s,
    Syntax.groupOf?
      "int f(int x, int y) \x7b int a[3]; \x7b int x = y; static int y; a[0] = x; \x7d for (int y = 0; y < x;) \x7b int x[2]; \x7d return x; \x7d" = some t ∧
    (({} : Analysis).analyze t).1 = .ok t' ∧ t'.function? = some f ∧ t'.body = some s ∧
    (f.params.length, (stmtLocals s).map fun v => (v.name, v.storage, (({} : Analysis).analyze t).2.types.stride v.ty)) =
      (2, [("a", .local 2, 3), ("x", .local 5, 1), ("y", .local 6, 1), ("x", .local 7, 2)]) ∧
    InRow.Counted (({} : Analysis).analyze t).2.types f.params.length (stmtLocals s) ∧
    Typed.FrameLaidOut (({} : Analysis).analyze t).2.types f s := by
  have outcome : (do
      let t ← Syntax.groupOf?
        "int f(int x, int y) \x7b int a[3]; \x7b int x = y; static int y; a[0] = x; \x7d for (int y = 0; y < x;) \x7b int x[2]; \x7d return x; \x7d"
      let t' ← (({} : Analysis).analyze t).1.toOption
      let f ← t'.function?
      let s ← t'.body
      return (f.params.length, (stmtLocals s).map fun v =>
        (v.name, v.storage, (({} : Analysis).analyze t).2.types.stride v.ty)) : Option _) =
      some (2, [("a", .local 2, 3), ("x", .local 5, 1), ("y", .local 6, 1), ("x", .local 7, 2)]) := by
    decide +kernel
  simp only [Option.bind_eq_bind, Option.bind_eq_some_iff] at outcome
  obtain ⟨t, read, t', accepted, f, function, s, body, outcome⟩ := outcome
  have accepted := Syntax.toOption_eq_some accepted
  simp only [Option.pure_def, Option.some.injEq] at outcome
  have counted : InRow.Counted (({} : Analysis).analyze t).2.types f.params.length (stmtLocals s) := by
    have params := congrArg Prod.fst outcome
    have strides := congrArg (fun x => (x.2.map fun y => y.2.2).foldr (· + ·) 0) outcome
    simp only [List.map_map] at params strides
    unfold InRow.Counted
    rw [params]
    refine lt_of_eq_of_lt (congrArg (2 + ·) strides) ?_
    decide
  exact ⟨t, t', f, s, read, accepted, function, body, outcome, counted, analyze_frame .start accepted function body counted⟩

/-- An object of the program that a block declares is no name of the block: the identifier is bound to the parameter
that has its name. A static object of the block hides the parameter. -/
theorem parameter_shows_through_extern :
    ["extern int x", "static int x = 5"].map (fun declaration =>
      (compile ("int x = 5; int f(int x) \x7b \x7b " ++ declaration ++ "; return x; \x7d \x7d") {}).toOption.bind fun c =>
        match Machine.link c {} with
        | .error .. => none
        | .ok _ m => match Exec.call none "f" [.int 1] (⟨m, ()⟩ : World Unit) with
          | .ok v _ => v
          | .error .. => none) = [some (.int 1), some (.int 5)] := by
  decide +kernel

end Analysis

end IncrementalC
