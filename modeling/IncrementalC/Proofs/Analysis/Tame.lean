import IncrementalC.Proofs.Analysis.UnitChanges

/-!
# Declarations that define nothing

`TameBut N a b`: on the way from `a` to `b` nothing is defined but what is in `N`, no local object is
entered and the function at hand stays as it is. Expressions are tame (`Mention.tame`), and so is every
declaration but that of an object or of a function with its body.
-/
namespace IncrementalC
set_option autoImplicit false
open Relation
open Typed (DeclKind VarDecl)

/-! ## Definitions -/

/-- Something that the code of a program has to bring along. -/
inductive Definition where
  | object (linkName : String)
  | function (name : String)

/-- What a symbol stands for under a name, if it is defined. -/
def Symbol.Defines (name : String) (s : Symbol) : Definition → Prop
  | .object link => ∃ ty, s = .var ty link true
  | .function other => other = name ∧ ∃ sig, s = .function sig true

theorem Symbol.not_defines {name : String} {s : Symbol} {d : Definition}
    (object : ∀ ty link, s ≠ .var ty link true) (function : ∀ sig, s ≠ .function sig true) :
    ¬s.Defines name d := by
  cases d with
  | object link => exact fun ⟨ty, same⟩ => object ty link same
  | function other => exact fun ⟨_, sig, same⟩ => function sig same

/-- The analysis takes it for defined. -/
def Analysis.Defines (a : Analysis) (d : Definition) : Prop :=
  ∃ name s, a.names.globals.get? name = some s ∧ s.Defines name d

/-- The local objects in the scopes lie in the first `n` slots of the frame. -/
def ScopesWithin (n : Nat) (scopes : List (NameMap LocalSymbol)) : Prop :=
  ∀ scope ∈ scopes, ∀ name ty slot, scope.get? name = some (.var ty (.local slot)) → slot < n

/-! ## Tame changes -/

structure TameBut (N : Definition → Prop) (a b : Analysis) : Prop where
  function : b.function = a.function
  scopes : ∀ n, ScopesWithin n a.scopes → ScopesWithin n b.scopes
  fallback : b.fallback = a.fallback
  defined : a.fallback = none → ∀ d, b.Defines d → a.Defines d ∨ N d

variable {N N' : Definition → Prop} {a b c : Analysis} {name : String}

theorem TameBut.refl (a : Analysis) : TameBut N a a :=
  ⟨rfl, fun _ h => h, rfl, fun _ _ h => .inl h⟩

theorem TameBut.trans (h : TameBut N a b) (h' : TameBut N b c) : TameBut N a c := by
  refine ⟨h'.function.trans h.function, fun n within => h'.scopes n (h.scopes n within),
    h'.fallback.trans h.fallback, fun none d defined => ?_⟩
  rcases h'.defined (h.fallback.trans none) d defined with before | new
  · exact h.defined none d before
  · exact .inr new

theorem TameBut.mono (h : TameBut N a b) (hN : ∀ d, N d → N' d) : TameBut N' a b :=
  ⟨h.function, h.scopes, h.fallback, fun none d defined => (h.defined none d defined).imp_right (hN d)⟩

namespace Analyze

theorem tame_of_steps (h : ReflTransGen (TameBut N) a b) : TameBut N a b := by
  induction h with
  | refl => exact .refl _
  | tail _ step ih => exact ih.trans step

theorem defines_setGlobal {s : Symbol} {d : Definition} (h : ((setGlobal name s).run a).2.Defines d) :
    a.Defines d ∨ s.Defines name d := by
  obtain ⟨other, s', found, defined⟩ := h
  have lookup : ((setGlobal name s).run a).2.names.globals.get? other
      = if other = name then some s else a.names.globals.get? other := NameMap.get?_insert _ _ _ _
  rw [lookup] at found
  split at found
  · rename_i same
    cases found
    exact .inr (same ▸ defined)
  · exact .inl ⟨other, s', found, defined⟩

theorem tame_setGlobal {s : Symbol} (known : ∀ d, s.Defines name d → a.Defines d ∨ N d) :
    TameBut N a ((setGlobal name s).run a).2 :=
  ⟨rfl, fun _ h => h, rfl, fun _ d defined => (defines_setGlobal defined).elim .inl (known d)⟩

/-- A change of nothing but types, tags and errors. -/
theorem tame_of_same (function : b.function = a.function) (scopes : b.scopes = a.scopes)
    (fallback : b.fallback = a.fallback) (globals : b.names.globals = a.names.globals) : TameBut N a b := by
  refine ⟨function, fun n h => scopes ▸ h, fallback, fun _ d ⟨name, s, found, defined⟩ => .inl ?_⟩
  exact ⟨name, s, globals ▸ found, defined⟩

theorem tame_setLocal {s : LocalSymbol} (noObject : ∀ ty slot, s ≠ .var ty (.local slot)) :
    TameBut N a ((setLocal name s).run a).2 := by
  rw [run_setLocal]
  split
  · rename_i scope scopes inner
    refine ⟨rfl, fun n within => ?_, rfl, fun _ d h => .inl h⟩
    rw [inner] at within
    intro scope' mem other ty slot found
    cases mem with
    | head =>
      rw [NameMap.get?_insert] at found
      split at found
      · exact absurd (Option.some.inj found) (noObject ty slot)
      · exact within scope List.mem_cons_self other ty slot found
    | tail _ mem => exact within scope' (List.mem_cons_of_mem _ mem) other ty slot found
  · exact .refl a

theorem Mention.tame (h : Mention a b) : TameBut N a b := by
  cases h with
  | report h =>
    cases h
    exact tame_of_same rfl rfl rfl rfl
  | record fresh => exact tame_of_same rfl rfl rfl rfl
  | value fresh known => exact ⟨rfl, fun _ h => h, rfl, fun none => by rw [none] at known; cases known⟩

/-! ## Tame steps -/

namespace Does

variable {α : Type}

theorem tame {m : Analyze α} (hm : Does Mention m) : Does (TameBut N) m := hm.mono fun _ _ => Mention.tame

theorem tame_report (problem : Problem) (span : Span) : Does (TameBut N) (Analyze.report problem span) :=
  (mention_report problem span).tame

/-- A step that reports a problem and goes on. -/
theorem reports (problem : Problem) (span : Span) (x : α) : Does (TameBut N) (do
    Analyze.report problem span
    Pure.pure x) :=
  bind (tame_report problem span) fun _ => pure x

/-- An object that is no local one is defined if its declaration says so. -/
theorem tame_globalVar (v : VarDecl) (span : Span) :
    Does (TameBut fun d => v.isDefinition = true ∧ d = .object v.name) (Analyze.globalVar v span) := by
  refine bind get fun a => ?_
  extract_lets types image v'
  have set : Does (TameBut fun d => v.isDefinition = true ∧ d = .object v.name) (do
      Analyze.setGlobal v'.name (.var v'.ty v'.linkName v'.isDefinition)
      Pure.pure v') := by
    refine fun a => bindAt (.single (tame_setGlobal fun d known => .inr ?_)) fun _ => pure _
    cases d with
    | object other =>
      obtain ⟨_, same⟩ := known
      obtain ⟨-, rfl, now⟩ := Symbol.var.inj same
      exact ⟨now, rfl⟩
    | function other => obtain ⟨_, _, impossible⟩ := known; cases impossible
  refine bind get fun b => ?_
  split
  · refine ite (bind (typeName _) fun _ => bind (typeName _) fun _ => reports _ _ _) ?_
    exact ite (reports _ _ _) set
  · exact reports _ _ _
  · exact set

/-- The head of a function defines it if a body comes with it. -/
theorem tame_functionHead (spec : Syntax.DeclSpec) (name : String) (d : Syntax.Declarator)
    (externC hasBody : Bool) :
    Does (TameBut fun d => hasBody = true ∧ d = .function name)
      (Analyze.functionHead spec name d externC hasBody) := by
  unfold Analyze.functionHead
  refine bind (baseType spec).tame fun base => ?_
  dsimp only
  split
  · refine bind (params _ _).tame fun ps => read fun a => ?_
    split
    · rename_i old defined found
      split
      · exact reports _ _ _ a
      · split
        · exact reports _ _ _ a
        · refine bindAt (.single (tame_setGlobal fun d known => ?_)) fun _ => pure _
          cases d with
          | object link => obtain ⟨_, impossible⟩ := known; cases impossible
          | function other =>
            obtain ⟨rfl, sig, same⟩ := known
            obtain ⟨-, either⟩ := Symbol.function.inj same
            rcases Bool.or_eq_true_iff.mp either with before | now
            · exact .inl ⟨other, _, found, rfl, old, by rw [before]⟩
            · exact .inr ⟨now, rfl⟩
    · exact reports _ _ _ a
    · rename_i fresh
      refine bindAt (.single (tame_setGlobal fun d known => .inr ?_)) fun _ => pure _
      cases d with
      | object link => obtain ⟨_, impossible⟩ := known; cases impossible
      | function other =>
        obtain ⟨rfl, sig, same⟩ := known
        exact ⟨(Symbol.function.inj same).2, rfl⟩
  · exact reports _ _ _

theorem tame_recordDecl (kind : Syntax.RecordKind) (name : String)
    (fds : Option (List Syntax.FieldDecl)) (span : Span) :
    Does (TameBut N) (Analyze.recordDecl kind name fds span) := by
  unfold Analyze.recordDecl
  extract_lets decl complete
  have completes (id : RecordId) : Does (TameBut N) (complete id) := by
    dsimp only [complete]
    cases fds with
    | none => exact pure _
    | some fds =>
      refine bind get fun a => ite (reports _ _ _) (bind (fieldDecls fds _).tame fun fields => ?_)
      refine bind (fun a => .single ?_) fun _ => pure _
      rw [run_defineRecord]
      split
      · exact tame_of_same rfl rfl rfl rfl
      · exact .refl _
  refine read fun a => ?_
  split
  · exact completes _ a
  · exact reports _ _ _ a
  · rename_i fresh
    exact bindAt (.single (Mention.tame (.record fresh))) fun id => completes id

theorem tame_enumerators (ty : Ty) (next : Int64) (vs : List Syntax.Enumerator) :
    Does (TameBut N) (Analyze.enumerators ty next vs) := by
  induction vs generalizing next with
  | nil => exact pure _
  | cons v vs ih =>
    have enter (value : Int64) : Does (TameBut N) (do
        let a ← MonadState.get
        if a.function.isSome then Analyze.setLocal v.name (.enumConst value ty)
        else if a.names.globals.contains v.name then Analyze.report (.redefinition v.name) v.span
        else Analyze.setGlobal v.name (.enumConst value ty)
        Pure.pure ((v.name, value) :: (← Analyze.enumerators ty (value + 1) vs))) := by
      have rest (_ : PUnit) : Does (TameBut N) (do
          Pure.pure ((v.name, value) :: (← Analyze.enumerators ty (value + 1) vs))) :=
        bind (ih _) fun _ => pure _
      refine read fun a => ?_
      split
      · exact bindAt (.single (tame_setLocal nofun)) rest
      · split
        · exact bindAt (tame_report _ _ a) rest
        · refine bindAt (.single (tame_setGlobal fun d known => ?_)) rest
          cases d with
          | object link => obtain ⟨_, impossible⟩ := known; cases impossible
          | function other => obtain ⟨_, _, impossible⟩ := known; cases impossible
    rw [Analyze.enumerators]
    dsimp only
    split
    · exact enter _
    · refine bind (expr _).tame fun e => bind get fun a => ?_
      split
      · exact enter _
      · exact bind (tame_report _ _) fun _ => enter _

theorem tame_enumDecl (name : Option String) (vs : List Syntax.Enumerator) (span : Span) :
    Does (TameBut N) (Analyze.enumDecl name vs span) := by
  unfold Analyze.enumDecl
  cases name with
  | none => exact bind (tame_enumerators _ _ _) fun _ => pure _
  | some tag =>
    refine bind get fun a => ite (reports _ _ _) ?_
    exact bind (fun a => .single (tame_of_same rfl rfl rfl rfl)) fun _ =>
      bind (tame_enumerators _ _ _) fun _ => pure _

theorem tame_typedefDecl (spec : Syntax.DeclSpec) (name : String) (d : Syntax.Declarator)
    (span : Span) : Does (TameBut N) (Analyze.typedefDecl spec name d span) := by
  unfold Analyze.typedefDecl
  refine bind (baseType spec).tame fun base => bind (declaredType base d).tame fun ty => ?_
  refine read fun a => ?_
  split
  · exact bindAt (.single (tame_setLocal nofun)) fun _ => pure _
  · split
    · refine ite (bind (typeName _) fun _ => bind (typeName _) fun _ => reports _ _ _) (pure _) a
    · exact reports _ _ _ a
    · exact bindAt (.single (tame_setGlobal fun d known => absurd known (Symbol.not_defines nofun nofun)))
        fun _ => pure _

end Does

end Analyze

end IncrementalC
