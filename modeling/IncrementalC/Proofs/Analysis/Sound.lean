import IncrementalC.Proofs.Analysis.Journal
import IncrementalC.Proofs.Token.Word

/-!
# Sound states

* `Ty.Spelled`, `Ty.Definite`, `Ty.IsObject`: which types a declaration can name, which hang on no
  unknown name, and which an object can have.
* `Analysis.Sound`: what is known of every name that the analysis has entered.
* `Analysis.Extends a b`: what `a` knows is still true in `b`, and the errors of `a` are in `b`.
-/
namespace IncrementalC
set_option autoImplicit false
open Typed Relation

/-! ## Types -/

namespace Ty

/-- A type that specifiers and a declarator can spell. -/
def Spelled : Ty → Prop
  | .pointer t => t.Spelled
  | .array t n => t.Spelled ∧ ∀ k, n = some k → k < UInt64.size / 2
  | .enum name => IsWord name
  | .dependent | .dynamic => False
  | _ => True

/-- A type that hangs on no unknown name. -/
def Definite : Ty → Prop
  | .pointer t | .array t _ => t.Definite
  | .enum name => IsWord name
  | .dependent => False
  | _ => True

structure IsObject (t : Ty) : Prop where
  definite : t.Definite
  notVoid : t ≠ .void

theorem Spelled.definite {t : Ty} (h : t.Spelled) : t.Definite := by
  induction t with
  | pointer t ih => exact ih h
  | array t n ih => exact ih h.1
  | enum name => exact h
  | dependent => exact h
  | _ => trivial

theorem Definite.decay {t : Ty} (h : t.Definite) : t.decay.Definite := by
  cases t <;> exact h

theorem Spelled.pointers {t : Ty} (h : t.Spelled) (n : Nat) : (Analyze.pointers n t).Spelled := by
  induction n generalizing t with
  | zero => exact h
  | succ n ih => exact ih (t := .pointer t) h

theorem Definite.not_isDependent {t : Ty} (h : t.Definite) : t.isDependent = false := by
  cases t with
  | dependent => exact h.elim
  | _ => rfl

theorem IsObject.decay {t : Ty} (h : t.IsObject) : t.decay.IsObject := by
  refine ⟨h.definite.decay, ?_⟩
  cases t with
  | void => exact absurd rfl h.notVoid
  | _ => exact nofun

theorem isVoid_iff {t : Ty} : t.isVoid = true ↔ t = .void := by
  cases t <;> simp [isVoid]

end Ty

/-! ## Names -/

structure FunctionSig.Sound (sig : FunctionSig) : Prop where
  ret : sig.ret.Definite
  params : ∀ t ∈ sig.params, t.IsObject

def Symbol.Sound : Symbol → Prop
  | .var ty .. => ty.IsObject
  | .function sig _ => sig.Sound
  | .typedef ty => ty.Spelled
  | .enumConst _ ty => ty.IsObject ∧ ty.scalar? = some .i32

def LocalSymbol.Sound : LocalSymbol → Prop
  | .var ty binding => ty.IsObject ∧ binding.isVariable
  | .typedef ty => ty.Spelled
  | .enumConst _ ty => ty.IsObject ∧ ty.scalar? = some .i32

structure RecordDef.Sound (r : RecordDef) : Prop where
  name : IsWord r.name
  fields : ∀ f ∈ r.fields, f.ty.IsObject
  incomplete : r.complete = false → r.fields = []

structure Analysis.Sound (a : Analysis) : Prop where
  global : ∀ name s, a.names.globals.get? name = some s → s.Sound
  record : ∀ id r, a.types.record? id = some r → r.Sound
  scopes : ∀ scope ∈ a.scopes, ∀ name s, scope.get? name = some s → s.Sound
  fallback : ∀ name ty v, a.fallback.bind (·.lookup? name) = some (.bind ty v) → ty.IsObject

theorem Builtin.signature?_sound {b : Builtin} {sig : FunctionSig} (h : b.signature? = some sig) :
    sig.Sound := by
  have charPtr : Ty.charPtr.IsObject := ⟨trivial, nofun⟩
  have signedInt : Ty.signedInt.IsObject := ⟨trivial, nofun⟩
  have long : Ty.long.IsObject := ⟨trivial, nofun⟩
  have double : Ty.double.IsObject := ⟨trivial, nofun⟩
  have voidPtr : Ty.voidPtr.IsObject := ⟨trivial, nofun⟩
  cases b <;> cases h <;> refine ⟨trivial, ?_⟩ <;>
    simp only [List.forall_mem_cons, List.not_mem_nil, false_implies, implies_true,
      charPtr, signedInt, long, double, voidPtr, and_self]

namespace Analysis

theorem Sound.of_lookupLocal? {a : Analysis} (h : a.Sound) {name : String} {s : LocalSymbol}
    (found : a.lookupLocal? name = some s) : s.Sound := by
  obtain ⟨scope, mem, entry⟩ := List.exists_of_findSome?_eq_some found
  exact h.scopes scope mem name s entry

theorem Sound.of_signature? {a : Analysis} (h : a.Sound) {name : String} {sig : FunctionSig}
    (found : a.signature? name = some sig) : sig.Sound := by
  unfold Analysis.signature? at found
  split at found
  · rename_i sig' d entry
    cases found
    exact h.global name _ entry
  · cases found

theorem Sound.of_namedType? {a : Analysis} (h : a.Sound) {name : String} {ty : Ty}
    (word : IsWord name) (found : a.namedType? name = some ty) : ty.Spelled := by
  unfold Analysis.namedType? at found
  dsimp only at found
  split at found
  · rename_i ty' _ _ hlocal
    cases found
    obtain ⟨scope, mem, entry⟩ := List.exists_of_findSome?_eq_some hlocal
    split at entry
    · rename_i ty'' entry'
      cases entry
      exact h.scopes scope mem name _ entry'
    · cases entry
  · rename_i ty' _ entry
    cases found
    exact h.global name _ entry
  · cases found
    trivial
  · cases found
    exact word
  · cases found

/-! ## Growing states -/

structure Extends (a b : Analysis) : Prop where
  errors : b.errors = #[] → a.errors = #[]
  fallback : b.fallback = a.fallback
  hooks : b.hasHooks = a.hasHooks
  complete : ∀ id r, a.types.record? id = some r → r.complete = true →
    b.types.record? id = some r
  signature : ∀ name sig, a.signature? name = some sig → b.signature? name = some sig

theorem Extends.refl (a : Analysis) : a.Extends a :=
  ⟨id, rfl, rfl, fun _ _ h _ => h, fun _ _ h => h⟩

theorem Extends.trans {a b c : Analysis} (h : a.Extends b) (h' : b.Extends c) : a.Extends c :=
  ⟨fun e => h.errors (h'.errors e), h'.fallback.trans h.fallback, h'.hooks.trans h.hooks,
    fun id r hr hc => h'.complete id r (h.complete id r hr hc) hc,
    fun name sig hs => h'.signature name sig (h.signature name sig hs)⟩

end Analysis

namespace Analyze

/-- A global name that is new or agrees with its declarations keeps every signature. -/
theorem signature?_insert {a : Analysis} {name : String} {s : Symbol}
    (agrees : ∀ old, a.names.globals.get? name = some old → Redeclares old s)
    {other : String} {sig : FunctionSig} (h : a.signature? other = some sig) :
    ((setGlobal name s).run a).2.signature? other = some sig := by
  have lookup : ((setGlobal name s).run a).2.names.globals.get? other
      = if other = name then some s else a.names.globals.get? other := NameMap.get?_insert _ _ _ _
  unfold Analysis.signature? at h ⊢
  rw [lookup]
  by_cases same : other = name
  · rw [same] at h
    rw [if_pos same]
    split at h
    · rename_i sig' d entry
      cases h
      cases agrees _ entry with
      | function => rfl
    · cases h
  · rw [if_neg same]
    exact h

theorem Report.extends {a b : Analysis} (h : Report a b) : a.Extends b := by
  cases h with
  | error e =>
    refine ⟨fun he => ?_, rfl, rfl, fun _ _ h _ => h, fun _ _ h => h⟩
    exact absurd he (Array.push_ne_empty)

theorem Mention.extends {a b : Analysis} (h : Mention a b) : a.Extends b := by
  cases h with
  | report h => exact h.extends
  | record fresh =>
    refine ⟨id, rfl, rfl, fun id r hr _ => ?_, fun _ _ h => h⟩
    rw [record?_withRecord, if_neg]
    · exact hr
    · exact Nat.ne_of_lt (TypeTable.lt_size hr)
  | value fresh known =>
    refine ⟨id, rfl, rfl, fun _ _ h _ => h, fun other sig h => ?_⟩
    exact signature?_insert (fun old hold => by rw [fresh] at hold; cases hold) h

theorem Change.extends {a b : Analysis} (h : Change a b) : a.Extends b := by
  cases h with
  | mention h => exact h.extends
  | global agrees => exact ⟨id, rfl, rfl, fun _ _ h _ => h, fun _ _ h => signature?_insert agrees h⟩
  | enum _ => exact ⟨id, rfl, rfl, fun _ _ h _ => h, fun _ _ h => h⟩
  | @complete id' old name fields present incomplete tagged _ =>
    rw [run_defineRecord, present]
    refine ⟨id, rfl, rfl, fun other r hr hc => ?_, fun _ _ h => h⟩
    have other_ne : other ≠ id' := by
      rintro rfl
      rw [present] at hr
      cases hr
      rw [incomplete] at hc
      cases hc
    show (a.types.set id' _).record? other = _
    rw [TypeTable.record?_set, if_neg other_ne.symm]
    exact hr
  | scopes _ => exact ⟨id, rfl, rfl, fun _ _ h _ => h, fun _ _ h => h⟩
  | function _ => exact ⟨id, rfl, rfl, fun _ _ h _ => h, fun _ _ h => h⟩

theorem Changes.extends {a b : Analysis} (h : ReflTransGen Change a b) : a.Extends b := by
  induction h with
  | refl => exact .refl a
  | tail _ h ih => exact ih.trans h.extends

/-- A step that only finds errors, and finds none, leaves the state as it is. -/
theorem Does.unchanged {α : Type} {m : Analyze α} (hm : Does Report m) {a : Analysis}
    (accepted : (m.run a).2.errors = #[]) : (m.run a).2 = a := by
  have reports : ReflTransGen Report a (m.run a).2 := hm a
  generalize (m.run a).2 = b at reports accepted
  cases reports with
  | refl => rfl
  | tail _ h =>
    cases h with
    | error e => exact absurd accepted Array.push_ne_empty

end Analyze

end IncrementalC
