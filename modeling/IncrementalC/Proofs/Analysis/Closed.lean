import IncrementalC.Proofs.Analysis.Journal

/-!
# Every record that is named exists

`ty.Within n`: the records that the type names are among the first `n` of the table. In a `Closed` state this holds of all
types in symbols and fields and of all tags. It stays so when names with such types are entered.

`KeepsClosed n Q m`: from a closed state with `n` records the step `m` leads to a closed one with at least as many, and its
result satisfies `Q`. The typing rules give types that name no other records than those of their operands, so
expressions and type names are such steps.
-/
namespace IncrementalC
set_option autoImplicit false
open Relation
open Typed (Expr Binding)

/-! ## Types -/

namespace Ty

/-- The records that the type names are among the first `n`. -/
def Within (n : Nat) : Ty → Prop
  | .pointer t | .array t _ => t.Within n
  | .record id => id < n
  | _ => True

variable {t s : Ty} {n k : Nat}

theorem Within.mono (h : t.Within n) (le : n ≤ k) : t.Within k := by
  induction t with
  | pointer t ih | array t _ ih => exact ih h
  | record id => exact Nat.lt_of_lt_of_le h le
  | _ => trivial

theorem Within.decay (h : t.Within n) : t.decay.Within n := by
  cases t <;> exact h

theorem Within.of_decay_pointer (h : t.Within n) (same : t.decay = .pointer s) : s.Within n := by
  have decayed := h.decay
  rw [same] at decayed
  exact decayed

theorem Within.pointee (h : t.Within n) (same : t.pointee? = some s) : s.Within n := by
  cases t <;> cases same <;> exact h

theorem Within.promote (h : t.Within n) : t.promote.Within n := by
  cases t with
  | int k =>
    unfold Ty.promote
    dsimp only
    split <;> trivial
  | _ => exact h

theorem Within.common (h : t.Within n) : (Ty.common t s).Within n := by
  unfold Ty.common
  split
  · trivial
  split
  · trivial
  split
  · trivial
  split
  · trivial
  · exact h.promote

theorem Within.pointers (h : t.Within n) (m : Nat) : (Analyze.pointers m t).Within n := by
  induction m generalizing t with
  | zero => exact h
  | succ m ih => exact ih (t := .pointer t) h

end Ty

/-! ## Names -/

structure FunctionSig.Within (n : Nat) (sig : FunctionSig) : Prop where
  ret : sig.ret.Within n
  params : ∀ ty ∈ sig.params, ty.Within n

def Symbol.Within (n : Nat) : Symbol → Prop
  | .var ty .. | .typedef ty | .enumConst _ ty => ty.Within n
  | .function sig _ => sig.Within n

def LocalSymbol.Within (n : Nat) : LocalSymbol → Prop
  | .var ty _ | .typedef ty | .enumConst _ ty => ty.Within n

def Tag.Within (n : Nat) : Tag → Prop
  | .record id => id < n
  | .enum => True

/-- What the host binds has a type that names no record. -/
def Fallback.Plain (f : Fallback) : Prop := ∀ name ty v, f.lookup? name = some (.bind ty v) → ty.Within 0

/-- The records that global symbols, tags and fields name are in the table. -/
structure Names.Closed (n : Names) : Prop where
  global : ∀ name s, n.globals.get? name = some s → s.Within n.types.size
  tag : ∀ name t, n.tags.get? name = some t → t.Within n.types.size
  field : ∀ id r, n.types.record? id = some r → ∀ f ∈ r.fields, f.ty.Within n.types.size

structure Analysis.Closed (a : Analysis) : Prop extends a.names.Closed where
  scopes : ∀ scope ∈ a.scopes, ∀ name s, scope.get? name = some s → s.Within a.types.size
  fallback : ∀ f, a.fallback = some f → f.Plain

section

variable {n k : Nat}

theorem FunctionSig.Within.mono {sig : FunctionSig} (h : sig.Within n) (le : n ≤ k) : sig.Within k :=
  ⟨h.ret.mono le, fun ty mem => (h.params ty mem).mono le⟩

theorem Symbol.Within.mono {s : Symbol} (h : s.Within n) (le : n ≤ k) : s.Within k := by
  cases s with
  | function sig _ => exact FunctionSig.Within.mono h le
  | var ty _ _ | typedef ty | enumConst _ ty => exact Ty.Within.mono h le

theorem LocalSymbol.Within.mono {s : LocalSymbol} (h : s.Within n) (le : n ≤ k) : s.Within k := by
  cases s <;> exact Ty.Within.mono h le

theorem Tag.Within.mono {t : Tag} (h : t.Within n) (le : n ≤ k) : t.Within k := by
  cases t with
  | record id => exact Nat.lt_of_lt_of_le h le
  | enum => trivial

theorem Builtin.signature?_within {b : Builtin} {sig : FunctionSig} (h : b.signature? = some sig) : sig.Within n := by
  cases b <;> cases h <;> refine ⟨trivial, ?_⟩ <;>
    simp [Ty.Within, Ty.charPtr, Ty.char, Ty.signedInt, Ty.long, Ty.voidPtr]

end

/-! ## Closed states -/

namespace Analysis

variable {a b : Analysis} {name : String}

theorem Closed.of_lookupLocal? (h : a.Closed) {s : LocalSymbol} (found : a.lookupLocal? name = some s) :
    s.Within a.types.size := by
  obtain ⟨scope, mem, entry⟩ := List.exists_of_findSome?_eq_some found
  exact h.scopes scope mem name s entry

theorem Closed.of_namedType? (h : a.Closed) {ty : Ty} (found : a.namedType? name = some ty) : ty.Within a.types.size := by
  unfold Analysis.namedType? at found
  dsimp only at found
  split at found
  · rename_i ty' _ _ here
    cases found
    obtain ⟨scope, mem, entry⟩ := List.exists_of_findSome?_eq_some here
    split at entry
    · rename_i ty'' entry'
      cases entry
      exact h.scopes scope mem name _ entry'
    · cases entry
  · rename_i ty' _ entry
    cases found
    exact h.global name _ entry
  · rename_i entry _
    cases found
    exact h.tag name _ entry
  · cases found
    trivial
  · cases found

/-- Other scopes, with symbols of the same table. -/
theorem Closed.withScopes (h : a.Closed) {scopes : List (NameMap LocalSymbol)}
    (within : ∀ scope ∈ scopes, ∀ name s, scope.get? name = some s → s.Within a.types.size) : { a with scopes }.Closed :=
  { h with scopes := within }

theorem Closed.setGlobal (h : a.Closed) {s : Symbol} (within : s.Within a.types.size) :
    ((Analyze.setGlobal name s).run a).2.Closed := by
  refine { h with global := fun other s' found => ?_ }
  have found : (a.names.globals.insert name s).get? other = some s' := found
  rw [NameMap.get?_insert] at found
  split at found
  · cases found
    exact within
  · exact h.global other s' found

theorem Closed.setTag (h : a.Closed) {t : Tag} (within : t.Within a.types.size) :
    ((Analyze.setTag name t).run a).2.Closed := by
  refine { h with tag := fun other t' found => ?_ }
  have found : (a.names.tags.insert name t).get? other = some t' := found
  rw [NameMap.get?_insert] at found
  split at found
  · cases found
    exact within
  · exact h.tag other t' found

theorem Closed.setLocal (h : a.Closed) {s : LocalSymbol} (within : s.Within a.types.size) :
    ((Analyze.setLocal name s).run a).2.Closed := by
  rw [Analyze.run_setLocal]
  split
  · rename_i scope scopes opened
    refine h.withScopes fun scope' mem other s' found => ?_
    rcases List.mem_cons.mp mem with rfl | mem
    · rw [NameMap.get?_insert] at found
      split at found
      · cases found
        exact within
      · exact h.scopes scope (by rw [opened]; exact List.mem_cons_self) other s' found
    · exact h.scopes scope' (by rw [opened]; exact List.mem_cons_of_mem _ mem) other s' found
  · exact h

/-- A longer table. -/
theorem Closed.addRecord (h : a.Closed) {r : RecordDef} (within : ∀ f ∈ r.fields, f.ty.Within a.types.size) :
    ((Analyze.addRecord r).run a).2.Closed := by
  have size : ((Analyze.addRecord r).run a).2.types.size = a.types.size + 1 := Array.size_push _
  have le : a.types.size ≤ ((Analyze.addRecord r).run a).2.types.size := size ▸ Nat.le_succ _
  exact
    { h with
      global := fun name s found => (h.global name s found).mono le
      tag := fun name t found => (h.tag name t found).mono le
      scopes := fun scope mem name s found => (h.scopes scope mem name s found).mono le
      field := fun id r' found f mem => by
        have found : (a.types.add r).record? id = some r' := found
        rw [TypeTable.record?_add] at found
        split at found
        · cases found
          exact (within f mem).mono le
        · exact (h.field id r' found f mem).mono le }

theorem size_defineRecord (a : Analysis) (id : RecordId) (r : RecordDef) :
    ((Analyze.defineRecord id r).run a).2.types.size = a.types.size := by
  rw [Analyze.run_defineRecord]
  split
  · exact TypeTable.size_set _ _ _
  · rfl

theorem Closed.defineRecord (h : a.Closed) {id : RecordId} {r : RecordDef}
    (within : ∀ f ∈ r.fields, f.ty.Within a.types.size) : ((Analyze.defineRecord id r).run a).2.Closed := by
  have size := size_defineRecord a id r
  rw [Analyze.run_defineRecord] at size ⊢
  split
  · rename_i old present
    rw [present] at size
    have size : (a.types.set id r).size = a.types.size := size
    exact
      { h with
        global := fun name s found => show s.Within (a.types.set id r).size from size ▸ h.global name s found
        tag := fun name t found => show t.Within (a.types.set id r).size from size ▸ h.tag name t found
        scopes := fun scope mem name s found =>
          show s.Within (a.types.set id r).size from size ▸ h.scopes scope mem name s found
        field := fun other r' found f mem => by
          show f.ty.Within (a.types.set id r).size
          rw [size]
          have found : (a.types.set id r).record? other = some r' := found
          rw [TypeTable.record?_set, if_pos (TypeTable.lt_size present)] at found
          split at found
          · cases found
            exact within f mem
          · exact h.field other r' found f mem }
  · exact h

end Analysis

namespace Analyze

/-! ## Steps -/

variable {α β : Type} {n : Nat} {Q : Nat → α → Prop} {R : Nat → β → Prop}

/-- From a closed state with `n` records the step leads to a closed one with at least as many, and gives such a result. -/
def KeepsClosed (n : Nat) (Q : Nat → α → Prop) (m : Analyze α) : Prop :=
  ∀ a : Analysis, a.Closed → a.types.size = n →
    (m.run a).2.Closed ∧ n ≤ (m.run a).2.types.size ∧ Q (m.run a).2.types.size (m.run a).1

/-- No matter what the step gives. -/
abbrev Anyway : Nat → α → Prop := fun _ _ => True

theorem Report.closed {a b : Analysis} (h : Report a b) (closed : a.Closed) : b.Closed ∧ b.types = a.types := by
  cases h
  exact ⟨{ closed with }, rfl⟩

theorem Reports.closed {a b : Analysis} (h : ReflTransGen Report a b) (closed : a.Closed) :
    b.Closed ∧ b.types = a.types := by
  induction h with
  | refl => exact ⟨closed, rfl⟩
  | tail _ h ih =>
    obtain ⟨closed, same⟩ := ih
    exact (h.closed closed).imp_right (·.trans same)

namespace KeepsClosed

theorem pure {x : α} (h : Q n x) : KeepsClosed n Q (Pure.pure x) := by
  rintro a closed rfl
  exact ⟨closed, Nat.le_refl _, h⟩

theorem bind {m : Analyze α} {f : α → Analyze β} (hm : KeepsClosed n Q m)
    (hf : ∀ k x, n ≤ k → Q k x → KeepsClosed k R (f x)) : KeepsClosed n R (m >>= f) := by
  intro a closed size
  obtain ⟨closed, le, given⟩ := hm a closed size
  obtain ⟨closed, le', given⟩ := hf _ _ le given _ closed rfl
  exact ⟨closed, Nat.le_trans le le', given⟩

theorem read {f : Analysis → Analyze β} (hf : ∀ a : Analysis, a.Closed → a.types.size = n → KeepsClosed n R (f a)) :
    KeepsClosed n R (MonadState.get >>= f) :=
  fun a closed size => hf a closed size a closed size

theorem ite {c : Prop} [Decidable c] {m m' : Analyze α} (h : KeepsClosed n Q m) (h' : KeepsClosed n Q m') :
    KeepsClosed n Q (if c then m else m') := by
  split
  · exact h
  · exact h'

theorem mono {Q' : Nat → α → Prop} {m : Analyze α} (h : KeepsClosed n Q m) (hQ : ∀ k x, Q k x → Q' k x) : KeepsClosed n Q' m :=
  fun a closed size => (h a closed size).imp_right (.imp_right (hQ _ _))

theorem anyway {m : Analyze α} (h : KeepsClosed n Q m) : KeepsClosed n Anyway m := h.mono fun _ _ _ => trivial

/-- A step that leads to a closed state of the same size. -/
theorem update {g : Analysis → Analysis}
    (hg : ∀ a : Analysis, a.Closed → a.types.size = n → (g a).Closed ∧ (g a).types.size = n) :
    KeepsClosed n Anyway (modify g : Analyze PUnit) := by
  intro a closed size
  obtain ⟨closed, size⟩ := hg a closed size
  exact ⟨closed, Nat.le_of_eq size.symm, trivial⟩

/-- A rule that only finds errors. -/
theorem rule {m : Analyze α} (does : Does Report m) (gives : Gives m (Q n)) : KeepsClosed n Q m := by
  rintro a closed rfl
  obtain ⟨closed, same⟩ := Reports.closed (does a) closed
  have size : (m.run a).2.types.size = a.types.size := congrArg TypeTable.size same
  exact ⟨closed, Nat.le_of_eq size.symm, size ▸ gives a⟩

theorem check {m : Analyze α} (does : Does Report m) : KeepsClosed n Anyway m := rule does fun _ => trivial

theorem report (problem : Problem) (span : Span) : KeepsClosed n Anyway (report problem span) := check (Does.report _ _)

/-- A report, behind which the result stands. -/
theorem reported {problem : Problem} {span : Span} {x : α} (h : Q n x) :
    KeepsClosed n Q (do Analyze.report problem span; Pure.pure x) :=
  rule (Does.bind (Does.report _ _) fun _ => Does.pure _) (Gives.skip fun _ => Gives.pure h)

/-- The name of a type is looked up on the way. -/
theorem named {ty : Ty} {f : String → Analyze α} (h : ∀ name, KeepsClosed n Q (f name)) :
    KeepsClosed n Q (typeName ty >>= f) :=
  fun a closed size => h (a.types.name ty) a closed size

end KeepsClosed

/-! ## Typing rules -/

theorem intLiteralType_within (value : Nat) (suffix : IntSuffix) : (intLiteralType value suffix).Within n := by
  unfold intLiteralType
  cases suffix with
  | none =>
    dsimp only
    split
    · trivial
    · split <;> trivial
  | u | l =>
    dsimp only
    split <;> trivial
  | ul | ll | ull => trivial

namespace GivesWithin

open Gives (pure skip ite)

variable {span : Span} {e x y : Expr}

theorem fail {problem : Problem} : Gives (fail problem span) (Ty.Within n) := skip fun _ => pure trivial

theorem failNamed {problem : String → Problem} {ty : Ty} :
    Gives (do Analyze.fail (problem (← typeName ty)) span) (Ty.Within n) :=
  skip fun _ => fail

theorem failNamed₂ {problem : String → String → Problem} {ty ty' : Ty} :
    Gives (do Analyze.fail (problem (← typeName ty) (← typeName ty')) span) (Ty.Within n) :=
  skip fun _ => failNamed

theorem sizeofType (ty : Ty) (span : Span) : Gives (sizeofType ty span) (Ty.Within n) := by
  unfold Analyze.sizeofType
  exact ite (pure trivial) (skip fun _ => ite failNamed (pure trivial))

theorem sizeofExprType (e : Expr) (span : Span) : Gives (sizeofExprType e span) (Ty.Within n) := by
  unfold Analyze.sizeofExprType
  exact ite fail (sizeofType _ _)

theorem unaryType (op : UnaryOp) (he : e.ty.Within n) : Gives (unaryType op e span) (Ty.Within n) := by
  have operand := he.decay
  unfold Analyze.unaryType
  refine ite (pure trivial) ?_
  cases op with
  | neg | plus | bitNot => exact ite (pure trivial) (ite (pure operand.promote) failNamed)
  | not => exact ite (pure trivial) failNamed
  | deref =>
    dsimp only
    split
    · exact fail
    · rename_i inner same
      exact pure (he.of_decay_pointer same)
    · exact failNamed
  | addrOf => exact ite (pure he) fail
  | preInc | preDec | postInc | postDec => exact ite fail (ite failNamed (pure he))

theorem binaryType (op : BinaryOp) (hx : x.ty.Within n) (hy : y.ty.Within n) :
    Gives (binaryType op x y span) (Ty.Within n) := by
  have first := hx.decay
  have second := hy.decay
  unfold Analyze.binaryType
  refine ite (pure trivial) (ite (ite (pure trivial) failNamed₂) (ite ?_ (ite ?_ ?_)))
  · refine ite (pure ?_) failNamed₂
    split <;> trivial
  · exact skip fun _ => ite (pure trivial) failNamed₂
  · cases op with
    | add => exact ite (pure first.common) (ite (pure first) (ite (pure second) failNamed₂))
    | sub => exact ite (pure first.common) (ite (pure first) (ite (pure trivial) failNamed₂))
    | mul | div | rem | bitAnd | bitOr | bitXor => exact ite (pure first.common) failNamed₂
    | shl | shr => exact ite (pure first.promote) failNamed₂
    | _ => exact failNamed₂

theorem assignType (op : Option BinaryOp) (hx : x.ty.Within n) : Gives (assignType op x y span) (Ty.Within n) := by
  unfold Analyze.assignType
  refine ite (pure trivial) (ite fail (ite failNamed ?_))
  cases op with
  | some op => exact skip fun _ => pure hx
  | none => exact skip fun _ => pure hx

theorem conditionalType (c : Expr) (hx : x.ty.Within n) (hy : y.ty.Within n) :
    Gives (conditionalType c x y span) (Ty.Within n) := by
  unfold Analyze.conditionalType
  exact skip fun _ => ite (pure trivial) (ite fail (ite (pure trivial) (ite (pure hx.decay.common) (ite (pure hx.decay)
    (ite (pure hx.decay) (ite (pure hy.decay) failNamed₂))))))

theorem indexType (hx : x.ty.Within n) (hy : y.ty.Within n) : Gives (indexType x y span) (Ty.Within n) := by
  unfold Analyze.indexType
  refine ite (pure trivial) ?_
  extract_lets check
  have element {ptr i : Expr} (h : ptr.ty.Within n) : Gives (check ptr i) (Ty.Within n) := by
    refine ite fail ?_
    split
    · exact fail
    · exact fail
    · rename_i inner same
      exact pure (h.pointee same)
  exact ite (element hx) (ite (element hy) fail)

theorem castType {target : Ty} (e : Expr) (h : target.Within n) : Gives (castType target e span) (Ty.Within n) := by
  unfold Analyze.castType
  exact ite (pure trivial) (ite (pure h) (ite failNamed (ite failNamed (ite failNamed₂ (pure h)))))

theorem checkCall {name : String} {sig : FunctionSig} {args : List Expr} (h : sig.Within n) :
    Gives (checkCall name sig args span) (Ty.Within n) := by
  unfold Analyze.checkCall
  refine ite ?_ (ite ?_ ?_)
  · exact skip fun _ => pure h.ret
  · exact skip fun _ => pure h.ret
  · exact skip fun _ => skip fun _ => pure h.ret

theorem checkHook (name : String) (b : Builtin) (args : List Expr) : Gives (checkHook name b args span) (Ty.Within n) := by
  unfold Analyze.checkHook
  split
  · refine ite (skip fun _ => ?_) ?_
    · exact ite (skip fun _ => pure trivial) (pure trivial)
    · exact ite (skip fun _ => pure trivial) (pure trivial)
  · exact fail

end GivesWithin

namespace KeepsClosed

variable {span : Span}

theorem fail {problem : Problem} : KeepsClosed n (fun k ty => ty.Within k) (fail problem span) :=
  rule (Does.fail _ _) GivesWithin.fail

theorem fieldType {record : Ty} (field : String) : KeepsClosed n (fun k ty => ty.Within k) (fieldType record field span) := by
  unfold Analyze.fieldType
  cases record with
  | record id =>
    refine read fun a closed size => ?_
    split
    · rename_i f found
      obtain ⟨r, entry, found⟩ := Option.bind_eq_some_iff.mp found
      refine pure ?_
      rw [← size]
      exact closed.field id r entry f (List.mem_of_find?_eq_some found)
    · exact named fun _ => fail
  | _ => exact named fun _ => fail

theorem memberType (e : Expr) (field : String) (arrow : Bool) :
    KeepsClosed n (fun k ty => ty.Within k) (memberType e field arrow span) := by
  unfold Analyze.memberType
  refine ite (pure trivial) (ite ?_ (ite ?_ (fieldType _)))
  · split
    · exact fieldType _
    · exact named fun _ => fail
  · exact named fun _ => fail

theorem callType {name : String} {callee : Callee} {args : List Expr} (h : ∀ sig, callee = .function sig → sig.Within n) :
    KeepsClosed n (fun k ty => ty.Within k) (callType name callee args span) := by
  refine rule (Does.callType _ _ _ _) ?_
  unfold Analyze.callType
  cases callee with
  | dependent => exact Gives.pure trivial
  | function sig => exact GivesWithin.checkCall (h sig rfl)
  | builtin b =>
    dsimp only
    split
    · rename_i sig same
      exact GivesWithin.checkCall (Builtin.signature?_within same)
    · exact GivesWithin.checkHook _ _ _

/-! ## Names -/

theorem newRecord (name : String) : KeepsClosed n (fun k id => id < k) (newRecord name) := by
  rintro a closed rfl
  have size : (a.types.add ⟨name, [], false⟩).size = a.types.size + 1 := Array.size_push _
  have inside : a.types.size < (a.types.add ⟨name, [], false⟩).size := size ▸ Nat.lt_succ_self _
  have added : ((addRecord ⟨name, [], false⟩).run a).2.Closed := closed.addRecord nofun
  have tagged : ((setTag name (.record a.types.size)).run ((addRecord ⟨name, [], false⟩).run a).2).2.Closed :=
    added.setTag inside
  exact ⟨tagged, Nat.le_of_lt inside, inside⟩

theorem recover (name : String) : KeepsClosed n (fun k found => ∀ b ty, found = some (b, ty) → ty.Within k) (recover? name span) := by
  refine read fun a closed size => ?_
  split
  · exact pure nofun
  · exact pure fun b ty same => by cases same; trivial
  · rename_i ty value known
    obtain ⟨f, set, known⟩ := Option.bind_eq_some_iff.mp known
    have plain := closed.fallback f set name ty value known
    intro b closed size'
    have declared : ((Analyze.setGlobal name (.var ty name true)).run b).2.Closed := closed.setGlobal (plain.mono (Nat.zero_le _))
    refine ⟨{ declared with }, Nat.le_of_eq size'.symm, fun _ _ same => ?_⟩
    cases same
    exact plain.mono (Nat.zero_le _)

theorem identType (name : String) : KeepsClosed n (fun k found => found.2.Within k) (identType name span) := by
  have failed (b : Binding) (problem : Problem) :
      KeepsClosed n (fun k found => found.2.Within k) (do return (b, ← Analyze.fail problem span)) :=
    bind fail fun _ _ _ h => pure h
  refine read fun a closed size => ?_
  subst size
  split
  · rename_i ty binding found
    exact pure (closed.of_lookupLocal? found)
  · rename_i value ty found
    exact pure (closed.of_lookupLocal? found)
  · exact failed _ _
  · split
    · rename_i ty _ _ found
      exact pure (closed.global name _ found)
    · rename_i value ty found
      exact pure (closed.global name _ found)
    · exact failed _ _
    · exact failed _ _
    · refine ite (failed _ _) (bind (recover name) fun k found le h => ?_)
      split
      · rename_i found
        exact pure (h _ _ rfl)
      · exact bind fail fun _ _ _ h => pure h

theorem resolveCallee (name : String) :
    KeepsClosed n (fun k r => ∀ sig, r.2 = .function sig → sig.Within k) (resolveCallee name span) := by
  have notFunction (k : Nat) (ty : Ty) : KeepsClosed k (fun k (r : Binding × Callee) => ∀ sig, r.2 = .function sig → sig.Within k) (do
      Analyze.report (.calledType (← Analyze.typeName ty)) span
      Pure.pure (.unresolved, .dependent)) :=
    named fun _ => reported nofun
  refine read fun a closed size => ?_
  subst size
  dsimp only
  split
  · exact notFunction _ _
  · exact notFunction _ _
  · exact notFunction _ _
  · split
    · rename_i sig _ found
      refine pure fun sig' same => ?_
      cases same
      exact closed.global name _ found
    · exact notFunction _ _
    · exact notFunction _ _
    · exact notFunction _ _
    · split
      · exact pure nofun
      · refine bind (recover name) fun k found le h => ?_
        split
        · exact pure nofun
        · exact notFunction _ _
        · exact reported nofun

theorem baseType (spec : Syntax.DeclSpec) : KeepsClosed n (fun k ty => ty.Within k) (baseType spec) := by
  unfold Analyze.baseType
  split
  · exact pure trivial
  · exact pure trivial
  · exact pure trivial
  · exact pure trivial
  · exact pure trivial
  · exact fail
  · rename_i name _
    refine read fun a closed size => ?_
    subst size
    split
    · rename_i ty found
      exact pure (closed.of_namedType? found)
    · exact fail
  · rename_i kind name _
    refine read fun a closed size => ?_
    subst size
    split
    · rename_i id found
      exact pure (closed.tag name _ found)
    · exact fail
    · exact bind (newRecord name) fun _ _ _ h => pure h
  · refine read fun a closed size => ?_
    split
    · exact pure trivial
    · exact fail

/-! ## Expressions and type names -/

mutual

theorem expr (n : Nat) : ∀ e : Syntax.Expr, KeepsClosed n (fun k e => e.ty.Within k) (expr e)
  | .int _ value suffix => pure (intLiteralType_within value suffix)
  | .float _ _ single => pure (by
      show Ty.Within n (if single then .float else .double)
      split <;> trivial)
  | .char .. | .str .. | .bool .. | .null .. => pure trivial
  | .ident _ name => bind (identType name) fun _ _ _ h => pure h
  | .unary _ op e =>
    bind (expr n e) fun _ _ _ he => bind (rule (Does.unaryType _ _ _) (GivesWithin.unaryType op he)) fun _ _ _ h => pure h
  | .binary _ op x y =>
    bind (expr n x) fun k _ _ hx => bind (expr k y) fun _ _ le hy =>
      bind (rule (Does.binaryType _ _ _ _) (GivesWithin.binaryType op (hx.mono le) hy)) fun _ _ _ h => pure h
  | .assign _ op x y =>
    bind (expr n x) fun k _ _ hx => bind (expr k y) fun _ _ le _ =>
      bind (rule (Does.assignType _ _ _ _) (GivesWithin.assignType op (hx.mono le))) fun _ _ _ h => pure h
  | .conditional _ c x y =>
    bind (expr n c) fun k c _ _ => bind (expr k x) fun k _ _ hx => bind (expr k y) fun _ _ le hy =>
      bind (rule (Does.conditionalType _ _ _ _) (GivesWithin.conditionalType c (hx.mono le) hy)) fun _ _ _ h => pure h
  | .call _ callee args => by
    have callees := expr n callee
    cases callee with
    | ident s name =>
      exact bind (resolveCallee name) fun k r _ hr => bind (exprs k args) fun _ args le _ =>
        bind (callType fun sig same => (hr sig same).mono le) fun _ _ _ h => pure h
    | _ =>
      exact bind callees fun k _ _ _ => bind (exprs k args) fun _ _ _ _ =>
        bind fail fun _ _ _ h => pure h
  | .index _ base index =>
    bind (expr n base) fun k _ _ hb => bind (expr k index) fun _ _ le hi =>
      bind (rule (Does.indexType _ _ _) (GivesWithin.indexType (hb.mono le) hi)) fun _ _ _ h => pure h
  | .member _ base field arrow =>
    bind (expr n base) fun _ e _ _ => bind (memberType e field arrow) fun _ _ _ h => pure h
  | .cast _ spec d e =>
    bind (baseType spec) fun k _ _ hb => bind (declaredType k hb d) fun k _ _ ht => bind (expr k e) fun _ e le _ =>
      bind (rule (Does.castType _ _ _) (GivesWithin.castType e (ht.mono le))) fun _ _ _ h => pure h
  | .sizeofType _ spec d =>
    bind (baseType spec) fun k _ _ hb => bind (declaredType k hb d) fun _ ty _ _ =>
      bind (rule (Does.sizeofType _ _) (GivesWithin.sizeofType ty _)) fun _ _ _ h => pure h
  | .sizeofExpr _ e =>
    bind (expr n e) fun _ e _ _ => bind (rule (Does.sizeofExprType _ _) (GivesWithin.sizeofExprType e _)) fun _ _ _ h => pure h
  | .comma _ x y =>
    bind (expr n x) fun k x _ _ => bind (expr k y) fun k y _ hy => pure (by
      show Ty.Within k (if x.ty.isDependent || y.ty.isDependent then .dependent else y.ty)
      split
      · trivial
      · exact hy)

theorem exprs (n : Nat) : ∀ es : List Syntax.Expr, KeepsClosed n Anyway (exprs es)
  | [] => pure trivial
  | e :: es => bind (expr n e) fun k _ _ _ => bind (exprs k es) fun _ _ _ _ => pure trivial

theorem declaredType (n : Nat) {base : Ty} (h : base.Within n) :
    ∀ d : Syntax.Declarator, KeepsClosed n (fun k ty => ty.Within k) (declaredType base d)
  | .mk _ count suffixes span => bind (suffixedType n (h.pointers count) span suffixes) fun _ ty _ given => pure (by
      cases ty with
      | none => trivial
      | some ty => exact given ty rfl)

theorem suffixedType (n : Nat) {base : Ty} (h : base.Within n) (span : Span) :
    ∀ suffixes : List Syntax.Suffix, KeepsClosed n (fun k ty => ∀ t, ty = some t → t.Within k) (suffixedType base span suffixes)
  | [] => pure fun _ same => by
    cases same
    exact h
  | s :: rest => by
    rw [Analyze.suffixedType]
    refine bind (suffixedType n h span rest) fun k ty _ given => ?_
    cases ty with
    | none => exact pure fun _ same => by cases same
    | some ty =>
      have given := given ty rfl
      cases s with
      | unsized => exact pure fun _ same => by cases same; exact given
      | sized size =>
        refine bind (expr k size) fun k size le _ => bind (check (Does.arrayLength? size)) fun k' length le' _ => ?_
        exact pure fun _ same => by cases same; exact (given.mono le).mono le'
      | function ps variadic => exact reported fun _ same => by cases same

end

end KeepsClosed

end Analyze

end IncrementalC
