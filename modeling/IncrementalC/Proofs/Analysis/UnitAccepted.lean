import IncrementalC.Proofs.Analysis.ExpressionAccepted
import IncrementalC.Proofs.Analysis.Known

/-!
# Analysed groups are accepted

Initial values, declarations, statements and groups, each from the functions that it calls.
`analyze_accepted` is the result for a group: from a sound state, a written group without errors is
accepted and leaves a sound state.
-/
namespace IncrementalC
set_option autoImplicit false
open Typed (Expr Initializer VarDecl FunctionDecl Param Decl DeclKind AcceptedInit AcceptedElements
  AcceptedMembers Fits AcceptedDecls AcceptedCondition AcceptedForInit AcceptedResult AcceptedStmt
  AcceptedStmts)
open Relation

variable {P : Prop} {a b : Analysis}

namespace Analyze

/-! ## Initial values -/

/-- The second type differs from the first one by the length of an array at most. -/
def SameButLength (ty ty' : Ty) : Prop :=
  ty' = ty ∨ ∃ elem n n', ty = .array elem n ∧ ty' = .array elem n'

theorem SameButLength.isObject {ty ty' : Ty} (h : SameButLength ty ty') (object : ty.IsObject) :
    ty'.IsObject := by
  rcases h with rfl | ⟨elem, n, n', rfl, rfl⟩
  · exact object
  · exact ⟨object.definite, nofun⟩

theorem SameButLength.acceptedInit {ty ty' : Ty} (h : SameButLength ty ty') {i : Initializer}
    (accepted : AcceptedInit a ty i) : AcceptedInit a ty' i := by
  rcases h with rfl | ⟨elem, n, n', rfl, rfl⟩
  · exact accepted
  · cases i with
    | expr e => exact accepted
    | list items s => exact accepted
    | construct args s =>
      match args, accepted with
      | [], _ => trivial
      | [e], accepted => cases accepted.1

namespace MeetsAt

theorem stringFor (elem : Ty) (length : Option Nat) (s : String) (span : Span) :
    MeetsAt P a (stringFor elem length s span) fun _ ty => ∃ n, ty = .array elem n := by
  unfold Analyze.stringFor
  cases length with
  | none => exact .pure fun _ _ => ⟨_, rfl⟩
  | some n =>
    exact .ite (fun _ => .report_bind _ _ (Does.pure _)) fun _ => .pure fun _ _ => ⟨_, rfl⟩

mutual

theorem initializer {P : Prop} {a : Analysis} {ty : Ty} :
    ∀ {i : Syntax.Initializer}, Syntax.WrittenInit i →
      MeetsAt P a (initializer ty i) fun b r => SameButLength ty r.1 ∧ AcceptedInit b ty r.2
  | .expr e, h => by
    rw [Analyze.initializer.eq_def]
    dsimp only
    split
    · rename_i elem length span s
      refine .ite (fun char => ?_) fun _ => .report_bind _ _ (Does.pure _)
      refine .bind (stringFor elem length s span) fun ty b => ?_
      refine .bind (M := fun _ t => t = .str ⟨span, .array .char (some (s.utf8ByteSize + 1))⟩ s)
        (.pure fun _ _ => rfl) fun t c => .pure fun known _ => ?_
      obtain ⟨⟨-, -, n, rfl⟩, -, rfl⟩ := known
      exact ⟨.inr ⟨_, _, _, rfl, rfl⟩, rfl, char, _, _, rfl⟩
    · exact .report_bind _ _ (Does.pure _)
    · rename_i notArray _
      refine .bind (.expr h) fun e b => ?_
      refine .bind (.rule (Does.checkAssignable ty e .initializing)) fun _ c => ?_
      refine .pure fun known _ => ?_
      obtain ⟨⟨-, -, he⟩, hbc, assignable⟩ := known
      refine ⟨.inl rfl, he.mono hbc, ?_⟩
      cases ty with
      | array elem n => exact (notArray elem n rfl).elim
      | _ => exact .inr assignable
  | .list items span, h => by
    rw [Analyze.initializer.eq_def]
    dsimp only
    cases ty with
    | array elem length =>
      refine .ite (fun _ => .report_bind _ _ (Does.pure _)) fun _ => ?_
      refine .bind (elements h) fun values b => .pure fun known _ => ?_
      exact ⟨.inr ⟨_, _, _, rfl, rfl⟩, known.2.2⟩
    | record id =>
      refine .get ?_
      split
      · exact .get (.report_bind _ _ (Does.pure _))
      · rename_i r found
        refine .ite (fun _ => .report_bind _ _ (Does.pure _)) fun few => ?_
        refine .bind (members h (Nat.le_of_not_lt few)) fun values b => .pure fun known _ => ?_
        have complete : r.complete := (Option.filter_eq_some_iff.mp found).2
        have present := (Option.filter_eq_some_iff.mp found).1
        exact ⟨.inl rfl, r, known.2.1.complete id r present complete, complete, known.2.2⟩
    | _ =>
      match items, h with
      | [], _ => exact .pure fun _ _ => ⟨.inl rfl, trivial⟩
      | [item], h =>
        refine .bind (initializer h.1) fun r b => .pure fun known _ => ?_
        obtain ⟨-, -, same | ⟨elem, n, n', impossible, -⟩, accepted⟩ := known
        · exact ⟨.inl same, accepted⟩
        · cases impossible
      | _ :: _ :: _, _ => exact .report_bind _ _ (Does.pure _)
  | .construct args span, h => by
    rw [Analyze.initializer.eq_def]
    dsimp only
    split
    · exact .pure fun _ _ => ⟨.inl rfl, trivial⟩
    · rename_i e
      refine .ite (fun _ => .get (.report_bind _ _ (Does.pure _))) fun notAggregate => ?_
      refine .bind (.expr (h e (List.mem_singleton_self e))) fun e b => ?_
      refine .bind (.rule (Does.checkAssignable ty e .initializing)) fun _ c => ?_
      refine .pure fun known _ => ?_
      obtain ⟨⟨-, -, he⟩, hbc, assignable⟩ := known
      refine ⟨.inl rfl, ?_, he.mono hbc, .inr assignable⟩
      cases ty with
      | array elem n => exact (notAggregate rfl).elim
      | _ => rfl
    · refine .ite (fun _ => .get (.report_bind _ _ (Does.pure _))) fun _ => ?_
      exact .report_bind _ _ (Does.pure _)

theorem elements {P : Prop} {a : Analysis} {elem : Ty} :
    ∀ {is : List Syntax.Initializer}, Syntax.WrittenInits is →
      MeetsAt P a (elements elem is) fun b vs => AcceptedElements b elem vs
  | [], _ => .pure fun _ _ => trivial
  | item :: items, h => by
    refine .bind (initializer h.1) fun r b => .bind (elements h.2) fun vs c => ?_
    refine .pure fun known _ => ?_
    obtain ⟨⟨-, -, -, hr⟩, hbc, hvs⟩ := known
    exact ⟨hr.mono hbc, hvs⟩

theorem members {P : Prop} {a : Analysis} {fields : List Field} :
    ∀ {is : List Syntax.Initializer}, Syntax.WrittenInits is → is.length ≤ fields.length →
      MeetsAt P a (members fields is) fun b vs => AcceptedMembers b fields vs
  | [], _, _ => .pure fun _ _ => trivial
  | item :: items, h, few => by
    rw [Analyze.members.eq_def]
    dsimp only
    cases fields with
    | nil => cases few
    | cons f fields =>
      refine .bind (initializer h.1) fun r b => ?_
      refine .bind (members h.2 (Nat.le_of_succ_le_succ few)) fun vs c => .pure fun known _ => ?_
      obtain ⟨⟨-, -, -, hr⟩, hbc, hvs⟩ := known
      exact ⟨hr.mono hbc, hvs⟩

end

/-! ## Entering names -/

theorem update {g : Analysis → Analysis} {Post : Analysis → Unit → Prop}
    (changes : ReflTransGen Change a (g a)) (sound : P → a.Sound → (g a).Sound)
    (post : P → Post (g a) ()) : MeetsAt P a (modify g) Post :=
  ⟨Changes.extends changes, fun hP ha _ => ⟨sound hP ha, post hP⟩⟩

theorem setLocal {name : String} {s : LocalSymbol} (hs : P → s.Sound) :
    MeetsAt P a (setLocal name s) fun _ _ => True := by
  refine ⟨Changes.extends (Does.setLocal name s a), fun hP sound _ => ⟨?_, trivial⟩⟩
  rw [run_setLocal]
  split
  · rename_i scope scopes hscopes
    refine { sound with scopes := fun scope' hscope' other s' found => ?_ }
    cases hscope' with
    | head =>
      rw [NameMap.get?_insert] at found
      split at found
      · cases found
        exact hs hP
      · exact sound.scopes scope (by rw [hscopes]; exact List.mem_cons_self) other s' found
    | tail _ hscope' =>
      exact sound.scopes scope' (by rw [hscopes]; exact List.mem_cons_of_mem _ hscope') other s' found
  · exact sound

theorem setGlobal {name : String} {s : Symbol}
    (agrees : ∀ old, a.names.globals.get? name = some old → Redeclares old s) (hs : P → s.Sound) :
    MeetsAt P a (setGlobal name s) fun b _ => b.names.globals.get? name = some s := by
  refine ⟨Changes.extends (Does.setGlobal agrees), fun hP sound _ => ?_⟩
  have lookup (other : String) : ((Analyze.setGlobal name s).run a).2.names.globals.get? other
      = if other = name then some s else a.names.globals.get? other := NameMap.get?_insert _ _ _ _
  refine ⟨{ sound with global := fun other s' found => ?_ }, (lookup name).trans (if_pos rfl)⟩
  rw [lookup] at found
  split at found
  · cases found
    exact hs hP
  · exact sound.global other s' found

theorem setGlobal_fresh {name : String} {s : Symbol} (fresh : a.names.globals.get? name = none)
    (hs : P → s.Sound) :
    MeetsAt P a (Analyze.setGlobal name s) fun b _ => b.names.globals.get? name = some s :=
  setGlobal (fun old h => by rw [fresh] at h; cases h) hs

/-! ## Variables -/

theorem localVar {isStatic : Bool} {v : VarDecl} {span : Span} (hv : P → v.Accepted a) :
    MeetsAt P a (localVar isStatic v span) fun b v => v.Accepted b := by
  have kept {b : Analysis} {v' : VarDecl} (hv : v.Accepted a) (hab : a.Extends b)
      (name : v'.name = v.name) (ty : v'.ty = v.ty) (init : v'.init = v.init) : v'.Accepted b :=
    ⟨name ▸ hv.name, ty ▸ hv.object, fun i hi => by rw [ty]; exact (hv.init i (init ▸ hi)).mono hab⟩
  refine .get (.ite (fun _ => .report_bind _ _ (Does.pure _)) fun _ => ?_)
  split
  · exact .pure fun hP _ => hv hP.1
  · refine .ite (fun _ => ?_) fun _ => ?_
    · have enter {P : Prop} {b : Analysis} (link : String) (image : Option (List (Nat × Constant)))
          (hP : P → v.Accepted a ∧ a.Extends b) :
          MeetsAt P b (do
            Analyze.setLocal v.name (.var v.ty (.global link))
            return ({ v with storage := .static, linkName := link, constantInit := image } : VarDecl))
            fun b v => v.Accepted b := by
        refine .bind (setLocal fun h => ⟨(hP h).1.object, rfl⟩) fun _ c => .pure fun known _ => ?_
        exact kept (hP known.1).1 ((hP known.1).2.trans known.2.1) rfl rfl rfl
      refine .ite (fun _ => .report_bind _ _ ?_) fun _ => enter _ _ fun h => ⟨hv h.1.1.1, .refl a⟩
      exact Does.bind (Does.setLocal _ _) fun _ => Does.pure _
    · refine .bind (update (.single (.function _)) (fun _ sound => { sound with }) fun _ => trivial)
        (M := fun _ _ => True) fun _ b => ?_
      refine .bind (setLocal fun h => ⟨(hv h.1.1.1).object, rfl⟩) fun _ c => .pure fun known _ => ?_
      exact kept (hv known.1.1.1.1) (known.1.2.1.trans known.2.1) rfl rfl rfl

theorem globalVar {v : VarDecl} {span : Span} (hv : P → v.Accepted a) :
    MeetsAt P a (globalVar v span) fun b v => v.Accepted b := by
  refine .get ?_
  extract_lets types image v'
  have entered {b : Analysis} (hP : P) (hab : a.Extends b) : v'.Accepted b :=
    ⟨(hv hP).name, (hv hP).object, fun i hi => ((hv hP).init i hi).mono hab⟩
  refine .get ?_
  split
  · rename_i old link defined found
    refine .ite (fun _ => .get (.get (.report_bind _ _ (Does.pure _)))) fun same => ?_
    refine .ite (fun _ => .report_bind _ _ (Does.pure _)) fun _ => ?_
    refine .bind (setGlobal (fun s hs => ?_) fun h => (entered h.1.1 (.refl a)).object)
      fun _ b => .pure fun known _ => entered known.1.1.1 known.2.1
    rw [found] at hs
    cases hs
    rw [Decidable.not_not.mp same]
    exact .var
  · exact .report_bind _ _ (Does.pure _)
  · rename_i fresh
    refine .bind (setGlobal_fresh fresh fun h => (entered h (.refl a)).object)
      fun _ b => .pure fun known _ => entered known.1 known.2.1

theorem enterVar {storage : Syntax.Storage} {name : String} {ty : Ty} {init : Option Initializer}
    {span : Span} (word : IsWord name) (object : P → ty.IsObject)
    (hinit : P → ∀ i, init = some i → AcceptedInit a ty i) :
    MeetsAt P a (enterVar storage name ty init span) fun b v => v.Accepted b := by
  refine .get ?_
  refine .ite (fun _ => ?_) fun _ => .get (.ite (fun _ => ?_) fun _ => ?_)
  · split
    · exact .report_bind _ _ (Does.pure _)
    · exact .get (.report_bind _ _ (Does.pure _))
  · exact localVar fun h => ⟨word, object h.1.1, hinit h.1.1⟩
  · exact globalVar fun h => ⟨word, object h.1.1, hinit h.1.1⟩

/-- An object of the type of its initial value is entered, unless that has no type for an object. -/
theorem deduced {storage : Syntax.Storage} {name : String} {nameSpan : Span} {e : Expr} {value : Initializer}
    {Post : Analysis → VarDecl → Prop} (he : P → e.Accepted a)
    (entered : (P → e.ty.decay.IsObject) →
      MeetsAt P a (Analyze.enterVar storage name e.ty.decay (some value) nameSpan) Post) : MeetsAt P a (do
      if e.ty.isDependent then
        Analyze.report (.autoFromUnknown name) e.span
        return ({ name, ty := .void, init := some value, storage := .global, linkName := "",
                  isExtern := false, constantInit := none } : VarDecl)
      else if e.ty.isVoid then
        Analyze.report (.incompleteVariable "void") nameSpan
        return { name, ty := .void, init := some value, storage := .global, linkName := "",
                 isExtern := false, constantInit := none }
      else Analyze.enterVar storage name e.ty.decay (some value) nameSpan) Post := by
  refine .ite (fun _ => .report_bind _ _ (Does.pure _)) fun notDependent => ?_
  refine .ite (fun _ => .report_bind _ _ (Does.pure _)) fun notVoid => (entered fun hP => ?_).weaken fun h => h.1.1
  have object : e.ty.IsObject :=
    ⟨(he hP).known.definite notDependent, fun void => notVoid (Ty.isVoid_iff.mpr void)⟩
  exact object.decay

theorem autoVar {storage : Syntax.Storage} {name : String} {nameSpan span : Span}
    {init : Option Syntax.Initializer} (word : IsWord name)
    (written : ∀ i, init = some i → Syntax.WrittenInit i) :
    MeetsAt P a (autoVar storage name nameSpan span init) fun b v => v.Accepted b := by
  have entered {P : Prop} {b : Analysis} {e : Expr} {value : Initializer} (fits : P → AcceptedInit b e.ty.decay value)
      (object : P → e.ty.decay.IsObject) :
      MeetsAt P b (Analyze.enterVar storage name e.ty.decay (some value) nameSpan) fun b v => v.Accepted b := by
    refine enterVar word object fun h i hi => ?_
    cases hi
    exact fits h
  unfold Analyze.autoVar
  dsimp only
  split
  · rename_i e
    refine .bind (.expr (written _ rfl)) fun e b => deduced (fun h => h.2.2) (entered fun h => ⟨h.2.2, ?_⟩)
    cases hty : e.ty <;> exact .inl (by rw [hty])
  · rename_i e _
    refine .bind (.expr (written _ rfl e (List.mem_singleton_self e))) fun e b =>
      deduced (fun h => h.2.2) (entered fun h => ⟨?_, h.2.2, .inl rfl⟩)
    cases e.ty <;> rfl
  · exact .report_bind _ _ (Does.pure _)

theorem varDecl {spec : Syntax.DeclSpec} {name : String} {d : Syntax.Declarator}
    {init : Option Syntax.Initializer} {span : Span} (hspec : spec.Written) (word : IsWord name)
    (hd : d.Written) (written : ∀ i, init = some i → Syntax.WrittenInit i) :
    MeetsAt P a (varDecl spec name d init span) fun b v => v.Accepted b := by
  refine .ite (fun _ => autoVar word written) fun _ => ?_
  refine .bind (.baseType hspec) fun base b => ?_
  refine .bind (.declaredType (fun h => h.2.2) hd) fun ty c => ?_
  refine .ite (fun dependent => .pure fun h _ => ?_) fun _ => .ite (fun _ => ?_) fun notVoid => ?_
  · have definite : ty.Definite := h.1.2.2.definite
    rw [definite.not_isDependent] at dependent
    cases dependent
  · exact .report_bind _ _ (Does.pure _)
  · have object (spelled : ty.Spelled) : ty.IsObject :=
      ⟨spelled.definite, fun void => notVoid (Ty.isVoid_iff.mpr void)⟩
    cases init with
    | none => exact enterVar word (fun h => object h.1.1.2.2) fun _ _ hi => by cases hi
    | some init =>
      refine .bind (initializer (written init rfl)) fun r d => ?_
      refine enterVar word (fun h => ?_) fun h i hi => ?_
      · exact h.2.2.1.isObject (object h.1.1.1.2.2)
      · cases hi
        exact h.2.2.1.acceptedInit h.2.2.2

/-! ## Functions -/

theorem params {slot : Nat} {ps : List Syntax.Param} (h : Syntax.WrittenParams ps) :
    MeetsAt P a (params slot ps) fun _ ps => ∀ p ∈ ps, p.ty.IsObject := by
  induction ps generalizing P a slot with
  | nil => exact .pure fun _ _ p hp => by cases hp
  | cons p ps ih =>
    obtain ⟨spec, d, span⟩ := p
    refine .bind (.baseType h.1.1) fun base b => ?_
    refine .bind (.declaredType (fun h => h.2.2) h.1.2) fun ty c => ?_
    have rest {P : Prop} (object : P → ty.decay.IsObject) : MeetsAt P c (do
        return { name := d.name, ty := ty.decay, slot } :: (← Analyze.params (slot + 1) ps))
        fun _ ps => ∀ p ∈ ps, p.ty.IsObject := by
      refine .bind (ih h.2) fun ps d => .pure fun known _ p hp => ?_
      cases hp with
      | head => exact object known.1
      | tail _ hp => exact known.2.2 p hp
    refine .ite (fun _ => .report_bind _ _ ?_) fun notVoid => rest fun known => ?_
    · exact Does.bind (Does.params _ _).changes fun _ => Does.pure _
    · exact ⟨known.1.2.2.definite.decay, fun void => notVoid (Ty.isVoid_iff.mpr void)⟩

theorem functionHead {spec : Syntax.DeclSpec} {name : String} {d : Syntax.Declarator}
    {externC hasBody : Bool} (hspec : spec.Written) (word : IsWord name) (hd : d.Written) :
    MeetsAt P a (functionHead spec name d externC hasBody) fun b r => r.1.Accepted b := by
  refine .bind (.baseType hspec) fun base b => ?_
  cases d with
  | mk dname n suffixes span =>
    dsimp only [Syntax.Declarator.suffixes, Syntax.Declarator.pointers]
    split
    · rename_i ps variadic
      refine .bind (params hd.2.1) fun ps c => .get ?_
      have sound (h : (P ∧ a.Extends b ∧ base.Spelled) ∧ b.Extends c ∧ ∀ p ∈ ps, p.ty.IsObject) :
          FunctionSig.Sound ⟨pointers n base, ps.map (·.ty), variadic⟩ := by
        refine ⟨(h.1.2.2.pointers n).definite, fun t ht => ?_⟩
        obtain ⟨p, hp, rfl⟩ := List.mem_map.mp ht
        exact h.2.2 p hp
      split
      · rename_i old defined found
        refine .ite (fun _ => .report_bind _ _ (Does.pure _)) fun same => ?_
        refine .ite (fun _ => .report_bind _ _ (Does.pure _)) fun _ => ?_
        refine .bind (setGlobal (fun s hs => ?_) fun h => sound h.1.1) fun _ d => .pure fun h _ => ?_
        · rw [found] at hs
          cases hs
          rw [Decidable.not_not.mp same]
          exact .function
        · refine ⟨word, ?_, sound h.1.1.1⟩
          unfold Analysis.signature?
          rw [h.2.2]
      · exact .report_bind _ _ (Does.pure _)
      · rename_i fresh
        refine .bind (setGlobal_fresh fresh sound) fun _ d => .pure fun h _ => ⟨word, ?_, sound h.1⟩
        unfold Analysis.signature?
        rw [h.2.2]
    · exact .report_bind _ _ (Does.pure _)

/-! ## Records, enumerations, typedefs -/

theorem fields {base : Ty} (hbase : P → base.Spelled) {ds : List Syntax.Declarator}
    (hds : ∀ d ∈ ds, d.Written) {acc : List Field × Nat} (hacc : P → ∀ f ∈ acc.1, f.ty.IsObject) :
    MeetsAt P a (fields base ds acc) fun _ r => ∀ f ∈ r.1, f.ty.IsObject := by
  induction ds generalizing P a acc with
  | nil => exact .pure fun hP _ => hacc hP
  | cons d ds ih =>
    obtain ⟨before, slot⟩ := acc
    have hrest : ∀ d ∈ ds, d.Written := fun d hd => hds d (List.mem_cons_of_mem _ hd)
    have again {b : Analysis} (acc : List Field × Nat) : Does Change (Analyze.fields base ds acc) :=
      (Does.fields base ds acc).changes
    refine .bind (.declaredType hbase (hds d List.mem_cons_self)) fun ty b => ?_
    refine .ite (fun _ => ?_) fun _ => .get (.ite (fun _ => ?_) fun complete => ?_)
    · exact ih (fun h => hbase h.1.1) hrest fun h => hacc h.1.1
    · exact .get (.report_bind _ _ (again (b := b) _))
    · refine .ite (fun _ => .report_bind _ _ (again (b := b) _)) fun _ => .get ?_
      refine ih (fun h => hbase h.1.1.1.1) hrest fun h f hf => ?_
      rcases List.mem_append.mp hf with hf | hf
      · exact hacc h.1.1.1.1 f hf
      · rw [List.mem_singleton.mp hf]
        refine ⟨h.1.1.1.2.2.definite, fun void => complete ?_⟩
        rw [show ty = .void from void]
        rfl

theorem fieldDecls {fds : List Syntax.FieldDecl} (hfds : ∀ f ∈ fds, f.Written)
    {acc : List Field × Nat} (hacc : P → ∀ f ∈ acc.1, f.ty.IsObject) :
    MeetsAt P a (fieldDecls fds acc) fun _ fs => ∀ f ∈ fs, f.ty.IsObject := by
  induction fds generalizing P a acc with
  | nil => exact .pure fun hP _ => hacc hP
  | cons fd fds ih =>
    have written := hfds fd List.mem_cons_self
    refine .bind (.baseType written.spec) fun base b => ?_
    refine .bind (fields (fun h => h.2.2) (fun d hd => (written.declarators d hd).1)
      fun h => hacc h.1) fun acc c => ?_
    exact ih (fun f hf => hfds f (List.mem_cons_of_mem _ hf)) fun h => h.2.2

theorem defineRecord {id : RecordId} {r : RecordDef}
    (changes : DoesAt Change (defineRecord id r) a) (hr : P → r.Sound) :
    MeetsAt P a (defineRecord id r) fun _ _ => True := by
  refine ⟨Changes.extends changes, fun hP sound _ => ⟨?_, trivial⟩⟩
  rw [run_defineRecord]
  split
  · refine { sound with record := fun other r' found => ?_ }
    have found : (a.types.set id r).record? other = some r' := found
    rw [TypeTable.record?_set] at found
    split at found
    · split at found
      · cases found
        exact hr hP
      · cases found
    · exact sound.record other r' found
  · exact sound

theorem completeRecord {id : RecordId} {name : String} {fds : List Syntax.FieldDecl} {span : Span}
    {k : DeclKind} (word : IsWord name) (hfds : ∀ f ∈ fds, f.Written)
    (tagged : a.names.tags.get? name = some (.record id)) (hk : ∀ b, k.Accepted b) :
    MeetsAt P a (do
      if ((← MonadState.get).types.record? id).any (·.complete) then
        Analyze.report (.redefinition name) span
      else Analyze.defineRecord id ⟨name, ← Analyze.fieldDecls fds ([], 0), true⟩
      return k) fun b k => k.Accepted b := by
  refine .get (.ite (fun _ => .report_bind _ _ (Does.pure _)) fun h => ?_)
  have incomplete : ∀ r, a.types.record? id = some r → r.complete = false := by
    intro r hr
    rw [hr] at h
    simpa using h
  have mentions := Does.fieldDecls fds ([], 0) a
  refine .andThen (fieldDecls hfds fun _ f hf => by cases hf) ?_
  refine .bind (defineRecord (Does.defineRecord (Mentions.incomplete mentions incomplete)
    (Mentions.tag mentions tagged) (Does.fieldDecls_lays fds a)) fun known => ?_) fun _ b => .pure fun _ _ => hk b
  exact ⟨word, known.2.2, nofun⟩

theorem recordDecl {kind : Syntax.RecordKind} {name : String}
    {fds : Option (List Syntax.FieldDecl)} {span : Span} (word : IsWord name)
    (hfds : ∀ fs, fds = some fs → ∀ f ∈ fs, f.Written) :
    MeetsAt P a (recordDecl kind name fds span) fun b k => k.Accepted b := by
  unfold Analyze.recordDecl
  extract_lets decl complete
  have completes {P : Prop} {b : Analysis} (id : RecordId)
      (tagged : b.names.tags.get? name = some (.record id)) :
      MeetsAt P b (complete id) fun b k => k.Accepted b := by
    dsimp only [complete]
    cases fds with
    | none => exact .pure fun _ _ => trivial
    | some fds => exact completeRecord word (hfds fds rfl) tagged fun _ => trivial
  refine .get ?_
  split
  · rename_i id tagged
    exact completes id tagged
  · exact .report_bind _ _ (Does.pure _)
  · rename_i fresh
    refine .andThen (M := fun _ _ => True)
      ⟨(Mention.record fresh).extends, fun _ sound _ => ⟨withRecord_sound sound word, trivial⟩⟩ ?_
    refine completes _ ?_
    exact (tags_withRecord a name name).trans (if_pos rfl)

theorem enumerators {ty : Ty} {next : Int64} {vs : List Syntax.Enumerator}
    (hty : ty.IsObject ∧ ty.scalar? = some .i32) (hvs : ∀ v ∈ vs, v.Written) :
    MeetsAt P a (enumerators ty next vs) fun _ _ => True := by
  induction vs generalizing P a next with
  | nil => exact .pure fun _ _ => trivial
  | cons v vs ih =>
    have written := hvs v List.mem_cons_self
    have hrest : ∀ v ∈ vs, v.Written := fun v hv => hvs v (List.mem_cons_of_mem _ hv)
    have enter {P : Prop} {b : Analysis} (value : Int64) : MeetsAt P b (do
        let a ← MonadState.get
        if a.function.isSome then Analyze.setLocal v.name (.enumConst value ty)
        else if a.names.globals.contains v.name then Analyze.report (.redefinition v.name) v.span
        else Analyze.setGlobal v.name (.enumConst value ty)
        Pure.pure ((v.name, value) :: (← Analyze.enumerators ty (value + 1) vs))) fun _ _ => True := by
      have rest {P : Prop} {c : Analysis} : MeetsAt P c (do
          Pure.pure ((v.name, value) :: (← Analyze.enumerators ty (value + 1) vs))) fun _ _ => True :=
        .bind (ih hrest) fun _ _ => .pure fun _ _ => trivial
      refine .get (.ite (fun _ => ?_) fun _ => .ite (fun _ => ?_) fun h => ?_)
      · exact .bind (setLocal fun _ => hty) fun _ _ => rest
      · exact .report_bind _ _ (Does.bind (Does.enumerators _ _ _) fun _ => Does.pure _)
      · have fresh : b.names.globals.get? v.name = none := by simpa [NameMap.contains] using h
        exact .bind (setGlobal_fresh fresh fun _ => hty) fun _ _ => rest
    rw [Analyze.enumerators]
    dsimp only
    split
    · exact enter _
    · rename_i e he
      refine .bind (.expr (written.value e he)) fun e b => .get ?_
      split
      · exact enter _
      · refine .bind (.report _ _ (R := fun _ _ => False)) fun _ _ => ?_
        exact enter _

theorem enumDecl {name : Option String} {vs : List Syntax.Enumerator} {span : Span}
    (word : ∀ n, name = some n → IsWord n) (hvs : ∀ v ∈ vs, v.Written) :
    MeetsAt P a (enumDecl name vs span) fun b k => k.Accepted b := by
  cases name with
  | none =>
    exact .bind (enumerators ⟨⟨trivial, by rintro ⟨⟩⟩, rfl⟩ hvs) fun _ _ => .pure fun _ _ => trivial
  | some tag =>
    refine .get (.ite (fun _ => .report_bind _ _ (Does.pure _)) fun h => ?_)
    have fresh : a.names.tags.get? tag = none := by simpa [NameMap.contains] using h
    refine .bind (M := fun _ _ => True) ⟨(Change.enum fresh).extends, fun _ sound _ => ?_⟩ fun _ _ => ?_
    · exact ⟨{ sound with }, trivial⟩
    · refine .bind (enumerators ⟨⟨word tag rfl, by rintro ⟨⟩⟩, rfl⟩ hvs) fun _ _ => .pure fun _ _ => trivial

theorem typedefDecl {spec : Syntax.DeclSpec} {name : String} {d : Syntax.Declarator} {span : Span}
    (hspec : spec.Written) (hd : d.Written) :
    MeetsAt P a (typedefDecl spec name d span) fun b k => k.Accepted b := by
  refine .bind (.baseType hspec) fun base b => .bind (.declaredType (fun h => h.2.2) hd) fun ty c => ?_
  refine .get (.ite (fun _ => ?_) fun _ => ?_)
  · exact .bind (setLocal fun h => h.1.2.2) fun _ _ => .pure fun _ _ => trivial
  · split
    · exact .ite (fun _ => .get (.get (.report_bind _ _ (Does.pure _)))) fun _ => .pure fun _ _ => trivial
    · exact .report_bind _ _ (Does.pure _)
    · rename_i fresh
      exact .bind (setGlobal_fresh fresh fun h => h.1.2.2) fun _ _ => .pure fun _ _ => trivial

/-! ## Groups -/

theorem declKind {spec : Syntax.DeclSpec} {d : Syntax.Decl} (hspec : spec.Written)
    (hd : d.Written) : MeetsAt P a (declKind spec d) fun b k => k.Accepted b := by
  obtain ⟨kind, span⟩ := d
  cases kind with
  | var name declarator init =>
    exact .bind (varDecl hspec hd.1 hd.2.1 hd.2.2) fun _ _ => .pure fun h _ => h.2.2
  | function name declarator externC =>
    exact .bind (functionHead hspec hd.1 hd.2) fun _ _ => .pure fun h _ => h.2.2
  | record kind name fds => exact recordDecl hd.1 hd.2
  | enum name variants => exact enumDecl hd.1 hd.2
  | typedef name declarator => exact typedefDecl hspec hd.2

theorem decls {spec : Syntax.DeclSpec} {ds : List Syntax.Decl} (hspec : spec.Written)
    (hds : ∀ d ∈ ds, d.Written) : MeetsAt P a (decls spec ds) AcceptedDecls := by
  induction ds generalizing P a with
  | nil => exact .pure fun _ _ d hd => by cases hd
  | cons d ds ih =>
    refine .bind (declKind hspec (hds d List.mem_cons_self)) fun k b => ?_
    refine .bind (ih fun d hd => hds d (List.mem_cons_of_mem _ hd)) fun ds c => .pure fun h _ d' hd' => ?_
    cases hd' with
    | head => exact h.1.2.2.mono h.2.1
    | tail _ hd' => exact h.2.2 d' hd'

theorem declGroup {g : Syntax.DeclGroup} (hg : g.Written) :
    MeetsAt P a (declGroup g) fun b g => AcceptedDecls b g.decls :=
  .bind (decls hg.spec hg.decls) fun _ _ => .pure fun h _ => h.2.2

/-! ## Statements -/

theorem condition {e : Syntax.Expr} (h : e.Written) :
    MeetsAt P a (condition e) AcceptedCondition := by
  refine .bind (.expr h) fun e b => .ite (fun _ => .get (.report_bind _ _ (Does.pure _))) fun kind => ?_
  refine .pure fun known _ => ⟨known.1.2.2, ?_⟩
  cases scalar : e.ty.isScalar with
  | true => exact .inl rfl
  | false =>
    cases dependent : e.ty.isDependent with
    | true => exact .inr rfl
    | false =>
      rw [scalar, dependent] at kind
      exact (kind rfl).elim

theorem condition? {e : Option Syntax.Expr} (h : ∀ e', e = some e' → e'.Written) :
    MeetsAt P a (condition? e) fun b c => ∀ e, c = some e → AcceptedCondition b e := by
  cases e with
  | none => exact .pure fun _ _ => nofun
  | some e =>
    refine .bind (condition (h e rfl)) fun e b => .pure fun known _ e' he' => ?_
    cases he'
    exact known.2.2

theorem expr? {e : Option Syntax.Expr} (h : ∀ e', e = some e' → e'.Written) :
    MeetsAt P a (expr? e) fun b c => ∀ e, c = some e → e.Accepted b := by
  cases e with
  | none => exact .pure fun _ _ => nofun
  | some e =>
    refine .bind (.expr (h e rfl)) fun e b => .pure fun known _ e' he' => ?_
    cases he'
    exact known.2.2

theorem returned {f : FunctionContext} {value : Option Syntax.Expr} {span : Span}
    (h : ∀ e, value = some e → e.Written) :
    MeetsAt P a (returned f value span) fun b r => AcceptedResult b f.ret r := by
  cases value with
  | none =>
    refine .ite (fun _ => .report_bind _ _ (Does.pure _)) fun void => .pure fun _ _ => ?_
    exact (by simpa using void : f.ret.isVoid = true)
  | some e =>
    refine .bind (.expr (h e rfl)) fun e b => .ite (fun notVoid => ?_) fun void => ?_
    · refine .bind (.rule (Does.checkAssignable f.ret e .returning)) fun _ c => .pure fun known _ => ?_
      refine ⟨known.1.1.2.2.mono known.2.1, ?_⟩
      rw [if_neg (by simpa using notVoid)]
      exact known.2.2
    · refine .ite (fun _ => .report_bind _ _ (Does.pure _)) fun isVoid => .pure fun known _ => ?_
      refine ⟨known.1.1.2.2, ?_⟩
      rw [if_pos (by simpa using void)]
      simpa using isVoid

theorem forInit {i : ForInit Syntax.Expr Syntax.DeclGroup} (h : Syntax.WrittenForInit i) :
    MeetsAt P a (forInit i) AcceptedForInit := by
  cases i with
  | none => exact .pure fun _ _ => trivial
  | decl node g => exact .bind (declGroup h) fun _ _ => .pure fun known _ => known.2.2
  | expr node e => exact .bind (.expr h) fun _ _ => .pure fun known _ => known.2.2

theorem inScope {α : Type} {scope : NameMap LocalSymbol} {m : Analyze α}
    {Post : Analysis → α → Prop} (hscope : P → ∀ name s, scope.get? name = some s → s.Sound)
    (hm : ∀ b, MeetsAt P b m Post) (hPost : ∀ b c x, b.Extends c → Post b x → Post c x) :
    MeetsAt P a (inScope scope m) Post := by
  have opens : MeetsAt P a (modify fun a : Analysis => { a with scopes := scope :: a.scopes })
      fun _ _ => True := by
    refine update (.single (.scopes _)) (fun hP sound => ?_) fun _ => trivial
    refine { sound with scopes := fun scope' mem => ?_ }
    cases mem with
    | head => exact hscope hP
    | tail _ mem => exact sound.scopes scope' mem
  have closes {P : Prop} {b : Analysis} :
      MeetsAt P b (modify fun a : Analysis => { a with scopes := a.scopes.tail }) fun _ _ => True := by
    refine update (.single (.scopes _)) (fun _ sound => ?_) fun _ => trivial
    exact { sound with scopes := fun scope' mem => sound.scopes scope' (List.mem_of_mem_tail mem) }
  refine .bind opens fun _ b => .bind ((hm b).weaken fun h => h.1) fun x c => ?_
  exact .bind closes fun _ d => .pure fun known _ => hPost _ _ _ known.2.1 known.1.2.2

mutual

theorem stmt {P : Prop} {a : Analysis} {f : FunctionContext} {inLoop : Bool} :
    ∀ {s : Syntax.Stmt}, Syntax.WrittenStmt s →
      MeetsAt P a (stmt f inLoop s) fun b t => AcceptedStmt b f.ret inLoop t
  | .null _, _ => .pure fun _ _ => trivial
  | .expr _ e, h => .bind (.expr h) fun _ _ => .pure fun known _ => known.2.2
  | .decl _ g, h => .bind (declGroup h) fun _ _ => .pure fun known _ => known.2.2
  | .compound _ ss, h => by
    refine .bind (inScope (fun _ _ _ h => by cases h) (fun b => stmts h) ?_) fun _ _ => ?_
    · exact fun b c ss hbc hss => hss.mono hbc
    · exact .pure fun known _ => known.2.2
  | .ifThen _ c yes, h => by
    refine .bind (condition h.1) fun c b => .bind (stmt h.2) fun yes d => .pure fun known _ => ?_
    exact ⟨known.1.2.2.mono known.2.1, known.2.2⟩
  | .ifElse _ c yes no, h => by
    refine .bind (condition h.1) fun c b => .bind (stmt h.2.1) fun yes d => ?_
    refine .bind (stmt h.2.2) fun no e => .pure fun known _ => ?_
    exact ⟨known.1.1.2.2.mono (known.1.2.1.trans known.2.1), known.1.2.2.mono known.2.1, known.2.2⟩
  | .while _ c body, h => by
    refine .bind (condition h.1) fun c b => .bind (stmt h.2) fun body d => .pure fun known _ => ?_
    exact ⟨known.1.2.2.mono known.2.1, known.2.2⟩
  | .doWhile _ body c, h => by
    refine .bind (stmt h.2) fun body b => .bind (condition h.1) fun c d => .pure fun known _ => ?_
    exact ⟨known.2.2, known.1.2.2.mono known.2.1⟩
  | .for _ init c step body, h => by
    refine inScope (fun _ _ _ h => by cases h) (fun b => ?_) fun b c t hbc ht => ht.mono hbc
    refine .bind (forInit h.1) fun init b₁ => .bind (condition? h.2.1) fun c b₂ => ?_
    refine .bind (expr? h.2.2.1) fun step b₃ => .bind (stmt h.2.2.2) fun body b₄ => ?_
    refine .pure fun known _ => ?_
    obtain ⟨⟨⟨⟨-, -, hinit⟩, h₁₂, hc⟩, h₂₃, hstep⟩, h₃₄, hbody⟩ := known
    exact ⟨hinit.mono (h₁₂.trans (h₂₃.trans h₃₄)), fun e he => (hc e he).mono (h₂₃.trans h₃₄),
      fun e he => (hstep e he).mono h₃₄, hbody⟩
  | .break _, _ | .continue _, _ =>
    .ite (fun _ => .report_bind _ _ (Does.pure _)) fun h => .pure fun _ _ =>
      (by simpa using h : inLoop = true)
  | .return _ value, h => .bind (returned h) fun _ _ => .pure fun known _ => known.2.2

theorem stmts {P : Prop} {a : Analysis} {f : FunctionContext} {inLoop : Bool} :
    ∀ {ss : List Syntax.Stmt}, Syntax.WrittenStmts ss →
      MeetsAt P a (stmts f inLoop ss) fun b ts => AcceptedStmts b f.ret inLoop ts
  | [], _ => .pure fun _ _ => trivial
  | s :: ss, h => by
    refine .bind (stmt h.1) fun s b => .bind (stmts h.2) fun ss c => .pure fun known _ => ?_
    exact ⟨known.1.2.2.mono known.2.1, known.2.2⟩

end

/-! ## Function definitions -/

theorem paramScope_entry {ps : List Param} {name : String} {s : LocalSymbol} (found : (paramScope ps).get? name = some s) :
    ∃ p ∈ ps, s = .var p.ty (.local p.slot) := by
  have entries : ∀ other t, (paramScope ps).get? other = some t → ∃ p ∈ ps, t = .var p.ty (.local p.slot) := by
    unfold paramScope
    refine List.foldlRecOn
      (motive := fun scope : NameMap LocalSymbol => ∀ other t, scope.get? other = some t →
        ∃ p ∈ ps, t = .var p.ty (.local p.slot)) ps _ (fun _ _ h => by cases h) ?_
    intro scope known p mem other t found
    split at found
    · rw [NameMap.get?_insert] at found
      split at found
      · cases found
        exact ⟨p, mem, rfl⟩
      · exact known other t found
    · exact known other t found
  exact entries name s found

theorem paramScope_sound {ps : List Param} (hps : ∀ p ∈ ps, p.ty.IsObject) :
    ∀ name s, (paramScope ps).get? name = some s → s.Sound := by
  intro name s found
  obtain ⟨p, mem, rfl⟩ := paramScope_entry found
  exact ⟨hps p mem, rfl⟩

theorem functionBody {f : FunctionDecl} {body : Syntax.Stmt}
    (object : P → ∀ p ∈ f.params, p.ty.IsObject) (h : Syntax.WrittenStmt body) :
    MeetsAt P a (functionBody f body) fun b r =>
      (∃ n, r.1 = { f with frameSlots := n }) ∧ AcceptedStmt b f.ret false r.2 := by
  refine .bind (M := fun _ _ => True)
    (update (.single (.function _)) (fun _ sound => { sound with }) fun _ => trivial) fun _ b => ?_
  refine .bind (inScope (fun known => paramScope_sound (object known.1)) (fun c => stmt h) ?_)
    fun body c => .get ?_
  · exact fun b c t hbc ht => ht.mono hbc
  · refine .bind (M := fun _ _ => True)
      (update (.single (.function _)) (fun _ sound => { sound with }) fun _ => trivial) fun _ d => ?_
    exact .pure fun known _ => ⟨⟨_, rfl⟩, known.1.2.2.mono known.2.1⟩

theorem functionDefinition {spec : Syntax.DeclSpec} {d : Syntax.Decl} {body : Syntax.Stmt}
    (hspec : spec.Written) (hd : d.Written) (h : Syntax.WrittenStmt body) :
    MeetsAt P a (functionDefinition spec d body) fun b r =>
      r.1.kind.Accepted b ∧ ∀ f s, r.1.kind = .function f → r.2 = some s →
        AcceptedStmt b f.ret false s := by
  obtain ⟨kind, span⟩ := d
  unfold Analyze.functionDefinition
  cases kind with
  | function name declarator externC =>
    refine .bind (functionHead hspec hd.1 hd.2) fun r b => ?_
    obtain ⟨f, entered⟩ := r
    refine .ite (fun _ => .pure fun known _ => ⟨known.1.2.2, nofun⟩) fun _ => .get ?_
    refine .ite (fun _ => .get (.report_bind _ _ (Does.pure _))) fun _ => ?_
    refine .bind (functionBody (fun known p hp => ?_) h) fun r c => .pure fun known _ => ?_
    · exact known.1.1.2.2.sound.params _ (List.mem_map.mpr ⟨p, hp, rfl⟩)
    · obtain ⟨f', body⟩ := r
      obtain ⟨⟨⟨⟨-, -, hf⟩, -⟩, -⟩, hbc, ⟨n, rfl⟩, hbody⟩ := known
      refine ⟨⟨hf.name, hbc.signature _ _ hf.signature, hf.sound⟩, fun g s hg hs => ?_⟩
      cases hg
      cases hs
      exact hbody
  | _ =>
    exact .bind (declKind hspec hd) fun _ _ => .pure fun known _ => ⟨known.2.2, nofun⟩

theorem topLevel {t : Syntax.TopLevel} (h : t.Written) :
    MeetsAt P a (topLevel t) fun b t => t.Accepted b := by
  unfold Analyze.topLevel
  dsimp only
  split
  · rename_i body last hbody hlast
    have mem : last ∈ t.group.decls := List.mem_of_getLast? hlast
    have before : ∀ d ∈ t.group.decls.dropLast, d.Written :=
      fun d hd => h.group.decls d (List.dropLast_subset _ hd)
    refine .bind (decls h.group.spec before) fun before b => ?_
    refine .bind (functionDefinition h.group.spec (h.group.decls last mem) (h.body body hbody))
      fun r c => .pure fun known _ => ?_
    obtain ⟨⟨-, -, hbefore⟩, hbc, hlast, hbody⟩ := known
    refine ⟨fun d hd => ?_, fun f s hf hs => ?_⟩
    · rcases List.mem_append.mp hd with hd | hd
      · exact (hbefore d hd).mono hbc
      · rw [List.mem_singleton.mp hd]
        exact hlast
    · obtain ⟨d, hd, kind⟩ := Typed.TopLevel.function?_eq_some hf
      have same : d = r.1 := by simpa using hd.symm
      exact hbody f s (same ▸ kind) hs
  · refine .bind (declGroup h.group) fun g b => .pure fun known _ => ⟨known.2.2, nofun⟩

end MeetsAt

end Analyze

/-! ## Groups, between the resets -/

/-- How an accepted group was analysed: without errors, and nothing of the way is left open. -/
theorem Analysis.analyze_ok {a : Analysis} {t : Syntax.TopLevel} {t' : Typed.TopLevel} (accepted : (a.analyze t).1 = .ok t') :
    ∃ b, (Analyze.topLevel t).run { a with errors := #[] } = (t', b) ∧ b.errors = #[] ∧
      (a.analyze t).2 = { b with errors := #[], scopes := [], function := none } := by
  have run : a.analyze t = (if ((Analyze.topLevel t).run { a with errors := #[] }).2.errors.toList.isEmpty
      then .ok ((Analyze.topLevel t).run { a with errors := #[] }).1
      else .error ((Analyze.topLevel t).run { a with errors := #[] }).2.errors.toList,
    { ((Analyze.topLevel t).run { a with errors := #[] }).2 with
      errors := #[], scopes := [], function := none }) := rfl
  rw [run] at accepted ⊢
  generalize (Analyze.topLevel t).run { a with errors := #[] } = r at accepted
  split at accepted
  · rename_i empty
    cases accepted
    exact ⟨r.2, rfl, by simpa using empty, rfl⟩
  · cases accepted

/-- What the analysis of a group meets, the state behind an accepted group meets, before the way is closed. -/
theorem Analyze.MeetsAt.analyze_ok {a : Analysis} (sound : a.Sound) {t : Syntax.TopLevel} {t' : Typed.TopLevel}
    {Post : Analysis → Typed.TopLevel → Prop} (accepted : (a.analyze t).1 = .ok t')
    (meets : MeetsAt True { a with errors := #[] } (Analyze.topLevel t) Post) :
    ∃ b, b.Sound ∧ Post b t' ∧ b.errors = #[] ∧ (a.analyze t).2 = { b with errors := #[], scopes := [], function := none } := by
  obtain ⟨b, run, empty, behind⟩ := Analysis.analyze_ok accepted
  have start : Analysis.Sound { a with errors := #[] } := { sound with }
  have met := meets.meets trivial start
  rw [run] at met
  obtain ⟨sound', post⟩ := met empty
  exact ⟨b, sound', post, empty, behind⟩

/-- A written group in which a sound state finds no error is accepted in a sound state. -/
theorem Analysis.Sound.analyze {a : Analysis} (sound : a.Sound) {t : Syntax.TopLevel}
    (written : t.Written) {t' : Typed.TopLevel} (accepted : (a.analyze t).1 = .ok t') :
    (a.analyze t).2.Sound ∧ t'.Accepted (a.analyze t).2 := by
  obtain ⟨b, sound', tree, empty, behind⟩ := Analyze.MeetsAt.analyze_ok sound accepted (.topLevel written)
  rw [behind]
  refine ⟨{ sound' with scopes := fun scope h => by cases h }, ?_⟩
  have extend : b.Extends { b with errors := #[], scopes := [], function := none } :=
    ⟨fun _ => empty, rfl, rfl, fun _ _ h _ => h, fun _ _ h => h⟩
  exact ⟨tree.decls.mono extend, fun f s hf hs => (tree.body f s hf hs).mono extend⟩

end IncrementalC
