import IncrementalC.Proofs.Analysis.Accepted

/-!
# Analysed expressions are accepted

`MeetsAt P a m Post`: under `P`, the step `m` leads from the sound state `a` to a sound state in which
`Post` holds of its result, unless it finds an error. `MeetsAt.bind` hands on what the first step has
met, so each function is followed line by line.
-/
namespace IncrementalC.Analyze
set_option autoImplicit false
open Typed (Expr Binding)

variable {α β : Type} {P Q : Prop} {a : Analysis}

/-! ## Steps -/

structure MeetsAt (P : Prop) (a : Analysis) (m : Analyze α) (Post : Analysis → α → Prop) : Prop where
  grows : a.Extends (m.run a).2
  meets : P → a.Sound → (m.run a).2.errors = #[] →
    (m.run a).2.Sound ∧ Post (m.run a).2 (m.run a).1

namespace MeetsAt

variable {m : Analyze α} {Post M : Analysis → α → Prop}

/-- A second step that has to start where the first one ends. -/
theorem andThen {f : α → Analyze β} {Post : Analysis → β → Prop} (hm : MeetsAt P a m M)
    (hf : MeetsAt (P ∧ a.Extends (m.run a).2 ∧ M (m.run a).2 (m.run a).1) (m.run a).2
      (f (m.run a).1) Post) : MeetsAt P a (m >>= f) Post := by
  refine ⟨hm.grows.trans hf.grows, fun hP sound accepted => ?_⟩
  obtain ⟨sound', mid⟩ := hm.meets hP sound (hf.grows.errors accepted)
  exact hf.meets ⟨hP, hm.grows, mid⟩ sound' accepted

theorem bind {f : α → Analyze β} {Post : Analysis → β → Prop} (hm : MeetsAt P a m M)
    (hf : ∀ x b, MeetsAt (P ∧ a.Extends b ∧ M b x) b (f x) Post) : MeetsAt P a (m >>= f) Post :=
  andThen hm (hf _ _)

theorem mono {Post' : Analysis → α → Prop} (hm : MeetsAt P a m Post)
    (h : ∀ b x, P → a.Sound → b.Sound → a.Extends b → Post b x → Post' b x) :
    MeetsAt P a m Post' := by
  refine ⟨hm.grows, fun hP sound accepted => ?_⟩
  obtain ⟨sound', post⟩ := hm.meets hP sound accepted
  exact ⟨sound', h _ _ hP sound sound' hm.grows post⟩

theorem and {Post' : Analysis → α → Prop} (hm : MeetsAt P a m Post) (hm' : MeetsAt P a m Post') :
    MeetsAt P a m fun b x => Post b x ∧ Post' b x := by
  refine ⟨hm.grows, fun hP sound accepted => ?_⟩
  obtain ⟨sound', post⟩ := hm.meets hP sound accepted
  exact ⟨sound', post, (hm'.meets hP sound accepted).2⟩

theorem weaken (hm : MeetsAt Q a m Post) (h : P → Q) : MeetsAt P a m Post :=
  ⟨hm.grows, fun hP => hm.meets (h hP)⟩

theorem pure {x : α} (h : P → a.Sound → Post a x) : MeetsAt P a (Pure.pure x) Post :=
  ⟨.refl a, fun hP sound _ => ⟨sound, h hP sound⟩⟩

theorem get {f : Analysis → Analyze α} (hf : MeetsAt P a (f a) Post) :
    MeetsAt P a (MonadState.get >>= f) Post :=
  ⟨hf.grows, hf.meets⟩

theorem ite {c : Prop} [Decidable c] {m' : Analyze α} (h : c → MeetsAt (P ∧ c) a m Post)
    (h' : ¬c → MeetsAt (P ∧ ¬c) a m' Post) : MeetsAt P a (if c then m else m') Post := by
  split
  · rename_i hc
    exact (h hc).weaken fun hP => ⟨hP, hc⟩
  · rename_i hc
    exact (h' hc).weaken fun hP => ⟨hP, hc⟩

/-- A branch that is not taken only has to keep what is known. -/
theorem absurd (hP : P → False) (hm : Does Change m) : MeetsAt P a m Post :=
  ⟨Changes.extends (hm a), fun h => (hP h).elim⟩

/-- A step that finds an error meets anything. -/
theorem report (problem : Problem) (span : Span) {R : Analysis → Unit → Prop} :
    MeetsAt P a (report problem span) R :=
  ⟨(Report.error _).extends, fun _ _ accepted => (Array.push_ne_empty accepted).elim⟩

theorem report_bind (problem : Problem) (span : Span) {f : Unit → Analyze α}
    (hf : Does Change (f ())) : MeetsAt P a (Analyze.report problem span >>= f) Post := by
  refine bind (M := fun _ _ => False) (report problem span) fun _ b => ?_
  exact absurd (fun h => h.2.2) hf

theorem fail (problem : Problem) (span : Span) {R : Analysis → Ty → Prop} :
    MeetsAt P a (fail problem span) R :=
  report_bind problem span (Does.pure _)

/-- A typing rule holds in the state as it is. -/
theorem rule (hm : Does Report m) : MeetsAt P a m fun b x => Yields b m x := by
  refine ⟨Changes.extends (hm.mentions.changes a), fun _ sound accepted => ?_⟩
  have same : (m.run a).2 = a := Does.unchanged hm accepted
  refine ⟨same.symm ▸ sound, a, sound, Changes.extends (hm.mentions.changes a), ?_⟩
  exact Prod.ext rfl same

end MeetsAt

/-! ## Names -/

theorem withValue_sound {name : String} {ty : Ty} {value : Constant} {span : Span}
    (sound : a.Sound) (object : ty.IsObject) : (withValue a name ty value span).Sound := by
  refine { sound with global := fun other s hs => ?_ }
  have lookup : (withValue a name ty value span).names.globals.get? other
      = if other = name then some (.var ty name true) else a.names.globals.get? other :=
    NameMap.get?_insert _ _ _ _
  rw [lookup] at hs
  split at hs
  · cases hs
    exact object
  · exact sound.global other s hs

theorem withRecord_sound {name : String} (sound : a.Sound) (word : IsWord name) :
    (withRecord a name).Sound := by
  refine { sound with record := fun id r hr => ?_ }
  rw [record?_withRecord] at hr
  split at hr
  · cases hr
    exact ⟨word, (fun f hf => by cases hf), fun _ => rfl⟩
  · exact sound.record id r hr

/-- What the fallback says of a name. -/
def Recovered (a : Analysis) : Option (Binding × Ty) → Prop
  | none => True
  | some (binding, ty) =>
    (a.fallback ≠ none ∧ binding = .placeholder ∧ ty = .dependent)
      ∨ (∃ name, binding = .global name) ∧ ty.IsObject

theorem MeetsAt.recover {name : String} {span : Span}
    (fresh : a.names.globals.get? name = none) :
    MeetsAt P a (recover? name span) Recovered := by
  refine .get ?_
  split
  · exact .pure fun _ _ => trivial
  · rename_i known
    refine .pure fun _ _ => .inl ⟨fun none => ?_, rfl, rfl⟩
    rw [none] at known
    cases known
  · rename_i ty value known
    refine ⟨(Mention.value fresh known).extends, fun _ sound _ => ?_⟩
    have object := sound.fallback name ty value known
    exact ⟨withValue_sound sound object, .inr ⟨⟨name, rfl⟩, object⟩⟩

/-- A name with which something is wrong. -/
theorem MeetsAt.failed {binding : Binding} {problem : Problem} {span : Span}
    {Post : Analysis → Binding × Ty → Prop} :
    MeetsAt P a (do return (binding, ← Analyze.fail problem span)) Post :=
  .bind (.fail _ _ (R := fun _ _ => False)) fun _ _ => .pure fun h _ => h.2.2.elim

theorem MeetsAt.identType (name : String) (span : Span) :
    MeetsAt P a (identType name span) fun b r => Bound b r.1 r.2 := by
  refine .get ?_
  split
  · rename_i ty binding found
    refine .pure fun _ sound => ?_
    have entry := sound.of_lookupLocal? found
    exact .object entry.2 entry.1
  · rename_i value ty found
    refine .pure fun _ sound => ?_
    have entry := sound.of_lookupLocal? found
    exact .enumConst entry.1 entry.2
  · exact .failed
  · split
    · rename_i ty link _ found
      exact .pure fun _ sound => .object rfl (sound.global name _ found)
    · rename_i value ty found
      refine .pure fun _ sound => ?_
      have entry := sound.global name _ found
      exact .enumConst entry.1 entry.2
    · exact .failed
    · exact .failed
    · rename_i fresh
      refine .ite (fun _ => ?_) fun _ => ?_
      · exact .failed
      · refine .bind (.recover fresh) fun found b => ?_
        cases found with
        | none => exact .failed
        | some r =>
          obtain ⟨binding, ty⟩ := r
          refine .pure fun h _ => ?_
          obtain ⟨-, -, ⟨fallback, rfl, rfl⟩ | ⟨⟨link, rfl⟩, object⟩⟩ := h
          · exact .placeholder fallback
          · exact .object rfl object

theorem MeetsAt.resolveCallee (name : String) (span : Span) :
    MeetsAt P a (resolveCallee name span) fun b r => Resolved b name r.1 r.2 := by
  have notFunction {P : Prop} {b : Analysis} (ty : Ty) :
      MeetsAt (α := Binding × Callee) P b (do
        Analyze.report (.calledType (← typeName ty)) span
        Pure.pure (.unresolved, .dependent)) fun b r => Resolved b name r.1 r.2 :=
    .get (.report_bind _ _ (Does.pure _))
  refine .get ?_
  dsimp only
  split
  · exact notFunction _
  · exact notFunction _
  · exact notFunction _
  · split
    · rename_i sig _ found
      refine .pure fun _ sound => ?_
      have declared : a.signature? name = some sig := by
        unfold Analysis.signature?
        rw [found]
      exact .function declared (sound.of_signature? declared)
    · exact notFunction _
    · exact notFunction _
    · exact notFunction _
    · rename_i fresh
      split
      · rename_i b' _
        exact .pure fun _ _ => .builtin b'
      · refine .bind (.recover fresh) fun found b => ?_
        split
        · refine .pure fun h _ => ?_
          obtain ⟨-, -, ⟨fallback, -, -⟩ | ⟨⟨link, bound⟩, -⟩⟩ := h
          · exact .placeholder fallback
          · cases bound
        · exact notFunction _
        · exact .report_bind _ _ (Does.pure _)

/-! ## Type names -/

theorem MeetsAt.baseType {spec : Syntax.DeclSpec} (written : spec.Written) :
    MeetsAt P a (baseType spec) fun _ ty => ty.Spelled := by
  unfold Syntax.DeclSpec.Written at written
  unfold Analyze.baseType
  split
  iterate 5
    · exact .pure fun _ _ => trivial
  · exact .fail _ _
  · rename_i name hbase
    rw [hbase] at written
    refine .get ?_
    split
    · rename_i ty found
      exact .pure fun _ sound => sound.of_namedType? written found
    · exact .fail _ _
  · rename_i kind name hbase
    rw [hbase] at written
    refine .get ?_
    split
    · exact .pure fun _ _ => trivial
    · exact .fail _ _
    · rename_i fresh
      refine .bind (M := fun _ _ => True) ⟨(Mention.record fresh).extends, fun _ sound _ => ?_⟩
        fun id b => .pure fun _ _ => trivial
      exact ⟨withRecord_sound sound written, trivial⟩
  · rename_i name hbase
    rw [hbase] at written
    refine .get ?_
    split
    · exact .pure fun _ _ => written
    · exact .fail _ _

theorem toNat_lt {n : Int64} : n.toInt.toNat < UInt64.size / 2 := by
  have upper : n.toInt < 2 ^ 63 := n.toInt_lt
  have size : UInt64.size / 2 = 2 ^ 63 := rfl
  omega

/-- An array length fits a signed word. -/
theorem MeetsAt.arrayLength? (e : Expr) :
    MeetsAt P a (arrayLength? e) fun _ n => ∀ k, n = some k → k < UInt64.size / 2 := by
  have nothing {P : Prop} {b : Analysis} {problem : Problem} {span : Span} :
      MeetsAt P b (do
        Analyze.report problem span
        return none) fun _ n => ∀ k : Nat, n = some k → k < UInt64.size / 2 :=
    .report_bind _ _ (Does.pure _)
  refine .ite (fun _ => ?_) fun _ => ?_
  · refine .ite (fun _ => .get nothing) fun _ => .pure fun _ _ => nofun
  · refine .get ?_
    split
    · refine .ite (fun _ => .pure fun _ _ k hk => ?_) fun _ => nothing
      cases hk
      exact toNat_lt
    · exact nothing
    · exact nothing

/-! ## Expressions -/

mutual

theorem MeetsAt.expr {P : Prop} {a : Analysis} :
    ∀ {e : Syntax.Expr}, e.Written → MeetsAt P a (expr e) fun b t => t.Accepted b
  | .int .., h => .pure fun _ _ => ⟨h, rfl⟩
  | .float .., _ | .char .., _ | .str .., _ | .bool .., _ | .null .., _ => .pure fun _ _ => rfl
  | .ident span name, h => by
    refine .bind (.identType name span) fun r b => .pure fun hr _ => ?_
    exact ⟨h, hr.2.2⟩
  | .unary span op e, h => by
    refine .bind (MeetsAt.expr h) fun e b => .bind (.rule (Does.unaryType op e span)) fun ty c => ?_
    refine .pure fun known _ => ?_
    obtain ⟨⟨-, -, he⟩, hbc, hty⟩ := known
    exact ⟨hty, he.mono hbc⟩
  | .binary span op x y, h => by
    refine .bind (MeetsAt.expr h.1) fun x b => .bind (MeetsAt.expr h.2) fun y c => ?_
    refine .bind (.rule (Does.binaryType op x y span)) fun ty d => .pure fun known _ => ?_
    obtain ⟨⟨⟨-, -, hx⟩, hbc, hy⟩, hcd, hty⟩ := known
    exact ⟨hty, hx.mono (hbc.trans hcd), hy.mono hcd⟩
  | .assign span op x y, h => by
    refine .bind (MeetsAt.expr h.2.1) fun x b => .bind (MeetsAt.expr h.2.2) fun y c => ?_
    refine .bind (.rule (Does.assignType op x y span)) fun ty d => .pure fun known _ => ?_
    obtain ⟨⟨⟨-, -, hx⟩, hbc, hy⟩, hcd, hty⟩ := known
    exact ⟨h.1, hty, hx.mono (hbc.trans hcd), hy.mono hcd⟩
  | .conditional span c x y, h => by
    refine .bind (MeetsAt.expr h.1) fun c b₁ => .bind (MeetsAt.expr h.2.1) fun x b₂ => ?_
    refine .bind (MeetsAt.expr h.2.2) fun y b₃ => ?_
    refine .bind (.rule (Does.conditionalType c x y span)) fun ty b₄ => .pure fun known _ => ?_
    obtain ⟨⟨⟨⟨-, -, hc⟩, h₁₂, hx⟩, h₂₃, hy⟩, h₃₄, hty⟩ := known
    exact ⟨hty, hc.mono (h₁₂.trans (h₂₃.trans h₃₄)), hx.mono (h₂₃.trans h₃₄), hy.mono h₃₄⟩
  | .call span callee args, h => by
    have hargs {P : Prop} {a : Analysis} : MeetsAt P a (Analyze.exprs args) fun b ts => Typed.AcceptedAll b ts :=
      MeetsAt.exprs h.2
    have hcallee {P : Prop} {a : Analysis} : MeetsAt P a (Analyze.expr callee) fun b t => t.Accepted b :=
      MeetsAt.expr h.1
    cases callee with
    | ident s name =>
      refine .bind (.resolveCallee name s) fun r b => .bind hargs fun args c => ?_
      refine .bind (.rule (Does.callType name r.2 args span)) fun ty d => .pure fun known _ => ?_
      obtain ⟨⟨⟨-, -, hr⟩, hbc, hargs⟩, hcd, hty⟩ := known
      exact ⟨h.1, hargs.mono hcd, r.2, hr.mono (hbc.trans hcd), hty⟩
    | _ =>
      refine .bind hcallee fun _ _ => .bind hargs fun _ _ => ?_
      exact .bind (.fail _ _ (R := fun _ _ => False)) fun _ _ => .pure fun known _ => known.2.2.elim
  | .index span base index, h => by
    refine .bind (MeetsAt.expr h.1) fun x b => .bind (MeetsAt.expr h.2) fun y c => ?_
    refine .bind (.rule (Does.indexType x y span)) fun ty d => .pure fun known _ => ?_
    obtain ⟨⟨⟨-, -, hx⟩, hbc, hy⟩, hcd, hty⟩ := known
    exact ⟨hty, hx.mono (hbc.trans hcd), hy.mono hcd⟩
  | .member span base field arrow, h => by
    refine .bind (MeetsAt.expr h.1) fun x b => ?_
    refine .bind (.rule (Does.memberType x field arrow span)) fun ty c => .pure fun known _ => ?_
    obtain ⟨⟨-, -, hx⟩, hbc, hty⟩ := known
    exact ⟨h.2, hty, hx.mono hbc⟩
  | .cast span spec d e, h => by
    refine .bind (.baseType h.1) fun base b => ?_
    refine .bind (MeetsAt.declaredType (fun known => known.2.2) h.2.1) fun target c => ?_
    refine .bind (MeetsAt.expr h.2.2) fun e d => ?_
    refine .bind (.rule (Does.castType target e span)) fun ty f => .pure fun known _ => ?_
    obtain ⟨⟨⟨-, -, htarget⟩, -, he⟩, hdf, hty⟩ := known
    exact ⟨htarget, hty, he.mono hdf⟩
  | .sizeofType span spec d, h => by
    refine .bind (.baseType h.1) fun base b => ?_
    refine .bind (MeetsAt.declaredType (fun known => known.2.2) h.2) fun target c => ?_
    refine .bind (.rule (Does.sizeofType target span)) fun ty d => .pure fun known _ => ?_
    exact ⟨known.1.2.2, known.2.2⟩
  | .sizeofExpr span e, h => by
    refine .bind (MeetsAt.expr h) fun e b => ?_
    refine .bind (.rule (Does.sizeofExprType e span)) fun ty c => .pure fun known _ => ?_
    obtain ⟨⟨-, -, he⟩, hbc, hty⟩ := known
    exact ⟨hty, he.mono hbc⟩
  | .comma span x y, h => by
    refine .bind (MeetsAt.expr h.1) fun x b => .bind (MeetsAt.expr h.2) fun y c => ?_
    refine .pure fun known _ => ?_
    obtain ⟨⟨-, -, hx⟩, hbc, hy⟩ := known
    exact ⟨rfl, hx.mono hbc, hy⟩

theorem MeetsAt.exprs {P : Prop} {a : Analysis} :
    ∀ {es : List Syntax.Expr}, Syntax.WrittenExprs es →
      MeetsAt P a (exprs es) fun b ts => Typed.AcceptedAll b ts
  | [], _ => .pure fun _ _ => trivial
  | e :: es, h => by
    refine .bind (MeetsAt.expr h.1) fun e b => .bind (MeetsAt.exprs h.2) fun es c => ?_
    refine .pure fun known _ => ?_
    obtain ⟨⟨-, -, he⟩, hbc, hes⟩ := known
    exact ⟨he.mono hbc, hes⟩

theorem MeetsAt.declaredType {P : Prop} {a : Analysis} {base : Ty} (hbase : P → base.Spelled) :
    ∀ {d : Syntax.Declarator}, d.Written → MeetsAt P a (declaredType base d) fun _ ty => ty.Spelled
  | .mk _ n suffixes span, h => by
    refine .bind (MeetsAt.suffixedType (fun hP => (hbase hP).pointers n) h.2) fun ty? b => ?_
    refine .pure fun known _ => ?_
    obtain ⟨-, -, ty, rfl, spelled⟩ := known
    exact spelled

/-- A declarator without parameters has a type. -/
theorem MeetsAt.suffixedType {P : Prop} {a : Analysis} {base : Ty} {span : Span}
    (hbase : P → base.Spelled) :
    ∀ {ss : List Syntax.Suffix}, Syntax.WrittenSuffixes ss →
      MeetsAt P a (suffixedType base span ss) fun _ ty? => ∃ ty, ty? = some ty ∧ ty.Spelled
  | [], _ => .pure fun hP _ => ⟨base, rfl, hbase hP⟩
  | s :: rest, h => by
    rw [Analyze.suffixedType]
    refine .bind (MeetsAt.suffixedType hbase h.2) fun ty? b => ?_
    cases ty? with
    | none =>
      refine .pure fun known _ => ?_
      obtain ⟨-, -, ty, impossible, -⟩ := known
      cases impossible
    | some ty =>
      cases s with
      | unsized =>
        refine .pure fun known _ => ?_
        obtain ⟨-, -, ty', same, spelled⟩ := known
        cases same
        exact ⟨_, rfl, spelled, nofun⟩
      | sized size =>
        refine .bind (MeetsAt.expr h.1) fun size c => .bind (.arrayLength? size) fun n d => ?_
        refine .pure fun known _ => ?_
        obtain ⟨⟨⟨-, -, ty', same, spelled⟩, -⟩, -, length⟩ := known
        cases same
        exact ⟨_, rfl, spelled, length⟩
      | function ps variadic => exact .report_bind _ _ (Does.pure _)

end

end IncrementalC.Analyze
