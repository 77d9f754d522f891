import IncrementalC.Proofs.Syntax.Written
import IncrementalC.Syntax.Expression

/-!
# Parsed expressions, specifiers and declarators are written

The rules call each other with a smaller bound on the depth, so all of them are shown at once by
induction on it. `Rules depth` has a field for each rule, and each rule has a step lemma.
-/
namespace IncrementalC.Syntax
set_option autoImplicit false

/-- What the specifiers read so far carry. -/
structure Specifiers.Written (s : Specifiers) : Prop where
  base : ∀ b, s.base = some b → b.Written
  definition : ∀ d, s.definition = some d → d.Written

/-- A part of the specifiers with the type that is defined on the way. -/
def WrittenDef {α : Type} (P : α → Prop) (r : α × Option Decl) : Prop :=
  P r.1 ∧ ∀ d, r.2 = some d → d.Written

namespace Reads

/-! ## Tables -/

theorem assignOp?_isArithmetic {p : Punct} {o : BinaryOp} (h : assignOp? p = some (some o)) :
    o.isArithmetic := by
  cases p <;> cases h <;> rfl

theorem atom?_written {span : Span} {k : TokenKind} {e : Expr} (hk : k.Written)
    (h : atom? span k = some e) : e.Written := by
  unfold atom? at h
  split at h <;> cases h <;> exact hk

/-! ## Names made up -/

theorem freshName {stem : String} (hstem : ∀ n : Nat, IsWord s!"{stem}{n}") :
    Reads (freshName stem) IsWord := by
  intro c x c' _ run
  cases run
  exact ⟨List.suffix_rfl, Nat.le_refl _, hstem _⟩

theorem nameBehindBody?_written {depth : Nat} {tokens : List Token} {name : String}
    (hwritten : ∀ t ∈ tokens, t.kind.Written) (h : nameBehindBody? depth tokens = some name) :
    IsWord name := by
  induction tokens generalizing depth with
  | nil => cases h
  | cons t r ih =>
    have hr : ∀ t ∈ r, t.kind.Written := fun t ht => hwritten t (List.mem_cons_of_mem _ ht)
    unfold nameBehindBody? at h
    split at h
    · exact ih hr h
    · split at h
      · split at h
        · split at h
          · rename_i found span rest
            cases h
            exact hr _ List.mem_cons_self
          · cases h
        · exact ih hr h
      · exact ih hr h

theorem isWordChar_of_isDigit {c : Char} (h : c.isDigit) : Text.isWordChar c := by
  have small : c.toNat < 0x80 := by
    have : c.val ≤ 57 := by
      simp only [Char.isDigit, Bool.and_eq_true, decide_eq_true_eq] at h
      exact h.2
    have : c.toNat ≤ 57 := this
    omega
  unfold Text.isWordChar Text.isNumeral
  rw [if_pos small, h, Bool.or_true, Bool.true_or]

/-- No keyword begins with two underscores, so a made up name is a word. -/
theorem isWord_numbered (stem : String) (n : Nat) (hstem : stem.toList.take 2 = ['_', '_'])
    (hchars : stem.toList.all Text.isWordChar) : IsWord s!"{stem}{n}" := by
  have split : (s!"{stem}{n}").toList = stem.toList ++ Nat.toDigits 10 n := by
    show (stem ++ Nat.repr n).toList = _
    rw [String.toList_append, Nat.toList_repr]
  obtain ⟨rest, hrest⟩ : ∃ rest, stem.toList = '_' :: '_' :: rest := by
    match h : stem.toList, hstem with
    | a :: b :: rest, hstem =>
      cases hstem
      exact ⟨rest, rfl⟩
  refine ⟨⟨'_', '_' :: rest ++ Nat.toDigits 10 n, ?_, rfl, ?_⟩, ?_⟩
  · rw [split, hrest]
    rfl
  · have digits : (Nat.toDigits 10 n).all Text.isWordChar := by
      rw [List.all_eq_true]
      intro c hc
      exact isWordChar_of_isDigit (Nat.isDigit_of_mem_toDigits (by omega) (by omega) hc)
    rw [hrest] at hchars
    rw [← List.cons_append, List.all_append, hchars, digits]
    rfl
  · have unlike : ∀ w : String, w.toList.take 2 ≠ ['_', '_'] → s!"{stem}{n}" ≠ w := by
      intro w hw same
      apply hw
      rw [← same, split, hrest]
      rfl
    unfold Keyword.ofWord?
    rw [if_neg (unlike _ (by decide)), if_neg (unlike _ (by decide)), List.find?_eq_none]
    intro k _ same
    exact unlike k.spelling (by cases k <;> decide) (beq_iff_eq.mp same).symm

theorem isWord_unnamed (n : Nat) : IsWord s!"{unnamedEnum}{n}" :=
  isWord_numbered _ n (by decide) (by decide)

theorem isWord_anon (n : Nat) : IsWord s!"__cinder_anon_{n}" :=
  isWord_numbered "__cinder_anon_" n (by decide) (by decide)

theorem typedefName : Reads typedefName IsWord := by
  refine bind get fun c hc => ?_
  split
  · rename_i name found
    exact pure (nameBehindBody?_written hc found)
  · exact freshName isWord_anon

/-! ## Specifiers -/

theorem wordsType?_written {words : List Keyword} {b : BaseType} (h : wordsType? words = some b) :
    b.Written := by
  have int {rank : IntRank} {signed : Bool} (h : some (.int ⟨rank, signed⟩) = some b) : b.Written := by
    cases h
    trivial
  unfold wordsType? at h
  dsimp only at h
  split at h
  · cases h
  · split at h
    · split at h
      · exact int h
      · exact int h
      · exact int h
      · cases h
    all_goals
      try split at h
      all_goals cases h
      all_goals trivial

theorem finish {s : Specifiers} (hs : s.Written) (start : Span) :
    Reads (s.finish start) (WrittenDef DeclSpec.Written) := by
  have rest (base : BaseType) (hbase : base.Written) : Reads (do
      let span := start.merge (← Parser.prev)
      return (({ base, storage := s.storage, isConst := s.isConst, isInline := s.isInline,
                 externC := s.externC, span } : DeclSpec), s.definition))
      (WrittenDef DeclSpec.Written) :=
    bind prev fun _ _ => pure ⟨hbase, hs.definition⟩
  unfold Specifiers.finish
  dsimp only
  split
  · rename_i b hb
    exact bind (pure (P := BaseType.Written) (hs.base b hb)) rest
  · refine ite (fun _ => unexpected_bind _ _) fun _ => ?_
    split
    · rename_i b hb
      exact bind (pure (P := BaseType.Written) (wordsType?_written hb)) rest
    · exact throw_bind _ _

/-! ## Records and enumerations -/

theorem tagKind (kw : Token) : Reads (tagKind kw) fun _ => True := by
  unfold Syntax.tagKind
  split
  · exact pure trivial
  · exact pure trivial
  · exact throw _
  · exact pure trivial

theorem tagName {kw : Token} {record? : Option RecordKind} {name? : Option String}
    {hasBody inTypedef : Bool} (hname : ∀ n, name? = some n → IsWord n) :
    Reads (tagName kw record? name? hasBody inTypedef) IsWord := by
  unfold Syntax.tagName
  cases name? with
  | some name => exact pure (hname name rfl)
  | none =>
    refine ite (fun _ => typedefName) fun _ => ite (fun _ => ?_) fun _ => throw _
    exact freshName isWord_unnamed

theorem recordTag {kw : Token} {kind : RecordKind} {name : String} {hasBody : Bool}
    {body : Parser (List FieldDecl)} (hname : IsWord name)
    (hbody : Reads body fun fs => ∀ f ∈ fs, f.Written) :
    Reads (recordTag kw kind name hasBody body) (WrittenDef BaseType.Written) := by
  refine bind (addTypeName name) fun _ _ => ite (fun _ => ?_) fun _ => ?_
  · refine bind hbody fun fields hfields => bind prev fun _ _ => pure ⟨hname, fun d hd => ?_⟩
    cases hd
    exact ⟨hname, fun fs hfs => Option.some.inj hfs ▸ hfields⟩
  · refine bind (isAtPunct _) fun _ _ => ite (fun _ => ?_) fun _ => pure ⟨hname, nofun⟩
    refine bind prev fun _ _ => pure ⟨hname, fun d hd => ?_⟩
    cases hd
    exact ⟨hname, nofun⟩

theorem enumTag {kw : Token} {name : String} {hasBody : Bool} {values : Parser (List Enumerator)}
    (hname : IsWord name) (hvalues : Reads values fun vs => ∀ v ∈ vs, v.Written) :
    Reads (enumTag kw name hasBody values) (WrittenDef BaseType.Written) := by
  have hbase : (if name.startsWith unnamedEnum then BaseType.int ⟨.int, true⟩ else .enum name).Written := by
    split
    · trivial
    · exact hname
  have rest : Reads (do
      if hasBody then
        let _ ← Parser.advance
        let variants ← values
        let _ ← Parser.expect .rbrace
        let span := kw.span.merge (← Parser.prev)
        return (if name.startsWith unnamedEnum then BaseType.int ⟨.int, true⟩ else .enum name,
          some (⟨.enum (if name.startsWith unnamedEnum then none else some name) variants, span⟩ : Decl))
      else return (if name.startsWith unnamedEnum then BaseType.int ⟨.int, true⟩ else .enum name, none))
      (WrittenDef BaseType.Written) := by
    refine ite (fun _ => ?_) fun _ => pure ⟨hbase, nofun⟩
    refine bind advance fun _ _ => bind hvalues fun vs hvs => bind (expect _) fun _ _ => ?_
    refine bind prev fun _ _ => pure ⟨hbase, fun d hd => ?_⟩
    cases hd
    refine ⟨fun n hn => ?_, hvs⟩
    split at hn
    · cases hn
    · cases hn
      exact hname
  exact ite (fun _ => bind (addTypeName name) fun _ _ => rest) fun _ => rest

end Reads

/-! ## The rules -/

structure Rules (depth : Nat) : Prop where
  expr : Reads (expr depth) Expr.Written
  commaTail : ∀ lhs : Expr, lhs.Written → Reads (commaTail depth lhs) Expr.Written
  assignment : Reads (assignment depth) Expr.Written
  conditional : Reads (conditional depth) Expr.Written
  binary : ∀ min, Reads (binary depth min) Expr.Written
  binaryTail : ∀ min (lhs : Expr), lhs.Written → Reads (binaryTail depth min lhs) Expr.Written
  unary : Reads (unary depth) Expr.Written
  primary : Reads (primary depth) Expr.Written
  postfixTail : ∀ e : Expr, e.Written → Reads (postfixTail depth e) Expr.Written
  arguments : Reads (arguments depth) WrittenExprs
  argumentList : Reads (argumentList depth) WrittenExprs
  typeName : Reads (typeName depth) fun r => r.1.Written ∧ r.2.Written
  declSpec : Reads (declSpec depth) (WrittenDef DeclSpec.Written)
  specifiers : ∀ s : Specifiers, s.Written → Reads (specifiers depth s) Specifiers.Written
  tagged : ∀ inTypedef, Reads (tagged depth inTypedef) (WrittenDef BaseType.Written)
  enumerators : Reads (enumerators depth) fun vs => ∀ v ∈ vs, v.Written
  recordBody : Reads (recordBody depth) fun fs => ∀ f ∈ fs, f.Written
  fieldDecls : Reads (fieldDecls depth) fun fs => ∀ f ∈ fs, f.Written
  fieldDeclarators : Reads (fieldDeclarators depth) fun ds => ∀ d ∈ ds, d.Written ∧ d.name.isSome
  declarator : ∀ abstract, Reads (declarator depth abstract) fun d =>
    d.Written ∧ (abstract = false → d.name.isSome)
  suffixes : ∀ first, Reads (suffixes depth first) WrittenSuffixes
  params : Reads (params depth) Suffix.Written
  paramList : Reads (paramList depth) fun r => WrittenParams r.1

namespace Reads

variable {depth : Nat}

theorem expr_succ (ih : Rules depth) : Reads (Syntax.expr (depth + 1)) Expr.Written :=
  bind ih.assignment fun lhs hlhs => ih.commaTail lhs hlhs

theorem commaTail_succ (ih : Rules depth) (lhs : Expr) (hlhs : lhs.Written) :
    Reads (Syntax.commaTail (depth + 1) lhs) Expr.Written := by
  refine bind (eat _) fun b _ => ite (fun _ => ?_) fun _ => pure hlhs
  exact bind ih.assignment fun rhs hrhs => ih.commaTail _ ⟨hlhs, hrhs⟩

theorem assignment_succ (ih : Rules depth) : Reads (Syntax.assignment (depth + 1)) Expr.Written := by
  refine bind ih.conditional fun lhs hlhs => bind kind fun k _ => ?_
  dsimp only
  split
  · exact pure hlhs
  · rename_i op hop
    refine bind advance fun _ _ => bind ih.assignment fun rhs hrhs => pure ⟨?_, hlhs, hrhs⟩
    intro o ho
    cases ho
    split at hop
    · exact assignOp?_isArithmetic hop
    · cases hop

theorem conditional_succ (ih : Rules depth) : Reads (Syntax.conditional (depth + 1)) Expr.Written := by
  refine bind (ih.binary 0) fun cond hcond => bind (eat _) fun b _ => ite (fun _ => ?_) fun _ => pure hcond
  refine bind ih.expr fun yes hyes => bind (expect _) fun _ _ => ?_
  exact bind ih.conditional fun no hno => pure ⟨hcond, hyes, hno⟩

theorem binary_succ (ih : Rules depth) (min : Nat) :
    Reads (Syntax.binary (depth + 1) min) Expr.Written :=
  bind ih.unary fun lhs hlhs => ih.binaryTail min lhs hlhs

theorem binaryTail_succ (ih : Rules depth) (min : Nat) (lhs : Expr) (hlhs : lhs.Written) :
    Reads (Syntax.binaryTail (depth + 1) min lhs) Expr.Written := by
  refine bind kind fun k _ => ?_
  dsimp only
  split
  · exact pure hlhs
  · rename_i op hop
    refine ite (fun _ => pure hlhs) fun _ => bind advance fun _ _ => ?_
    exact bind (ih.binary _) fun rhs hrhs => ih.binaryTail _ _ ⟨hlhs, hrhs⟩

theorem unary_succ (ih : Rules depth) : Reads (Syntax.unary (depth + 1)) Expr.Written := by
  have operand : Reads (do Syntax.postfixTail depth (← Syntax.primary depth)) Expr.Written :=
    bind ih.primary fun e he => ih.postfixTail e he
  refine bind here fun start _ => bind get fun c _ => ?_
  dsimp only
  split
  · refine bind advance fun _ _ => bind get fun c _ => ite (fun _ => ?_) fun _ => ?_
    · refine bind advance fun _ _ => bind ih.typeName fun r hr => ?_
      exact bind (expect _) fun _ _ => pure hr
    · exact bind ih.unary fun e he => pure he
  · split
    · exact bind advance fun _ _ => bind ih.unary fun e he => pure he
    · refine ite (fun _ => ?_) fun _ => operand
      refine bind advance fun _ _ => bind ih.typeName fun r hr => bind (expect _) fun _ _ => ?_
      exact bind ih.unary fun e he => pure ⟨hr.1, hr.2, he⟩
  · exact operand

theorem primary_succ (ih : Rules depth) : Reads (Syntax.primary (depth + 1)) Expr.Written := by
  refine bind here fun start _ => bind (eat _) fun b _ => ite (fun _ => ?_) fun _ => ?_
  · refine bind ih.expr fun e he => bind (expect _) fun close _ => ?_
    exact pure (Expr.withSpan_written _ he)
  · refine bind kind fun k hk => ?_
    split
    · rename_i e found
      exact bind advance fun _ _ => pure (atom?_written hk found)
    · exact unexpected _

theorem postfixTail_succ (ih : Rules depth) (e : Expr) (he : e.Written) :
    Reads (Syntax.postfixTail (depth + 1) e) Expr.Written := by
  refine bind kind fun k _ => ?_
  split
  · refine bind advance fun _ _ => bind ih.expr fun index hindex => bind (expect _) fun _ _ => ?_
    exact ih.postfixTail _ ⟨he, hindex⟩
  · refine bind advance fun _ _ => bind ih.arguments fun args hargs => bind (expect _) fun _ _ => ?_
    exact ih.postfixTail _ ⟨he, hargs⟩
  · refine bind advance fun _ _ => bind expectIdent fun x hx => ?_
    exact ih.postfixTail _ ⟨he, hx⟩
  · refine bind advance fun _ _ => bind expectIdent fun x hx => ?_
    exact ih.postfixTail _ ⟨he, hx⟩
  · exact bind advance fun _ _ => ih.postfixTail _ he
  · exact bind advance fun _ _ => ih.postfixTail _ he
  · exact pure he

theorem arguments_succ (ih : Rules depth) : Reads (Syntax.arguments (depth + 1)) WrittenExprs :=
  bind (isAtPunct _) fun _ _ => ite (fun _ => pure trivial) fun _ => ih.argumentList

theorem argumentList_succ (ih : Rules depth) :
    Reads (Syntax.argumentList (depth + 1)) WrittenExprs := by
  refine bind ih.assignment fun e he => bind (eat _) fun b _ => ite (fun _ => ?_) fun _ => ?_
  · exact bind ih.argumentList fun es hes => pure ⟨he, hes⟩
  · exact pure ⟨he, trivial⟩

theorem typeName_succ (ih : Rules depth) :
    Reads (Syntax.typeName (depth + 1)) fun r => r.1.Written ∧ r.2.Written := by
  refine bind here fun start _ => bind ih.declSpec fun r hr => ?_
  refine ite (fun _ => throw_bind _ _) fun _ => bind (ih.declarator true) fun d hd => ?_
  exact ite (fun _ => throw_bind _ _) fun _ => pure ⟨hr.1, hd.1⟩

theorem declSpec_succ (ih : Rules depth) :
    Reads (Syntax.declSpec (depth + 1)) (WrittenDef DeclSpec.Written) :=
  bind here fun start _ => bind (ih.specifiers {} ⟨nofun, nofun⟩) fun _ hs =>
    finish hs start

theorem specifiers_succ (ih : Rules depth) (s : Specifiers) (hs : s.Written) :
    Reads (Syntax.specifiers (depth + 1) s) Specifiers.Written := by
  have again (s : Specifiers) (hs : s.Written) : Reads (do
      let _ ← Parser.advance
      Syntax.specifiers depth s) Specifiers.Written :=
    bind advance fun _ _ => ih.specifiers s hs
  refine bind kind fun k hk => ?_
  dsimp only
  split
  · exact again _ ⟨hs.base, hs.definition⟩
  · exact again _ ⟨hs.base, hs.definition⟩
  · refine bind advance fun _ _ => bind kind fun k _ => ?_
    split
    · exact again _ ⟨hs.base, hs.definition⟩
    · exact ih.specifiers _ ⟨hs.base, hs.definition⟩
  · exact again _ ⟨hs.base, hs.definition⟩
  · exact again _ hs
  · exact again _ hs
  · exact again _ ⟨hs.base, hs.definition⟩
  iterate 4
    · refine ite (fun _ => unexpected_bind _ _) fun _ => bind (ih.tagged _) fun r hr => ?_
      exact ih.specifiers _ ⟨fun b hb => Option.some.inj hb ▸ hr.1, hr.2⟩
  · refine ite (fun _ => ite (fun _ => unexpected_bind _ _) fun _ => ?_) fun _ => pure hs
    exact again _ ⟨hs.base, hs.definition⟩
  · refine bind get fun c _ => ite (fun _ => ?_) fun _ => pure hs
    exact again _ ⟨fun b hb => Option.some.inj hb ▸ hk, hs.definition⟩
  · exact pure hs

theorem tagged_succ (ih : Rules depth) (inTypedef : Bool) :
    Reads (Syntax.tagged (depth + 1) inTypedef) (WrittenDef BaseType.Written) := by
  refine bind advance fun kw _ => bind (tagKind kw) fun record? _ => bind ident? fun name? hname? => ?_
  refine bind (isAtPunct _) fun hasBody _ => bind (tagName hname?) fun name hname => ?_
  cases record? with
  | some kind => exact recordTag hname ih.recordBody
  | none => exact enumTag hname ih.enumerators

theorem enumerators_succ (ih : Rules depth) :
    Reads (Syntax.enumerators (depth + 1)) fun vs => ∀ v ∈ vs, v.Written := by
  refine bind (isAtPunct _) fun b _ => ite (fun _ => pure fun _ h => by cases h) fun _ => ?_
  refine bind expectIdent fun x hx => ?_
  have rest (value : Option Expr) (hvalue : ∀ e, value = some e → e.Written) : Reads (do
      let e : Enumerator := { name := x.1, value, span := x.2.merge (← Parser.prev) }
      if ← Parser.eat .comma then return e :: (← Syntax.enumerators depth) else return [e])
      fun vs => ∀ v ∈ vs, v.Written := by
    refine bind prev fun _ _ => bind (eat _) fun _ _ => ite (fun _ => ?_) fun _ => ?_
    · refine bind ih.enumerators fun vs hvs => pure fun v hv => ?_
      cases hv with
      | head => exact ⟨hx, hvalue⟩
      | tail _ hv => exact hvs v hv
    · refine pure fun v hv => ?_
      rw [List.mem_singleton.mp hv]
      exact ⟨hx, hvalue⟩
  refine bind (eat _) fun b _ => ite (fun _ => ?_) fun _ => ?_
  · refine bind (map ih.conditional) fun value hvalue => rest value hvalue
  · exact bind (pure (P := fun value => value = none) rfl) fun value hvalue =>
      rest value (hvalue ▸ nofun)

theorem recordBody_succ (ih : Rules depth) :
    Reads (Syntax.recordBody (depth + 1)) fun fs => ∀ f ∈ fs, f.Written :=
  bind (expect _) fun _ _ => bind ih.fieldDecls fun _ hfs => bind (expect _) fun _ _ => pure hfs

theorem fieldDecls_succ (ih : Rules depth) :
    Reads (Syntax.fieldDecls (depth + 1)) fun fs => ∀ f ∈ fs, f.Written := by
  refine bind kind fun k _ => ?_
  split
  · exact pure fun _ h => by cases h
  · exact bind advance fun _ _ => bind (expect _) fun _ _ => ih.fieldDecls
  · exact bind advance fun _ _ => bind (expect _) fun _ _ => ih.fieldDecls
  · exact unexpected _
  · refine bind here fun _ _ => bind ih.declSpec fun r hr => ite (fun _ => throw_bind _ _) fun _ => ?_
    refine bind ih.fieldDeclarators fun ds hds => bind (expect _) fun _ _ => bind prev fun _ _ => ?_
    refine bind ih.fieldDecls fun fs hfs => pure fun f hf => ?_
    cases hf with
    | head => exact ⟨hr.1, hds⟩
    | tail _ hf => exact hfs f hf

theorem fieldDeclarators_succ (ih : Rules depth) :
    Reads (Syntax.fieldDeclarators (depth + 1)) fun ds => ∀ d ∈ ds, d.Written ∧ d.name.isSome := by
  refine bind (ih.declarator false) fun d hd => ite (fun _ => throw_bind _ _) fun _ => ?_
  refine ite (fun _ => unexpected_bind _ _) fun _ => bind (eat _) fun _ _ => ite (fun _ => ?_) fun _ => ?_
  · refine bind ih.fieldDeclarators fun ds hds => pure fun d' hd' => ?_
    cases hd' with
    | head => exact ⟨hd.1, hd.2 rfl⟩
    | tail _ hd' => exact hds d' hd'
  · refine pure fun d' hd' => ?_
    rw [List.mem_singleton.mp hd']
    exact ⟨hd.1, hd.2 rfl⟩

theorem declarator_succ (ih : Rules depth) (abstract : Bool) :
    Reads (Syntax.declarator (depth + 1) abstract) fun d =>
      d.Written ∧ (abstract = false → d.name.isSome) := by
  refine bind here fun _ _ => bind pointers fun n _ => bind get fun c _ => ?_
  refine ite (fun _ => throw_bind _ _) fun _ => bind ident? fun name hname => ?_
  refine ite (fun _ => unexpected_bind _ _) fun h => bind (ih.suffixes true) fun ss hss => ?_
  refine bind prev fun _ _ => pure ⟨⟨hname, hss⟩, fun habstract => ?_⟩
  cases name with
  | none => exact absurd (by rw [habstract]; rfl) h
  | some name => rfl

theorem suffixes_succ (ih : Rules depth) (first : Bool) :
    Reads (Syntax.suffixes (depth + 1) first) WrittenSuffixes := by
  refine bind (eat _) fun _ _ => ite (fun _ => ?_) fun _ => ?_
  · have rest (s : Suffix) (hs : s.Written) : Reads (do
        let _ ← Parser.expect .rbracket
        return s :: (← Syntax.suffixes depth false)) WrittenSuffixes :=
      bind (expect _) fun _ _ => bind (ih.suffixes false) fun ss hss => pure ⟨hs, hss⟩
    refine bind (isAtPunct _) fun _ _ => ite (fun _ => ?_) fun _ => ?_
    · exact bind (pure (P := Suffix.Written) trivial) rest
    · exact bind (mapTo (fun _ he => he) ih.conditional) rest
  · refine bind get fun c _ => ite (fun _ => ?_) fun _ => pure trivial
    exact bind ih.params fun s hs => bind (ih.suffixes false) fun ss hss => pure ⟨hs, hss⟩

theorem params_succ (ih : Rules depth) : Reads (Syntax.params (depth + 1)) Suffix.Written := by
  have rest (r : List Param × Bool) (hr : WrittenParams r.1) : Reads (do
      let _ ← Parser.expect .rparen
      return Suffix.function r.1 r.2) Suffix.Written :=
    bind (expect _) fun _ _ => pure hr
  have none : Reads (Pure.pure ([], false)) fun r : List Param × Bool => WrittenParams r.1 :=
    pure trivial
  refine bind (expect _) fun _ _ => bind get fun c _ => ite (fun _ => ?_) fun _ => ite (fun _ => ?_) fun _ => ?_
  · exact bind advance fun _ _ => bind none rest
  · exact bind none rest
  · exact bind ih.paramList rest

theorem paramList_succ (ih : Rules depth) :
    Reads (Syntax.paramList (depth + 1)) fun r => WrittenParams r.1 := by
  refine bind (eat _) fun _ _ => ite (fun _ => pure trivial) fun _ => bind here fun _ _ => ?_
  refine bind ih.declSpec fun r hr => ite (fun _ => throw_bind _ _) fun _ => ?_
  refine bind (ih.declarator true) fun d hd => bind prev fun _ _ => bind (eat _) fun _ _ => ?_
  refine ite (fun _ => ?_) fun _ => pure ⟨⟨hr.1, hd.1⟩, trivial⟩
  exact bind ih.paramList fun ps hps => pure ⟨⟨hr.1, hd.1⟩, hps⟩

end Reads

theorem rules (depth : Nat) : Rules depth := by
  induction depth with
  | zero =>
    constructor <;> intros <;> exact Reads.tooDeep
  | succ depth ih =>
    exact {
      expr := Reads.expr_succ ih
      commaTail := Reads.commaTail_succ ih
      assignment := Reads.assignment_succ ih
      conditional := Reads.conditional_succ ih
      binary := Reads.binary_succ ih
      binaryTail := Reads.binaryTail_succ ih
      unary := Reads.unary_succ ih
      primary := Reads.primary_succ ih
      postfixTail := Reads.postfixTail_succ ih
      arguments := Reads.arguments_succ ih
      argumentList := Reads.argumentList_succ ih
      typeName := Reads.typeName_succ ih
      declSpec := Reads.declSpec_succ ih
      specifiers := Reads.specifiers_succ ih
      tagged := Reads.tagged_succ ih
      enumerators := Reads.enumerators_succ ih
      recordBody := Reads.recordBody_succ ih
      fieldDecls := Reads.fieldDecls_succ ih
      fieldDeclarators := Reads.fieldDeclarators_succ ih
      declarator := Reads.declarator_succ ih
      suffixes := Reads.suffixes_succ ih
      params := Reads.params_succ ih
      paramList := Reads.paramList_succ ih }

end IncrementalC.Syntax
