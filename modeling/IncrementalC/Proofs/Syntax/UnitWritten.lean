import IncrementalC.Proofs.Syntax.ExpressionWritten
import IncrementalC.Syntax.Unit

/-!
# Parsed groups are written

`topLevel?_reads`: from written tokens the parser reads a written group and leaves the last of the tokens. A group with a
body takes a closing brace of them.
-/
namespace IncrementalC.Syntax
set_option autoImplicit false

/-- A group, or the head of a function with its body missing. -/
def GroupOrHead.Written : GroupOrHead → Prop
  | .group g | .head _ g => g.Written

namespace Reads

/-! ## Initial values -/

theorem initializers_step (depth : Nat) :
    Reads (initializer depth) WrittenInit ∧ Reads (initializers depth) WrittenInits := by
  induction depth with
  | zero => exact ⟨tooDeep, tooDeep⟩
  | succ depth ih =>
    constructor
    · refine bind (isAtPunct _) fun _ _ => ite (fun _ => ?_) fun _ => ?_
      · refine bind here fun _ _ => bind advance fun _ _ => bind ih.2 fun items hitems => ?_
        exact bind (expect _) fun _ _ => pure hitems
      · exact bind (rules depth).assignment fun e he => pure he
    · refine bind (isAtPunct _) fun _ _ => ite (fun _ => pure trivial) fun _ => ?_
      refine bind ih.1 fun i hi => bind (eat _) fun _ _ => ite (fun _ => ?_) fun _ => pure ⟨hi, trivial⟩
      exact bind ih.2 fun is his => pure ⟨hi, his⟩

theorem mem_of_writtenExprs {es : List Expr} (h : WrittenExprs es) : ∀ e ∈ es, e.Written := by
  induction es with
  | nil => exact fun _ he => by cases he
  | cons e es ih =>
    intro e' he'
    cases he' with
    | head => exact h.1
    | tail _ he' => exact ih h.2 e' he'

theorem initialValue? (depth : Nat) :
    Reads (initialValue? depth) fun init => ∀ i, init = some i → WrittenInit i := by
  refine bind (eat _) fun _ _ => ite (fun _ => ?_) fun _ => ?_
  · refine bind (initializers_step depth).1 fun i hi => pure fun i' hi' => ?_
    cases hi'
    exact hi
  · refine bind (isAtPunct _) fun _ _ => ite (fun _ => ?_) fun _ => pure nofun
    refine bind here fun _ _ => bind advance fun _ _ => bind (rules depth).arguments fun args hargs => ?_
    refine bind (expect _) fun _ _ => pure fun i hi => ?_
    cases hi
    exact mem_of_writtenExprs hargs

/-! ## Declarations -/

theorem name_written {d : Declarator} {name : String} (hd : d.Written) (h : d.name = some name) :
    IsWord name := by
  cases d
  exact hd.1 name h

theorem plainDecl (depth : Nat) {spec : DeclSpec} {name : String} {d : Declarator}
    (hname : IsWord name) (hd : d.Written) :
    Reads (plainDecl depth spec name d) DeclKind.Written := by
  refine ite (fun _ => bind (addTypeName _) fun _ _ => pure ⟨hname, hd⟩) fun _ => ?_
  refine ite (fun _ => pure ⟨hname, hd⟩) fun _ => ?_
  exact bind (initialValue? depth) fun init hinit => pure ⟨hname, hd, hinit⟩

theorem declarators (atTop : Bool) (start : Span) {spec : DeclSpec} (hspec : spec.Written)
    (depth : Nat) (first : Bool) {before : List Decl} (hbefore : ∀ d ∈ before, d.Written) :
    Reads (declarators atTop start spec depth first before) GroupOrHead.Written := by
  induction depth generalizing first before with
  | zero => exact tooDeep
  | succ depth ih =>
    refine bind ((rules depth).declarator false) fun d hd => ?_
    have hname : IsWord (d.name.getD "") := by
      obtain ⟨name, hname⟩ := Option.isSome_iff_exists.mp (hd.2 rfl)
      rw [hname]
      exact name_written hd.1 hname
    have consed (k : DeclKind) (hk : k.Written) (span : Span) :
        ∀ d' ∈ (⟨k, span⟩ : Decl) :: before, d'.Written := by
      intro d' hd'
      cases hd' with
      | head => exact hk
      | tail _ hd' => exact hbefore d' hd'
    have rest : Reads (do
        let kind ← Syntax.plainDecl depth spec (d.name.getD "") d
        let decls := ⟨kind, (if first then start else d.span).merge (← Parser.prev)⟩ :: before
        if ← Parser.eat .comma then Syntax.declarators atTop start spec depth false decls
        else
          let _ ← Parser.expect .semi
          return .group { spec, decls := decls.reverse, span := start.merge (← Parser.prev) })
        GroupOrHead.Written := by
      refine bind (plainDecl depth hname hd.1) fun kind hkind => bind prev fun _ _ => ?_
      refine bind (eat _) fun _ _ => ite (fun _ => ih false (consed kind hkind _)) fun _ => ?_
      refine bind (expect _) fun _ _ => bind prev fun _ _ => pure ⟨hspec, fun d' hd' => ?_⟩
      exact consed kind hkind _ d' (List.mem_reverse.mp hd')
    have head : Reads (do
        if !atTop then MonadExcept.throw (.nestedFunction (d.name.getD "") d.span)
        if !first || spec.storage = .typedef then Parser.unexpected (.punct .semi)
        let head : Decl := ⟨.function (d.name.getD "") d spec.externC, if first then start else d.span⟩
        return GroupOrHead.head start { spec, decls := (head :: before).reverse, span := start })
        GroupOrHead.Written := by
      refine ite (fun _ => throw_bind _ _) fun _ => ite (fun _ => unexpected_bind _ _) fun _ => ?_
      exact pure ⟨hspec, fun d' hd' => consed (.function ..) ⟨hname, hd.1⟩ _ d' (List.mem_reverse.mp hd')⟩
    exact bind (isAtPunct _) fun _ _ => ite (fun _ => head) fun _ => rest

theorem groupOrHead (atTop : Bool) (depth : Nat) :
    Reads (groupOrHead atTop depth) GroupOrHead.Written := by
  refine bind here fun start _ => bind (rules depth).declSpec fun r hr => ?_
  refine bind (eat _) fun _ _ => ite (fun _ => ?_) fun _ => ?_
  · split
    · exact throw _
    · rename_i d found
      refine bind prev fun _ _ => pure ⟨hr.1, fun d' hd' => ?_⟩
      rw [List.mem_singleton.mp hd']
      exact hr.2 d found
  · refine declarators atTop start hr.1 depth true fun d hd => ?_
    exact hr.2 d (Option.mem_toList.mp hd)

theorem localGroup (depth : Nat) : Reads (localGroup depth) DeclGroup.Written := by
  refine bind (groupOrHead false depth) fun r hr => ?_
  cases r with
  | group g => exact pure hr
  | head _ g => exact pure hr

/-! ## Statements -/

theorem node (start : Span) : Reads (Parser.node start) fun _ => True :=
  bind prev fun _ _ => bind freshId fun _ _ => pure trivial

theorem forInit (depth : Nat) : Reads (forInit depth) WrittenForInit := by
  refine bind (eat _) fun _ _ => ite (fun _ => pure trivial) fun _ => bind get fun _ _ => ?_
  refine ite (fun _ => ?_) fun _ => ?_
  · exact bind (localGroup depth) fun g hg => bind freshId fun _ _ => pure hg
  · refine bind (rules depth).expr fun e he => bind (expect _) fun _ _ => bind prev fun _ _ => ?_
    exact bind freshId fun _ _ => pure he

theorem exprUnless (p : Punct) (depth : Nat) :
    Reads (exprUnless p depth) fun e? => ∀ e, e? = some e → e.Written := by
  refine bind (isAtPunct p) fun _ _ => ite (fun _ => pure nofun) fun _ => ?_
  exact bind (rules depth).expr fun e he => pure fun e' he' => Option.some.inj he' ▸ he

theorem condition (depth : Nat) : Reads (condition depth) Expr.Written :=
  bind (expect _) fun _ _ => bind (rules depth).expr fun _ he => bind (expect _) fun _ _ => pure he

/-- What the rules for statements read at one bound on the depth. -/
structure StmtRules (depth : Nat) : Prop where
  block : Reads (block depth) WrittenStmt
  stmts : Reads (stmts depth) WrittenStmts
  stmt : Reads (stmt depth) WrittenStmt

variable {depth : Nat}

theorem block_succ (ih : StmtRules depth) : Reads (block (depth + 1)) WrittenStmt :=
  bind (expect _) fun _ _ => bind ih.stmts fun _ hss => bind (expect _) fun _ _ =>
    bind freshId fun _ _ => pure hss

theorem stmts_succ (ih : StmtRules depth) : Reads (stmts (depth + 1)) WrittenStmts := by
  refine bind kind fun k _ => ?_
  split
  · exact pure trivial
  · exact unexpected _
  · exact bind ih.stmt fun s hs => bind ih.stmts fun ss hss => pure ⟨hs, hss⟩

theorem stmt_succ (ih : StmtRules depth) : Reads (stmt (depth + 1)) WrittenStmt := by
  refine bind here fun start _ => bind kind fun k _ => ?_
  split
  · exact ih.block
  iterate 2
    · exact bind advance fun _ _ => bind (node _) fun _ _ => pure trivial
  · refine bind advance fun _ _ => bind (condition _) fun c hc => bind ih.stmt fun yes hyes => ?_
    refine bind kind fun _ _ => ite (fun _ => ?_) fun _ => ?_
    · refine bind advance fun _ _ => bind ih.stmt fun no hno => bind (node _) fun _ _ => ?_
      exact pure ⟨hc, hyes, hno⟩
    · exact bind (node _) fun _ _ => pure ⟨hc, hyes⟩
  · refine bind advance fun _ _ => bind (condition _) fun c hc => bind ih.stmt fun body hbody => ?_
    exact bind (node _) fun _ _ => pure ⟨hc, hbody⟩
  · refine bind advance fun _ _ => bind ih.stmt fun body hbody => bind (expectKeyword _) fun _ _ => ?_
    refine bind (condition _) fun c hc => bind (expect _) fun _ _ => bind (node _) fun _ _ => ?_
    exact pure ⟨hc, hbody⟩
  · refine bind advance fun _ _ => bind (expect _) fun _ _ => bind (forInit _) fun init hinit => ?_
    refine bind (exprUnless _ _) fun c hc => bind (expect _) fun _ _ => ?_
    refine bind (exprUnless _ _) fun step hstep => bind (expect _) fun _ _ => ?_
    refine bind ih.stmt fun body hbody => bind (node _) fun _ _ => pure ⟨hinit, hc, hstep, hbody⟩
  iterate 2
    · exact bind advance fun _ _ => bind (expect _) fun _ _ => bind (node _) fun _ _ => pure trivial
  · refine bind advance fun _ _ => bind (exprUnless _ _) fun value hvalue => ?_
    exact bind (expect _) fun _ _ => bind (node _) fun _ _ => pure hvalue
  iterate 5
    · exact throw _
  · refine bind get fun c _ => ite (fun _ => ?_) fun _ => ?_
    · exact bind (localGroup _) fun g hg => bind (node _) fun _ _ => pure hg
    · refine bind (rules depth).expr fun e he => bind (expect _) fun _ _ => ?_
      exact bind (node _) fun _ _ => pure he

theorem stmtRules (depth : Nat) : StmtRules depth := by
  induction depth with
  | zero => constructor <;> exact tooDeep
  | succ depth ih => exact ⟨block_succ ih, stmts_succ ih, stmt_succ ih⟩

end Reads

/-! ## Top level -/

theorem DeclGroup.markExternC_written {g : DeclGroup} (hg : g.Written) : g.markExternC.Written := by
  refine ⟨hg.spec, fun d hd => ?_⟩
  obtain ⟨d', hd', rfl⟩ := List.mem_map.mp hd
  have hwritten := hg.decls d' hd'
  split
  · rename_i name declarator _ hkind
    unfold Decl.Written at hwritten
    rw [hkind] at hwritten
    exact hwritten
  · exact hwritten

theorem DeclGroup.withBody_written {g : DeclGroup} (hg : g.Written) (start bodySpan : Span) :
    (g.withBody start bodySpan).Written := by
  refine ⟨hg.spec, fun d hd => ?_⟩
  have hd : d ∈ g.decls.modify (g.decls.length - 1) fun d => { d with span := d.span.merge bodySpan } :=
    hd
  obtain ⟨i, hi, rfl⟩ := List.getElem_of_mem hd
  rw [List.length_modify] at hi
  have hwritten := hg.decls g.decls[i] (List.getElem_mem hi)
  rw [List.getElem_modify]
  split <;> exact hwritten

theorem Cursor.skipMarks_suffix {c c' : Cursor} {b : Bool} {n : Nat} (h : c.skipMarks n = .ok (c', b)) :
    c'.rest <:+ c.rest := by
  induction n generalizing c with
  | zero => cases h
  | succ n ih =>
    unfold Cursor.skipMarks at h
    split at h
    · split at h
      · cases h
      · cases h
        exact List.suffix_rfl
    · exact (ih h).trans c.advance_suffix
    · exact (ih h).trans c.advance_suffix
    · cases h
    · split at h
      · exact (ih h).trans c.advance_suffix
      · cases h
        exact List.suffix_rfl
    · split at h
      · have third := c.advance.advance.advance_suffix.trans (c.advance.advance_suffix.trans c.advance_suffix)
        exact (ih h).trans third
      · cases h
        exact List.suffix_rfl
    · cases h
      exact List.suffix_rfl

/-- The last token of a block is a closing brace. -/
theorem block_closes {c c' : Cursor} {s : Stmt} {depth : Nat} (hc : c.Written) (h : block depth c = .ok (s, c')) :
    ∃ t : Token, t.kind = .punct .rbrace ∧ t :: c'.rest <:+ c.rest := by
  cases depth with
  | zero => cases h
  | succ depth =>
    obtain ⟨⟨_, c₁⟩, opens, h⟩ := Lexer.bind_ok h
    obtain ⟨⟨ss, c₂⟩, inside, h⟩ := Lexer.bind_ok h
    obtain ⟨⟨_, c₃⟩, closes, h⟩ := Lexer.bind_ok h
    cases h
    obtain ⟨left, -, -⟩ := Reads.expect _ _ _ _ hc opens
    obtain ⟨left', -, -⟩ := (Reads.stmtRules depth).stmts _ _ _ (hc.of_suffix left) inside
    unfold Parser.expect at closes
    split at closes
    · rename_i brace
      cases closes
      obtain ⟨tokens, stop, prev, nextId, typeNames, openBlocks, unnamed⟩ := c₂
      cases tokens with
      | nil => cases brace
      | cons t rest => exact ⟨t, TokenKind.eq_of_isPunct brace, left'.trans left⟩
    · cases closes

/-- From written tokens the parser reads written groups, and leaves the last of the tokens. The body of a group ends with a
closing brace. -/
theorem topLevel?_reads {c c' : Cursor} {t? : Option TopLevel} (hc : c.Written) (h : topLevel? c = .ok (t?, c')) :
    c'.rest <:+ c.rest ∧ ∀ t, t? = some t → t.Written ∧
      (t.body.isSome → ∃ brace : Token, brace.kind = .punct .rbrace ∧ brace :: c'.rest <:+ c.rest) := by
  have mark {c₁ : Cursor} {g : DeclGroup} (hg : g.Written) :
      (if 0 < c₁.openBlocks then g.markExternC else g).Written := by
    split
    · exact DeclGroup.markExternC_written hg
    · exact hg
  unfold topLevel? at h
  dsimp only at h
  split at h
  · cases h
  · rename_i c₁ skipped
    cases h
    exact ⟨Cursor.skipMarks_suffix skipped, fun t ht => by cases ht⟩
  · rename_i c₁ skipped
    have left₁ := Cursor.skipMarks_suffix skipped
    have hc₁ := hc.of_suffix left₁
    split at h
    · cases h
    · rename_i g c₂ read
      obtain ⟨left₂, -, hg⟩ := Reads.groupOrHead _ _ _ _ _ hc₁ read
      cases h
      refine ⟨left₂.trans left₁, fun t ht => ?_⟩
      cases ht
      exact ⟨⟨mark hg, nofun⟩, nofun⟩
    · rename_i start g c₂ read
      obtain ⟨left₂, -, hg⟩ := Reads.groupOrHead _ _ _ _ _ hc₁ read
      have hc₂ := hc₁.of_suffix left₂
      split at h
      · rename_i body c₃ readBody
        obtain ⟨left₃, -, hbody⟩ := (Reads.stmtRules _).block _ _ _ hc₂ readBody
        obtain ⟨brace, closes, left⟩ := block_closes hc₂ readBody
        cases h
        refine ⟨left₃.trans (left₂.trans left₁), fun t ht => ?_⟩
        cases ht
        refine ⟨⟨mark (DeclGroup.withBody_written hg _ _), fun s hs => ?_⟩, fun _ => ⟨brace, closes, left.trans (left₂.trans left₁)⟩⟩
        cases hs
        exact hbody
      · cases h

theorem topLevel?_written {c c' : Cursor} {t? : Option TopLevel} (hc : c.Written)
    (h : topLevel? c = .ok (t?, c')) : c'.Written ∧ ∀ t, t? = some t → t.Written :=
  have ⟨left, groups⟩ := topLevel?_reads hc h
  ⟨hc.of_suffix left, fun t given => (groups t given).1⟩

/-- The first group of a text. -/
def groupOf? (text : String) : Option TopLevel :=
  match tokenize text 0 0 with
  | .error _ => none
  | .ok tokens =>
    match topLevel? (Cursor.ofTokens tokens.toList [] 0) with
    | .error _ => none
    | .ok (t?, _) => t?

theorem groupOf?_read {text : String} {t : TopLevel} (h : groupOf? text = some t) :
    ∃ c c', c.Written ∧ topLevel? c = .ok (some t, c') := by
  unfold groupOf? at h
  split at h
  · cases h
  · rename_i tokens lexed
    split at h
    · cases h
    · rename_i c' read
      rw [h] at read
      refine ⟨_, c', fun token hmem => ?_, read⟩
      exact tokenize_written lexed token (Array.mem_toList_iff.mp (List.mem_filter.mp hmem).1)

theorem groupOf?_written {text : String} {t : TopLevel} (h : groupOf? text = some t) : t.Written := by
  obtain ⟨c, c', written, read⟩ := groupOf?_read h
  exact (topLevel?_written written read).2 t rfl

/-- A step of the compiler that is known to succeed. -/
theorem toOption_eq_some {ε α : Type} {x : Except ε α} {y : α} (h : x.toOption = some y) :
    x = .ok y := by
  cases x <;> cases h
  rfl

end IncrementalC.Syntax
