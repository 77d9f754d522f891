import IncrementalC.Proofs.Analysis.Introduced
import IncrementalC.Proofs.Lowering.ModulesRun
import IncrementalC.Proofs.Machine.Present
import IncrementalC.Proofs.Session.Settled

/-!
# What is taken for defined exists

`Grown u m ts`: a unit without a handler has read texts one after the other and became `u`, those that it accepted were
committed and linked into one machine, which runs have turned into `m`, and `ts` are the groups of the accepted texts.
An accepted text accounts for what it defines: it is in the module of the text, or a body of a group hides it
(`GrowingUnit.parseNamed_accounts`). A rejected text leaves what was defined. So everything that the analysis takes for
defined is in the machine, unless a block-scope declaration defines it (`defined_exists`).
-/
namespace IncrementalC
set_option autoImplicit false

variable {η : Type} {d : Definition}

namespace GrowingUnit

variable {σ α β : Type} {u : GrowingUnit}

/-! ## Units without a handler -/

/-- No handler decides on unknown names, and nothing is left to run time. -/
structure Direct (u : GrowingUnit) : Prop where
  fallback : u.analysis.fallback = none
  enabled : u.deferred.enabled = false

theorem readable_direct : Readable Direct where
  sources _ _ _ h := ⟨h.fallback, h.enabled⟩
  analyze u t h := ⟨(u.analysis.analyze_fallback t).trans h.fallback, h.enabled⟩
  transform u _ _ h enabled := by
    rw [h.enabled] at enabled
    cases enabled
  synthesized _ h := ⟨h.fallback, h.enabled⟩
  nextId _ _ h := ⟨h.fallback, h.enabled⟩

/-! ## Groups -/

theorem analyzeGroup_ok {t : Syntax.TopLevel} {t' : Typed.TopLevel} {p p' : Progress σ}
    (enabled : p.unit.deferred.enabled = false) (h : (analyzeGroup t : Read σ Typed.TopLevel).run.run p = (.ok t', p')) :
    (p.unit.analysis.analyze t).1 = .ok t' ∧
      p' = { p with unit := { p.unit with analysis := (p.unit.analysis.analyze t).2 } } := by
  obtain ⟨_, _, read, h⟩ := read_bind_ok h
  cases read
  dsimp only at h
  obtain ⟨_, _, updated, h⟩ := read_bind_ok h
  cases updated
  cases result : (p.unit.analysis.analyze t).1 with
  | error es =>
    rw [result] at h
    cases h
  | ok group =>
    rw [result] at h
    dsimp only at h
    rw [if_pos (by rw [enabled]; rfl)] at h
    cases h
    exact ⟨rfl, rfl⟩

theorem consume_ok {t : Typed.TopLevel} {p p' : Progress CodeModule}
    (h : (consume .code t).run.run p = (.ok (), p')) :
    ∃ c, lower p.unit.analysis t p.seen = .ok c ∧ p' = { p with seen := c } := by
  obtain ⟨_, _, read, h⟩ := read_bind_ok h
  cases read
  cases code : lower p.unit.analysis t p.seen with
  | error e =>
    have step : Consumer.code.step p.unit.analysis t p.seen = .error (.lowering e) := by
      show (lower p.unit.analysis t p.seen).mapError CompileError.lowering = _
      rw [code]
      rfl
    rw [step] at h
    cases h
  | ok c =>
    have step : Consumer.code.step p.unit.analysis t p.seen = .ok c := by
      show (lower p.unit.analysis t p.seen).mapError CompileError.lowering = _
      rw [code]
      rfl
    rw [step] at h
    cases h
    exact ⟨c, rfl, rfl⟩

/-- Objects that were made up are lowered and handed out. -/
theorem consumeMadeUp_ok {span : Span} {p p' : Progress CodeModule}
    (h : (consumeMadeUp .code span).run.run p = (.ok (), p')) :
    p'.unit.analysis = { p.unit.analysis with synthesized := #[] } ∧ p'.groups = p.groups ∧
      lower p'.unit.analysis { group := { decls := p.unit.analysis.synthesized.toList, span } } p.seen = .ok p'.seen := by
  obtain ⟨_, _, read, h⟩ := read_bind_ok h
  cases read
  dsimp only at h
  split at h
  · obtain ⟨_, _, updated, h⟩ := read_bind_ok h
    cases updated
    obtain ⟨c, code, rfl⟩ := consume_ok h
    exact ⟨rfl, rfl, code⟩
  · rename_i empty
    cases h
    have none : p.unit.analysis.synthesized = #[] := by simpa using empty
    rw [none]
    refine ⟨?_, rfl, rfl⟩
    rw [← none]

/-- How the module grows with a group that is read, and what the unit is behind it. -/
structure GroupRead (p p' : Progress CodeModule) (t : Syntax.TopLevel) (t' : Typed.TopLevel) (c : CodeModule) : Prop where
  accepted : (p.unit.analysis.analyze t).1 = .ok t'
  madeUp : lower (p.unit.analysis.behind t) (p.unit.analysis.madeUpFor t t'.group.span) p.seen = .ok c
  code : lower (p.unit.analysis.behind t) t' c = .ok p'.seen
  analysis : p'.unit.analysis = p.unit.analysis.behind t
  groups : p'.groups = p.groups.push t'

theorem readGroup_ok {t : Syntax.TopLevel} {p p' : Progress CodeModule} (enabled : p.unit.deferred.enabled = false)
    (h : (readGroup .code t).run.run p = (.ok (), p')) : ∃ t' c, GroupRead p p' t t' c := by
  obtain ⟨t', p₁, analyzed, h⟩ := read_bind_ok h
  obtain ⟨accepted, rfl⟩ := analyzeGroup_ok enabled analyzed
  obtain ⟨_, p₂, madeUp, h⟩ := read_bind_ok h
  obtain ⟨analysis, groups, made⟩ := consumeMadeUp_ok madeUp
  obtain ⟨_, p₃, consumed, h⟩ := read_bind_ok h
  obtain ⟨c, code, rfl⟩ := consume_ok consumed
  cases h
  rw [analysis] at made code
  exact ⟨t', p₂.seen, accepted, made, code, analysis, congrArg (·.push t') groups⟩

/-- What is defined behind a part of a fragment was defined before it, or is in the module, or is hidden in a group. -/
structure Accounts (p p' : Progress CodeModule) : Prop where
  seen : ∀ d, p.seen.Has d → p'.seen.Has d
  groups : ∀ t ∈ p.groups, t ∈ p'.groups
  defined : ∀ d, p'.unit.analysis.Defines d →
    p.unit.analysis.Defines d ∨ p'.seen.Has d ∨ ∃ t ∈ p'.groups, t.Hides d

theorem Accounts.refl (p : Progress CodeModule) : Accounts p p := ⟨fun _ => id, fun _ => id, fun _ => .inl⟩

theorem Accounts.trans {p p' p'' : Progress CodeModule} (h : Accounts p p') (h' : Accounts p' p'') : Accounts p p'' := by
  refine ⟨fun d has => h'.seen d (h.seen d has), fun t mem => h'.groups t (h.groups t mem), fun d defined => ?_⟩
  rcases h'.defined d defined with before | new
  · rcases h.defined d before with before | has | ⟨t, mem, hides⟩
    · exact .inl before
    · exact .inr (.inl (h'.seen d has))
    · exact .inr (.inr ⟨t, h'.groups t mem, hides⟩)
  · exact .inr new

theorem readGroup_accounts {t : Syntax.TopLevel} {p p' : Progress CodeModule} (direct : p.unit.Direct)
    (h : (readGroup .code t).run.run p = (.ok (), p')) : Accounts p p' := by
  obtain ⟨t', c, read⟩ := readGroup_ok direct.enabled h
  have mem : t' ∈ p'.groups := read.groups ▸ Array.mem_push_self
  refine ⟨fun d has => lower_has read.code (.inl (lower_has read.madeUp (.inl has))), fun g mem => ?_, fun d defined => ?_⟩
  · rw [read.groups]
    exact Array.mem_push_of_mem t' mem
  · rw [read.analysis] at defined
    have defined : (p.unit.analysis.analyze t).2.Defines d := defined
    rcases Analysis.analyze_introduces direct.fallback read.accepted defined with before | exposes | hides
    · exact .inl before
    · exact .inr (.inl (lower_has read.code (.inr exposes)))
    · exact .inr (.inr ⟨t', mem, hides⟩)

/-! ## Fragments -/

theorem readGroups_accounts {count : Nat} {cursor cursor' : Syntax.Cursor} {p p' : Progress CodeModule}
    (direct : p.unit.Direct) (h : (readGroups .code count cursor).run.run p = (.ok cursor', p')) : Accounts p p' := by
  induction count generalizing cursor p with
  | zero =>
    cases h
    exact .refl _
  | succ count ih =>
    unfold readGroups at h
    split at h
    · cases h
    · cases h
      exact .refl _
    · rename_i t next _
      obtain ⟨_, p₁, group, h⟩ := read_bind_ok h
      have still : p₁.unit.Direct := by
        have after := Preserves.readGroup readable_direct Consumer.code t p direct
        rwa [group] at after
      exact (readGroup_accounts direct group).trans (ih still h)

/-- Reading tokens declares nothing. -/
theorem readTokens_ok {files : FileTree} {name text : String} {tokens : List Token} {p p' : Progress σ}
    (h : (readTokens files name text : Read σ (List Token)).run.run p = (.ok tokens, p')) :
    p'.unit.analysis = p.unit.analysis := by
  obtain ⟨_, _, read, h⟩ := read_bind_ok h
  cases read
  dsimp only at h
  obtain ⟨_, _, updated, h⟩ := read_bind_ok h
  cases updated
  split at h
  · cases h
    rfl
  · cases h

/-- The parts of the reading of a fragment that is accepted. -/
structure FragmentRead (u : GrowingUnit) (files : FileTree) (name text : String) (fragment : ParsedFragment) (v : GrowingUnit)
    (tokens : List Token) (cursor : Syntax.Cursor) (p p' : Progress CodeModule) : Prop where
  expanded : (readTokens files name text : Read CodeModule (List Token)).run.run { unit := u, seen := {} } = (.ok tokens, p)
  grouped : (readGroups .code (tokens.length + 1)
    (Syntax.Cursor.ofTokens tokens u.analysis.names.typeNames u.nextId)).run.run p = (.ok cursor, p')
  fragment : fragment.groups = p'.groups.toList
  unit : v.analysis = p'.unit.analysis

theorem parseNamed_ok {files : FileTree} {name text : String} {fragment : ParsedFragment} {c : CodeModule} {v : GrowingUnit}
    (h : u.parseNamed files name text .code {} = ((.ok fragment, c), v)) :
    ∃ tokens cursor p p', FragmentRead u files name text fragment v tokens cursor p p' ∧ c = p'.seen := by
  unfold parseNamed at h
  cases run : (readFragment files name text .code).run.run { unit := u, seen := {} } with
  | mk result p =>
    have same : (readFragment files name text .code).run { unit := u, seen := {} } = (result, p) := run
    rw [same] at h
    cases result with
    | error r => cases h
    | ok f =>
      cases h
      unfold readFragment at run
      obtain ⟨_, _, read, run⟩ := read_bind_ok run
      cases read
      dsimp only at run
      obtain ⟨tokens, p₁, tokensRead, run⟩ := read_bind_ok run
      obtain ⟨cursor, p₂, groupsRead, run⟩ := read_bind_ok run
      obtain ⟨_, _, updated, run⟩ := read_bind_ok run
      cases updated
      cases run
      exact ⟨tokens, cursor, p₁, p₂, ⟨tokensRead, groupsRead, rfl, rfl⟩, rfl⟩

/-- What a unit has before a fragment is read and reading does not take away is there when the groups are read. -/
theorem FragmentRead.readable {P : GrowingUnit → Prop} (readable : Readable P) {files : FileTree} {name text : String}
    {fragment : ParsedFragment} {v : GrowingUnit} {tokens : List Token} {cursor : Syntax.Cursor} {p p' : Progress CodeModule}
    (h : FragmentRead u files name text fragment v tokens cursor p p') (before : P u) : P p.unit := by
  have after := Preserves.readTokens readable files name text ({ unit := u, seen := {} } : Progress CodeModule) before
  rwa [h.expanded] at after

/-- All that is defined behind an accepted fragment was defined before it, or is in its module, or is hidden in one of its
groups. -/
theorem parseNamed_accounts {files : FileTree} {name text : String} {fragment : ParsedFragment} {c : CodeModule}
    {v : GrowingUnit} (direct : u.Direct) (h : u.parseNamed files name text .code {} = ((.ok fragment, c), v))
    (defined : v.analysis.Defines d) :
    u.analysis.Defines d ∨ c.Has d ∨ ∃ t ∈ fragment.groups, t.Hides d := by
  obtain ⟨tokens, cursor, p, p', read, rfl⟩ := parseNamed_ok h
  rw [read.unit] at defined
  have account := (readGroups_accounts (read.readable readable_direct direct) read.grouped).defined d defined
  rw [readTokens_ok read.expanded] at account
  refine account.imp_right fun new => new.imp_right fun ⟨t, mem, hides⟩ => ⟨t, ?_, hides⟩
  rw [read.fragment]
  exact Array.mem_toList_iff.mpr mem

theorem Direct.parseNamed (h : u.Direct) (files : FileTree) (name text : String) (c : Consumer σ) (start : σ) :
    (u.parseNamed files name text c start).2.Direct := by
  obtain ⟨v, direct, after⟩ := parseNamed_cases readable_direct u files name text c start h
  split at after
  · exact after ▸ ⟨direct.fallback, direct.enabled⟩
  · exact after ▸ ⟨direct.fallback, direct.enabled⟩

/-- A rejected fragment leaves what was defined. -/
theorem Settled.defines_rejected (h : u.Settled) {files : FileTree} {name text : String} {c : Consumer σ} {start : σ}
    {r : Rejection} (rejected : (u.parseNamed files name text c start).1.1 = .error r) :
    (u.parseNamed files name text c start).2.Settled ∧
      ∀ d, (u.parseNamed files name text c start).2.analysis.Defines d ↔ u.analysis.Defines d := by
  have clean := h.holds.clean_rejected files name text c start rejected
  refine ⟨clean.settled, fun d => ?_⟩
  unfold Analysis.Defines
  simp only [clean.names.globals]
  rfl

/-! ## Sessions -/

/-- What comes of reading a text for its code, with or without a name of its own. -/
inductive Reads (u : GrowingUnit) (r : Except Rejection ParsedFragment) (c : CodeModule) (v : GrowingUnit) : Prop where
  | parse {files : FileTree} {text : String} (read : u.parse files text .code {} = ((r, c), v))
  | parseNamed {files : FileTree} {name text : String} (read : u.parseNamed files name text .code {} = ((r, c), v))

theorem Reads.of_outcome {files : FileTree} {text : String} {p : (Except Rejection ParsedFragment × CodeModule) × GrowingUnit}
    (read : u.parse files text .code {} = p) {r : Except Rejection ParsedFragment} (outcome : p.1.1 = r) :
    u.Reads r p.1.2 p.2 := by
  subst outcome
  exact .parse read

/-- A text with a number for a name is one with a name, read by a unit that counts on. -/
theorem Reads.named {r : Except Rejection ParsedFragment} {c : CodeModule} {v : GrowingUnit} (h : u.Reads r c v) :
    ∃ (counted : GrowingUnit) (files : FileTree) (name text : String), counted.analysis = u.analysis ∧
      counted.deferred = u.deferred ∧ counted.stagedIncludes = u.stagedIncludes ∧
      counted.parseNamed files name text .code {} = ((r, c), v) := by
  cases h with
  | parse read => exact ⟨{ u with inputCount := u.inputCount + 1 }, _, u.nextName, _, rfl, rfl, rfl, read⟩
  | parseNamed read => exact ⟨u, _, _, _, rfl, rfl, rfl, read⟩

end GrowingUnit

/-- Texts that a unit without a handler reads one after the other. Those that it accepts are committed and linked into one
machine, on which functions run in between. The list has the groups of the accepted texts. -/
inductive Grown : GrowingUnit → Machine → List Typed.TopLevel → Prop where
  | start (m : Machine) : Grown {} m []
  | accepted {u v : GrowingUnit} {m m' : Machine} {ts : List Typed.TopLevel} {fragment : ParsedFragment} {c : CodeModule}
      {names : List String} (before : Grown u m ts) (read : u.Reads (.ok fragment) c v) (linked : Machine.link c m = .ok names m') :
      Grown v.commit m' (ts ++ fragment.groups)
  | rejected {u v : GrowingUnit} {m : Machine} {ts : List Typed.TopLevel} {r : Rejection} {c : CodeModule}
      (before : Grown u m ts) (read : u.Reads (.error r) c v) : Grown v m ts
  | hooks {u : GrowingUnit} {m : Machine} {ts : List Typed.TopLevel} (before : Grown u m ts) : Grown u.installHooks m ts
  | includePath {u : GrowingUnit} {m : Machine} {ts : List Typed.TopLevel} (before : Grown u m ts) (path : String) :
      Grown (u.addIncludePath path) m ts
  | call {u : GrowingUnit} {ts : List Typed.TopLevel} {η : Type} {host : Option (Host η)} {w : World η}
      (before : Grown u w.machine ts) (tidy : ∀ x, host = some x → x.Tidy) (name : String) (args : List Value) :
      Grown u (finalState (Exec.call host name args w)).machine ts
  | adjust {u : GrowingUnit} {m m' : Machine} {ts : List Typed.TopLevel} (before : Grown u m ts)
      (functions : m'.functions = m.functions) (objects : m'.objects = m.objects) : Grown u m' ts

/-- No handler is there, nothing is staged, and what is defined exists unless a group hides it. -/
structure Grown.Exist (u : GrowingUnit) (m : Machine) (ts : List Typed.TopLevel) : Prop where
  direct : u.Direct
  settled : u.Settled
  exist : ∀ d, u.analysis.Defines d → (∀ t ∈ ts, ¬t.Hides d) → m.Has d

namespace Grown

variable {u v : GrowingUnit} {m m' : Machine} {ts : List Typed.TopLevel} {c : CodeModule}

theorem Exist.accepted {fragment : ParsedFragment} {names : List String} (h : Exist u m ts)
    (read : u.Reads (.ok fragment) c v) (linked : Machine.link c m = .ok names m') :
    Exist v.commit m' (ts ++ fragment.groups) := by
  obtain ⟨counted, files, name, text, analysis, deferred, -, read⟩ := read.named
  have direct : counted.Direct := ⟨analysis ▸ h.direct.fallback, deferred ▸ h.direct.enabled⟩
  have after := direct.parseNamed files name text .code {}
  rw [read] at after
  refine ⟨⟨after.fallback, after.enabled⟩, v.settled_commit, fun d defined shown => ?_⟩
  rcases GrowingUnit.parseNamed_accounts direct read defined with before | has | ⟨t, mem, hides⟩
  · rw [analysis] at before
    exact Machine.link_has linked (.inr (h.exist d before fun t mem => shown t (List.mem_append_left _ mem)))
  · exact Machine.link_has linked (.inl has)
  · exact absurd hides (shown t (List.mem_append_right _ mem))

theorem Exist.rejected {r : Rejection} (h : Exist u m ts) (read : u.Reads (.error r) c v) :
    Exist v m ts ∧ ∀ d, v.analysis.Defines d ↔ u.analysis.Defines d := by
  obtain ⟨counted, files, name, text, analysis, deferred, includes, read⟩ := read.named
  have direct : counted.Direct := ⟨analysis ▸ h.direct.fallback, deferred ▸ h.direct.enabled⟩
  have settled : counted.Settled := ⟨analysis ▸ h.settled.names, includes.trans h.settled.includes⟩
  have after := direct.parseNamed files name text .code {}
  have refused : (counted.parseNamed files name text .code {}).1.1 = .error r := by rw [read]
  obtain ⟨kept, same⟩ := settled.defines_rejected refused
  rw [read] at after kept same
  rw [analysis] at same
  exact ⟨⟨after, kept, fun d defined => h.exist d ((same d).mp defined)⟩, same⟩

theorem exist (h : Grown u m ts) : Exist u m ts := by
  induction h with
  | start m =>
    refine ⟨⟨rfl, rfl⟩, ⟨rfl, rfl⟩, fun d ⟨name, s, found, _⟩ => ?_⟩
    cases found
  | accepted _ read linked ih => exact ih.accepted read linked
  | rejected _ read ih => exact (ih.rejected read).1
  | hooks _ ih => exact ⟨⟨ih.direct.fallback, ih.direct.enabled⟩, ⟨ih.settled.names, ih.settled.includes⟩, ih.exist⟩
  | includePath _ path ih =>
    unfold GrowingUnit.addIncludePath
    split
    · exact ih
    · exact ⟨⟨ih.direct.fallback, ih.direct.enabled⟩, ⟨ih.settled.names, ih.settled.includes⟩, ih.exist⟩
  | call _ tidy name args ih =>
    exact ⟨ih.direct, ih.settled, fun d defined shown => (Exec.call_present tidy name args (ih.exist d defined shown)).1⟩
  | adjust _ functions objects ih =>
    exact ⟨ih.direct, ih.settled, fun d defined shown => Machine.has_congr functions objects (ih.exist d defined shown)⟩

end Grown

/-- Whatever was read, what the analysis takes for defined is in the machine, an object unless a body hides it. No run fails
for want of it, and a text that is refused leaves it defined. -/
theorem defined_exists {u : GrowingUnit} {m : Machine} {ts : List Typed.TopLevel} (grown : Grown u m ts) {d : Definition}
    (defined : u.analysis.Defines d) (shown : ∀ link, d = .object link → ∀ t ∈ ts, ¬t.Hides d) :
    m.Has d ∧
      (∀ (η : Type) (host : Option (Host η)) (w : World η), (∀ x, host = some x → x.Tidy) → w.machine = m →
        ∀ name args e w', Exec.call host name args w = .error e w' → e.fault.missing? ≠ some d) ∧
      ∀ r c v, u.Reads (.error r) c v → v.analysis.Defines d := by
  have shown (t : Typed.TopLevel) (mem : t ∈ ts) : ¬t.Hides d := by
    cases d with
    | object link => exact shown link rfl t mem
    | function name => exact t.not_hides_function name
  have has := grown.exist.exist d defined shown
  refine ⟨has, fun η host w tidy same name args => ?_, fun r c v read => ?_⟩
  · exact (Exec.call_present tidy name args (same ▸ has)).2
  · exact ((grown.exist.rejected read).2 d).mpr defined

/-- The body is a single return, or there is none. -/
def Typed.TopLevel.onlyReturns (t : Typed.TopLevel) : Bool :=
  match t.body with
  | none | some (.compound _ [.return _ _]) => true
  | _ => false

theorem Typed.TopLevel.not_hides_of_onlyReturns {t : Typed.TopLevel} {d : Definition} (h : t.onlyReturns) : ¬t.Hides d := by
  rintro ⟨body, given, introduces⟩
  unfold onlyReturns at h
  split at h
  · rename_i none
    cases none.symm.trans given
  · rename_i single
    cases single.symm.trans given
    exact introduces ⟨fun _ _ => trivial, trivial⟩
  · cases h

/-- An object whose definition comes behind a function that uses it, and a second definition that is refused. -/
theorem late_object_exists :
    let first := ({} : GrowingUnit).parse {} "extern int n; int get() \x7b return n; \x7d" .code {}
    let second := first.2.commit.parse {} "int n = 2;" .code {}
    let third := second.2.commit.parse {} "int n = 3;" .code {}
    let m := finalState (Machine.link second.1.2 (finalState (Machine.link first.1.2 {})))
    ∃ ts, Grown second.2.commit m ts ∧ second.2.commit.analysis.Defines (.object "n") ∧
      (∀ t ∈ ts, ¬t.Hides (.object "n")) ∧ m.Has (.object "n") ∧
        (∀ args e w', Exec.call none "get" args (⟨m, ()⟩ : World Unit) = .error e w' →
          e.fault.missing? ≠ some (.object "n")) ∧
        third.1.1.toOption.isNone ∧ third.2.analysis.Defines (.object "n") := by
  intro first second third m
  have outcome : (do
      let f₁ ← first.1.1.toOption
      let f₂ ← second.1.1.toOption
      let _ ← given? (Machine.link first.1.2 {})
      let _ ← given? (Machine.link second.1.2 (finalState (Machine.link first.1.2 {})))
      let symbol ← second.2.commit.analysis.names.globals.get? "n"
      return ((f₁.groups ++ f₂.groups).all (·.onlyReturns), third.1.1.toOption.isNone, symbol) : Option _) =
      some (true, true, .var .signedInt "n" true) := by
    decide +kernel
  simp only [Option.bind_eq_bind, Option.bind_eq_some_iff] at outcome
  obtain ⟨f₁, accepted₁, f₂, accepted₂, ⟨inits₁, m₁⟩, linked₁, ⟨inits₂, m₂⟩, linked₂, symbol, found, outcome⟩ := outcome
  have linked₁ := given?_eq_some linked₁
  have linked₂ := given?_eq_some linked₂
  simp only [Option.pure_def, Option.some.injEq, Prod.mk.injEq, List.all_eq_true] at outcome
  obtain ⟨bodies, refused, rfl⟩ := outcome
  have grown₁ : Grown first.2.commit (finalState (Machine.link first.1.2 {})) f₁.groups := by
    rw [linked₁]
    exact .accepted (.start {}) (.of_outcome (p := first) rfl (Syntax.toOption_eq_some accepted₁)) linked₁
  have grown₂ : Grown second.2.commit m (f₁.groups ++ f₂.groups) := by
    have same : m = finalState (EStateM.Result.ok _ _) := congrArg finalState linked₂
    rw [same]
    exact .accepted grown₁ (.of_outcome (p := second) rfl (Syntax.toOption_eq_some accepted₂)) linked₂
  have defined : second.2.commit.analysis.Defines (.object "n") := ⟨"n", _, found, _, rfl⟩
  have shown (t : Typed.TopLevel) (mem : t ∈ f₁.groups ++ f₂.groups) : ¬t.Hides (.object "n") :=
    Typed.TopLevel.not_hides_of_onlyReturns (bodies t mem)
  obtain ⟨has, runs, refusals⟩ := defined_exists grown₂ defined fun _ _ => shown
  refine ⟨_, grown₂, defined, shown, has, fun args => ?_, refused, ?_⟩
  · exact runs Unit none ⟨m, ()⟩ (by rintro x ⟨⟩) rfl "get" args
  · cases result : third.1.1 with
    | ok f₃ =>
      rw [result] at refused
      cases refused
    | error r => exact refusals r _ _ (.of_outcome (p := third) rfl result)

/-- An object that a block-scope declaration defines is taken for defined, but is nowhere. -/
theorem hidden_object_missing :
    let read := ({} : GrowingUnit).parse {} "int f() \x7b extern int y = 5; return y; \x7d" .code {}
    let m := finalState (Machine.link read.1.2 {})
    ∃ ts, Grown read.2.commit m ts ∧ read.2.commit.analysis.Defines (.object "y") ∧ ¬m.Has (.object "y") ∧
      (match Exec.call none "f" [] (⟨m, ()⟩ : World Unit) with
        | .error e _ => some e.fault
        | .ok .. => none) = some (.undefinedSymbol "y") := by
  intro read m
  have outcome : (do
      let f ← read.1.1.toOption
      let _ ← given? (Machine.link read.1.2 {})
      read.2.commit.analysis.names.globals.get? "y" : Option _) = some (.var .signedInt "y" true) := by
    decide +kernel
  simp only [Option.bind_eq_bind, Option.bind_eq_some_iff] at outcome
  obtain ⟨f, accepted, ⟨inits, n⟩, linked, found⟩ := outcome
  have linked := given?_eq_some linked
  have grown : Grown read.2.commit m f.groups := by
    have same : m = finalState (EStateM.Result.ok _ _) := congrArg finalState linked
    rw [same]
    exact .accepted (.start {}) (.of_outcome (p := read) rfl (Syntax.toOption_eq_some accepted)) linked
  have missing : m.objects.contains "y" = false := by decide +kernel
  refine ⟨_, grown, ⟨"y", _, found, _, rfl⟩, fun has => ?_, by decide +kernel⟩
  exact Bool.noConfusion (missing.symm.trans has)

end IncrementalC
