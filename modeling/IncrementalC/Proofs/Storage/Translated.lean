import IncrementalC.Proofs.Lowering.ModulesRun
import IncrementalC.Proofs.Storage.LinkNames
import IncrementalC.Proofs.Unit.Defined
import IncrementalC.Proofs.Unit.Inclusion

/-!
# Translated units

`Translated a xs c`: groups were accepted one behind the other and lowered to the module `c`, the analysis stands at `a` behind
them, and `xs` are the objects that they define. The objects of the module are those, in this order
(`Translated.objects`), under the names that are due to them (`Translated.named`). The module of an accepted text comes about
in this way (`GrowingUnit.Reads.translated`).
-/
namespace IncrementalC
set_option autoImplicit false
open Typed (VarDecl Decl)

/-- An object that lasts, with the types that it was lowered with and the function that it is declared in, if any. -/
structure LastingObject where
  types : TypeTable
  owner : Option String
  decl : VarDecl

namespace LastingObject

def linkName (x : LastingObject) : String := x.decl.linkName

/-- The slots that are set aside for the object: those of its type, or one. -/
def slots (x : LastingObject) : Nat := x.types.stride x.decl.ty

end LastingObject

/-- The objects of a group that is lowered with the types. -/
def Typed.TopLevel.lasting (t : Typed.TopLevel) (types : TypeTable) : List LastingObject :=
  t.objects.map fun x => ⟨types, x.1, x.2⟩

/-- Groups that are accepted and lowered to one module, each behind the objects that were made up for it. -/
inductive Translated : Analysis → List LastingObject → CodeModule → Prop where
  | start {a : Analysis} (reached : a.Reached) (none : a.synthesized = #[]) : Translated a [] {}
  | group {a : Analysis} {xs : List LastingObject} {c c₁ c₂ : CodeModule} {t : Syntax.TopLevel} {t' : Typed.TopLevel} {span : Span}
      (before : Translated a xs c) (written : t.Written) (accepted : (a.analyze t).1 = .ok t')
      (madeUp : lower (a.behind t) (a.madeUpFor t span) c = .ok c₁) (code : lower (a.behind t) t' c₁ = .ok c₂) :
      Translated (a.behind t)
        (xs ++ (a.madeUpFor t span).lasting (a.behind t).types ++ t'.lasting (a.behind t).types) c₂

namespace Translated

variable {a : Analysis} {xs : List LastingObject} {c : CodeModule}

theorem reached (h : Translated a xs c) : a.Reached ∧ a.synthesized = #[] := by
  induction h with
  | start reached none => exact ⟨reached, none⟩
  | group _ written accepted _ _ ih => exact ⟨(ih.1.accepted written accepted).handedOut #[], rfl⟩

/-- The object of the module for an object of the unit. -/
def Placed (c : CodeModule) (x : LastingObject) (o : CodeGlobal) : Prop := c.ObjectOf x.types x.decl o

theorem placed_lasting {t : Typed.TopLevel} {types : TypeTable} {os : List CodeGlobal}
    (h : List.Forall₂ (c.ObjectOf types) (t.objects.map (·.2)) os) : List.Forall₂ (Placed c) (t.lasting types) os := by
  unfold Typed.TopLevel.lasting
  rw [List.forall₂_map_left_iff] at h ⊢
  exact h

/-- The objects of the module are those of the unit, in their order. -/
theorem objects (h : Translated a xs c) : List.Forall₂ (Placed c) xs c.globals.toList := by
  induction h with
  | start _ _ => exact .nil
  | @group a xs c c₁ c₂ t t' span _ _ _ madeUp code ih =>
    obtain ⟨keeps, os, first, placed⟩ := lower_objects madeUp
    obtain ⟨keeps', os', second, placed'⟩ := lower_objects code
    have old : List.Forall₂ (Placed c₂) xs c.globals.toList :=
      ih.imp fun _ _ object => (object.mono keeps).mono keeps'
    have new : List.Forall₂ (Placed c₂) ((a.madeUpFor t span).lasting (a.behind t).types) os :=
      placed_lasting (placed.imp fun _ _ object => object.mono keeps')
    rw [second, first]
    exact List.rel_append (List.rel_append old new) (placed_lasting placed')

theorem named_lasting {t : Typed.TopLevel} (named : t.Named) (types : TypeTable) :
    ∀ x ∈ t.lasting types, x.linkName = linkNameIn x.owner x.decl.name ∧ (x.owner.isSome → x.decl.constantInit.isSome) := by
  intro x mem
  obtain ⟨y, listed, rfl⟩ := List.mem_map.mp mem
  exact named y listed

/-- Every object of the unit is linked under the name that is due to it, and a static object has an image. -/
theorem named (h : Translated a xs c) :
    ∀ x ∈ xs, x.linkName = linkNameIn x.owner x.decl.name ∧ (x.owner.isSome → x.decl.constantInit.isSome) := by
  induction h with
  | start _ _ => exact nofun
  | @group a xs c c₁ c₂ t t' span before written accepted _ _ ih =>
    obtain ⟨reached, none⟩ := before.reached
    have madeUp : (a.madeUpFor t span).Named := by
      refine Typed.TopLevel.named_of_parts (fun d mem v known => ?_) nofun
      obtain ⟨name, ty, value, kind⟩ := Analysis.analyze_madeUp none t d (Array.mem_toList_iff.mp mem)
      rw [kind] at known
      cases known
      exact ⟨fun _ => rfl, fun inner => absurd rfl inner, nofun⟩
    have group : t'.Named := Analysis.analyze_linkNames reached written accepted
    intro x mem
    rcases List.mem_append.mp mem with mem | mem
    · rcases List.mem_append.mp mem with mem | mem
      · exact ih x mem
      · exact named_lasting madeUp _ x mem
    · exact named_lasting group _ x mem

/-- A group for which nothing was made up is a unit of its own. -/
theorem single {t : Syntax.TopLevel} {t' : Typed.TopLevel} (reached : a.Reached) (none : a.synthesized = #[])
    (written : t.Written) (accepted : (a.analyze t).1 = .ok t') (quiet : (a.analyze t).2.synthesized = #[])
    (code : lower (a.behind t) t' {} = .ok c) : Translated (a.behind t) (t'.lasting (a.behind t).types) c := by
  have nothing : a.madeUpFor t .none = { group := { decls := [], span := .none } } := by
    unfold Analysis.madeUpFor
    rw [quiet]
  have madeUp : lower (a.behind t) (a.madeUpFor t .none) {} = .ok {} := by
    rw [nothing]
    rfl
  have unit := Translated.group (.start reached none) written accepted madeUp code
  rw [nothing] at unit
  exact unit

end Translated

/-! ## Tokens of a fragment -/

namespace Include

variable {α β : Type} {s : Search} {Q : α → Prop} {R : β → Prop}

/-- What the step gives, if it goes through. -/
def Finds (m : Expand α) (Q : α → Prop) : Prop := ∀ st x, (outcome m st).1 = .ok x → Q x

/-- The tokens have been read from text. -/
def AllWritten (tokens : List Token) : Prop := ∀ t ∈ tokens, t.kind.Written

namespace Finds

theorem pure {x : α} (h : Q x) : Finds (Pure.pure x) Q := by
  intro st y same
  cases same
  exact h

theorem throw (e : CompileError) : Finds (MonadExcept.throw e : Expand α) Q := nofun

theorem bind {m : Expand α} {f : α → Expand β} (hm : Finds m Q) (hf : ∀ x, Q x → Finds (f x) R) : Finds (m >>= f) R := by
  intro st y run
  rw [outcome_bind] at run
  cases first : outcome m st with
  | mk r st' =>
    rw [first] at run
    cases r with
    | error e => cases run
    | ok x => exact hf x (hm st x (by rw [first])) st' y run

/-- A step whose result does not matter. -/
theorem skip {m : Expand α} {f : α → Expand β} (hf : ∀ x, Finds (f x) R) : Finds (m >>= f) R :=
  bind (Q := fun _ => True) (fun _ _ _ => trivial) fun x _ => hf x

theorem addText_lexed {text : String} {P : List Token → Prop}
    (lexed : ∀ file base tokens, tokenize text file base = .ok tokens → P tokens.toList) (name : String) :
    Finds (Include.addText name text) P := by
  refine skip fun st => ?_
  split
  · exact throw _
  · refine skip fun _ => ?_
    split
    split
    · exact pure (lexed _ _ _ ‹_›)
    · exact throw _

theorem addText (name text : String) : Finds (addText name text) AllWritten :=
  addText_lexed (fun _ _ _ lexed t mem => tokenize_written lexed t (Array.mem_toList_iff.mp mem)) name

theorem readFile (path : String) : Finds (readFile s path) AllWritten := by
  unfold Include.readFile
  split
  · exact throw _
  · exact bind (addText path _) fun tokens written => pure fun t mem => written t (List.mem_filter.mp mem).1

theorem expandWith {inner : String → List Token → Expand (List Token)}
    (hinner : ∀ dir tokens, AllWritten tokens → Finds (inner dir tokens) AllWritten) (dir : String) {tokens : List Token}
    (written : AllWritten tokens) : Finds (expandWith s dir inner tokens) AllWritten := by
  induction tokens with
  | nil => exact pure written
  | cons token rest ih =>
    have others : Finds (Include.expandWith s dir inner rest) AllWritten := ih fun t mem => written t (List.mem_cons_of_mem _ mem)
    unfold Include.expandWith
    split
    · split
      · split
        · exact others
        · exact throw _
      · rename_i path _
        dsimp only
        refine skip fun st => ?_
        split
        · exact others
        · refine skip fun _ => bind (readFile path) fun text given => bind (hinner _ text given) fun front before => ?_
          exact bind others fun tokens after => pure fun t mem => (List.mem_append.mp mem).elim (before t) (after t)
    · exact bind others fun tokens after => pure fun t mem => (List.mem_cons.mp mem).elim
        (fun same => same ▸ written token List.mem_cons_self) (after t)

theorem expand {tokens : List Token} (written : AllWritten tokens) : Finds (expand s tokens) AllWritten := by
  have levels (depth : Nat) : ∀ dir tokens, AllWritten tokens → Finds (expandTo s depth dir tokens) AllWritten := by
    induction depth with
    | zero => exact fun dir tokens written => pure written
    | succ depth ih => exact fun dir tokens written => expandWith ih dir written
  exact levels _ _ _ written

/-- What stands in front of all directives stays in front. -/
theorem expand_head {kinds : List TokenKind} (plain : ∀ k ∈ kinds, ∀ name angled, k ≠ .directive (.include name angled))
    {tokens : List Token} (head : kinds <+: tokens.map (·.kind)) :
    Finds (Include.expand s tokens) fun out => kinds <+: out.map (·.kind) := by
  unfold Include.expand expandTo
  induction kinds generalizing tokens with
  | nil => exact fun _ _ _ => List.nil_prefix
  | cons k kinds ih =>
    obtain ⟨first, others⟩ := List.forall_mem_cons.mp plain
    cases tokens with
    | nil => exact absurd (List.prefix_nil.mp head) (List.cons_ne_nil _ _)
    | cons t tokens =>
      obtain ⟨rfl, behind⟩ := List.cons_prefix_cons.mp head
      unfold Include.expandWith
      split
      · exact absurd ‹_› (first _ _)
      · exact (ih others behind).bind fun out rest => pure (List.cons_prefix_cons.mpr ⟨rfl, rest⟩)

/-- Without directives the tokens stay as they are. -/
theorem expand_plain {tokens : List Token} (plain : ∀ t ∈ tokens, ∀ name angled, t.kind ≠ .directive (.include name angled)) :
    Finds (Include.expand s tokens) (· = tokens) := by
  unfold Include.expand expandTo
  induction tokens with
  | nil => exact pure rfl
  | cons t tokens ih =>
    obtain ⟨first, others⟩ := List.forall_mem_cons.mp plain
    unfold Include.expandWith
    split
    · exact absurd ‹_› (first _ _)
    · exact (ih others).bind fun out same => pure (congrArg (t :: ·) same)

end Finds

end Include

/-! ## Fragments -/

namespace GrowingUnit

variable {u v : GrowingUnit}

theorem readTokens_finds {files : FileTree} {name text : String} {tokens : List Token} {p p' : Progress CodeModule}
    {P : List Token → Prop} (finds : ∀ search, Include.Finds (Include.addText name text >>= Include.expand search) P)
    (h : (readTokens files name text : Read CodeModule (List Token)).run.run p = (.ok tokens, p')) :
    P tokens ∧ p'.seen = p.seen := by
  obtain ⟨_, _, read, h⟩ := read_bind_ok h
  cases read
  dsimp only at h
  obtain ⟨_, _, updated, h⟩ := read_bind_ok h
  cases updated
  split at h
  · rename_i tokens found
    cases h
    exact ⟨finds ⟨files, p.unit.includePaths, p.unit.included⟩ ⟨p.unit.sources, p.unit.stagedIncludes⟩ _ found, rfl⟩
  · cases h

theorem readTokens_written {files : FileTree} {name text : String} {tokens : List Token} {p p' : Progress CodeModule}
    (h : (readTokens files name text : Read CodeModule (List Token)).run.run p = (.ok tokens, p')) :
    Include.AllWritten tokens ∧ p'.seen = p.seen :=
  readTokens_finds (fun _ => (Include.Finds.addText name text).bind fun _ written => .expand written) h

/-- A group that is read goes to the module, with the objects that were made up for it in front. -/
theorem readGroup_translated {t : Syntax.TopLevel} {p p' : Progress CodeModule} {xs : List LastingObject}
    (direct : p.unit.Direct) (written : t.Written) (before : Translated p.unit.analysis xs p.seen)
    (h : (readGroup .code t).run.run p = (.ok (), p')) : ∃ ys, Translated p'.unit.analysis ys p'.seen := by
  obtain ⟨t', c, read⟩ := readGroup_ok direct.enabled h
  rw [read.analysis]
  exact ⟨_, before.group written read.accepted read.madeUp read.code⟩

theorem readGroups_translated {count : Nat} {cursor cursor' : Syntax.Cursor} {p p' : Progress CodeModule}
    {xs : List LastingObject} (direct : p.unit.Direct) (written : cursor.Written)
    (before : Translated p.unit.analysis xs p.seen)
    (h : (readGroups .code count cursor).run.run p = (.ok cursor', p')) : ∃ ys, Translated p'.unit.analysis ys p'.seen := by
  induction count generalizing cursor p xs with
  | zero =>
    cases h
    exact ⟨xs, before⟩
  | succ count ih =>
    unfold readGroups at h
    split at h
    · cases h
    · cases h
      exact ⟨xs, before⟩
    · rename_i t next read
      obtain ⟨behind, group⟩ := Syntax.topLevel?_written written read
      obtain ⟨_, p₁, first, h⟩ := read_bind_ok h
      obtain ⟨ys, translated⟩ := readGroup_translated direct (group t rfl) before first
      have still : p₁.unit.Direct := by
        have after := Preserves.readGroup readable_direct Consumer.code t p direct
        rwa [first] at after
      exact ih still behind translated h

/-- The module of an accepted text is that of a translated unit. -/
theorem Reads.translated {fragment : ParsedFragment} {c : CodeModule} (h : u.Reads (.ok fragment) c v) (direct : u.Direct)
    (reached : u.analysis.Reached) (none : u.analysis.synthesized = #[]) : ∃ b xs, Translated b xs c := by
  obtain ⟨counted, files, name, text, analysis, deferred, -, read⟩ := h.named
  have direct : counted.Direct := ⟨analysis ▸ direct.fallback, deferred ▸ direct.enabled⟩
  obtain ⟨tokens, cursor, p, p', fragmentRead, rfl⟩ := parseNamed_ok read
  obtain ⟨tokensWritten, empty⟩ := readTokens_written fragmentRead.expanded
  have written : (Syntax.Cursor.ofTokens tokens counted.analysis.names.typeNames counted.nextId).Written :=
    fun t mem => tokensWritten t (List.mem_filter.mp mem).1
  have start : Translated p.unit.analysis [] p.seen := by
    rw [readTokens_ok fragmentRead.expanded, empty]
    exact .start (analysis ▸ reached) (analysis ▸ none)
  obtain ⟨ys, translated⟩ := readGroups_translated (fragmentRead.readable readable_direct direct) written start fragmentRead.grouped
  exact ⟨_, ys, translated⟩

end GrowingUnit

end IncrementalC
