import IncrementalC.Proofs.Analysis.Introduced
import IncrementalC.Proofs.Lowering.Composed

/-!
# What a group introduces is in its module

Lowering adds to a module and takes nothing from it (`Retains`). What a group introduces outside of its body is in the module
that it is lowered to, as an object or a function (`lower_has`). What a block-scope declaration introduces is not.

What code for expressions adds to the string literals comes behind those that are there (`Keeps`), so the number of a
literal in the code is its number in the finished module.
-/
namespace IncrementalC
set_option autoImplicit false
open Typed (Expr Binding Initializer VarDecl FunctionDecl Decl Stmt)

/-! ## String literals -/

/-- The literals of `g` have the same numbers in `g'`. -/
def CodeModule.KeepsStrings (g g' : CodeModule) : Prop :=
  ∀ (k : Nat) (text : String), g.strings[k]? = some text → g'.strings[k]? = some text

namespace CodeModule.KeepsStrings

variable {g g' g'' : CodeModule}

theorem refl (g : CodeModule) : g.KeepsStrings g := fun _ _ found => found

theorem trans (h : g.KeepsStrings g') (h' : g'.KeepsStrings g'') : g.KeepsStrings g'' :=
  fun k text found => h' k text (h k text found)

theorem size_le (h : g.KeepsStrings g') : g.strings.size ≤ g'.strings.size := by
  refine Nat.le_of_not_lt fun fewer => ?_
  have found := h _ _ (Array.getElem?_eq_getElem fewer)
  exact absurd (Array.getElem?_eq_some_iff.mp found).1 (Nat.lt_irrefl _)

end CodeModule.KeepsStrings

theorem CodeModule.intern_keeps (g : CodeModule) (text : String) :
    g.KeepsStrings (g.intern text).1 ∧ (g.intern text).1.strings[(g.intern text).2]? = some text := by
  unfold CodeModule.intern
  cases found : g.strings.idxOf? text with
  | some i =>
    have listed : g.strings.toList.idxOf? text = some i := by
      rw [← List.idxOf?_toArray, Array.toArray_toList, found]
    obtain ⟨inside, there, -⟩ := List.idxOf?_eq_some_iff.mp listed
    refine ⟨.refl g, ?_⟩
    show g.strings[i]? = some text
    rw [← Array.getElem?_toList, List.getElem?_eq_getElem inside, there]
  | none =>
    refine ⟨fun k t there => ?_, Array.getElem?_push_size⟩
    have inside := (Array.getElem?_eq_some_iff.mp there).1
    show (g.strings.push text)[k]? = some t
    rw [Array.getElem?_push_lt inside, ← there, Array.getElem?_eq_getElem inside]

namespace Lowering

variable {α β : Type}

def Keeps (m : Gen α) : Prop := ∀ g x g', m g = .ok (x, g') → g.KeepsStrings g'

namespace Keeps

theorem pure (x : α) : Keeps (Pure.pure x) := by
  intro g y g' run
  cases run
  exact .refl g

theorem bind {m : Gen α} {f : α → Gen β} (hm : Keeps m) (hf : ∀ x, Keeps (f x)) : Keeps (m >>= f) := by
  intro g y g'' run
  obtain ⟨x, g', first, second⟩ := bind_eq_ok run
  exact (hm g x g' first).trans (hf x g' y g'' second)

theorem fail (problem : LoweringProblem) (span : Span) : Keeps (fail problem span : Gen α) := nofun

theorem need (x : Option α) (problem : LoweringProblem) (span : Span) : Keeps (need x problem span) := by
  cases x with
  | none => exact fail problem span
  | some x => exact pure x

theorem intern (text : String) : Keeps (intern text) := by
  intro g i g' run
  cases run
  exact (g.intern_keeps text).1

end Keeps

namespace Piece

def Keeps (p : Piece) : Prop := ∀ start, Lowering.Keeps (p start)

namespace Keeps

variable {p q : Piece}

theorem gen {m : Gen (List Instr)} (h : Lowering.Keeps m) : Keeps (.gen m) := fun _ => h

theorem code (c : List Instr) : Keeps (.code c) := fun _ => .pure c

theorem append (hp : Keeps p) (hq : Keeps q) : Keeps (p ++ q) := by
  intro start
  show Lowering.Keeps (Piece.append p q start)
  exact .bind (hp start) fun _ => .bind (hq _) fun _ => .pure _

theorem ite {c : Prop} [Decidable c] (hp : Keeps p) (hq : Keeps q) : Keeps (if c then p else q) := by
  split
  · exact hp
  · exact hq

/-- One instruction that needs the machine kind of a type, or the like. -/
theorem needs {β : Type} (x : Option β) (problem : LoweringProblem) (span : Span) (f : β → List Instr) :
    Keeps (.gen do return f (← need x problem span)) :=
  gen (.bind (.need x problem span) fun _ => .pure _)

end Keeps

end Piece

section Parts

variable {types : TypeTable} {p q : Piece}

theorem keeps_logical (op : BinaryOp) (hp : p.Keeps) (hq : q.Keeps) : (logical op p q).Keeps :=
  fun start => .bind (hp start) fun _ => .bind (hq _) fun _ => .pure _

theorem keeps_conditional {c : Piece} (hc : c.Keeps) (hp : p.Keeps) (hq : q.Keeps) :
    (conditional c p q).Keeps :=
  fun start => .bind (hc start) fun _ => .bind (hp _) fun _ => .bind (hq _) fun _ => .pure _

theorem Quiet.keeps {m : Gen (List Instr)} (h : Quiet m) : Keeps m := by
  intro g c g' run
  rw [(h g c g' run).1]
  exact .refl g

theorem Piece.Composed.keeps {L : Nat → Prop} (h : p.Composed L) : p.Keeps := by
  induction h with
  | quiet h => exact .gen h.keeps
  | slot _ => exact .code _
  | string s => exact .gen (.bind (.intern s) fun _ => .pure _)
  | append _ _ hp hq => exact hp.append hq
  | logical op _ _ hp hq => exact keeps_logical op hp hq
  | conditional _ _ _ hc hp hq => exact keeps_conditional hc hp hq

theorem keeps_load (ty : Ty) (span : Span) : (load types ty span).Keeps :=
  (composed_load (L := fun _ => True) ty span).keeps

theorem keeps_discard (ty : Ty) (hp : p.Keeps) : (discard ty p).Keeps := .ite hp (hp.append (.code _))

theorem keeps_fieldOffset (record : Option Ty) (field : String) (span : Span) :
    (fieldOffset types record field span).Keeps :=
  (composed_fieldOffset (L := fun _ => True) record field span).keeps

end Parts

/-! ## Expressions -/

variable {a : Analysis}

theorem keeps_lvalue (e : Expr) : (lvalue a e).Keeps := (composed_lvalue e.within_true).keeps

theorem keeps_rvalue (e : Expr) : (rvalue a e).Keeps := (composed_rvalue e.within_true).keeps

end Lowering

/-! ## Objects and functions of a module -/

/-- The module has the object or the function. -/
def CodeModule.Has (c : CodeModule) : Definition → Prop
  | .object link => ∃ g ∈ c.globals, g.name = link
  | .function name => ∃ f ∈ c.functions, f.name = name

namespace CodeModule

variable {c : CodeModule} {d : Definition}

theorem has_intern (s : String) (h : c.Has d) : (c.intern s).1.Has d := by
  unfold intern
  split <;> cases d <;> exact h

theorem has_addGlobal (g : CodeGlobal) (h : d = .object g.name ∨ c.Has d) : (c.addGlobal g).Has d := by
  rcases h with rfl | h
  · exact ⟨g, Array.mem_push_self, rfl⟩
  · cases d with
    | object link =>
      obtain ⟨g', mem, same⟩ := h
      exact ⟨g', Array.mem_push_of_mem _ mem, same⟩
    | function name => exact h

theorem has_addFunction (f : CodeFunction) (h : d = .function f.name ∨ c.Has d) : (c.addFunction f).Has d := by
  rcases h with rfl | h
  · exact ⟨f, Array.mem_push_self, rfl⟩
  · cases d with
    | object link => exact h
    | function name =>
      obtain ⟨f', mem, same⟩ := h
      exact ⟨f', Array.mem_push_of_mem _ mem, same⟩

end CodeModule

namespace Lowering

variable {α β : Type} {d : Definition}

/-! ## Productions -/

/-- What the module has, it keeps. -/
def Retains (m : Gen α) : Prop := ∀ g x g', m g = .ok (x, g') → ∀ d, g.Has d → g'.Has d

/-- Moreover, it has `d` in the end. -/
structure Emits (d : Definition) (m : Gen α) : Prop where
  retains : Retains m
  emits : ∀ g x g', m g = .ok (x, g') → g'.Has d

namespace Retains

theorem pure (x : α) : Retains (Pure.pure x) := by
  intro g y g' run
  cases run
  exact fun _ => id

theorem bind {m : Gen α} {f : α → Gen β} (hm : Retains m) (hf : ∀ x, Retains (f x)) : Retains (m >>= f) := by
  intro g y g'' run d has
  obtain ⟨x, g', first, second⟩ := bind_eq_ok run
  exact hf x g' y g'' second d (hm g x g' first d has)

theorem fail (problem : LoweringProblem) (span : Span) : Retains (fail problem span : Gen α) := nofun

theorem need (x : Option α) (problem : LoweringProblem) (span : Span) : Retains (need x problem span) := by
  cases x with
  | none => exact fail problem span
  | some x => exact pure x

theorem mapM {f : α → Gen β} (hf : ∀ x, Retains (f x)) (xs : List α) : Retains (xs.mapM f) := by
  induction xs with
  | nil => exact pure _
  | cons x xs ih =>
    rw [List.mapM_cons]
    exact bind (hf x) fun _ => bind ih fun _ => pure _

theorem modify {f : CodeModule → CodeModule} (hf : ∀ g d, g.Has d → (f g).Has d) : Retains (modify f : Gen Unit) := by
  intro g x g' run
  cases run
  exact hf g

theorem intern (s : String) : Retains (intern s) := by
  intro g i g' run d has
  cases run
  exact g.has_intern s has

end Retains

namespace Emits

theorem modify {f : CodeModule → CodeModule} (hf : ∀ g e, e = d ∨ g.Has e → (f g).Has e) :
    Emits d (modify f : Gen Unit) := by
  refine ⟨.modify fun g e has => hf g e (.inr has), fun g x g' run => ?_⟩
  cases run
  exact hf g d (.inl rfl)

theorem before {m : Gen α} {f : α → Gen β} (hm : Emits d m) (hf : ∀ x, Retains (f x)) : Emits d (m >>= f) := by
  refine ⟨hm.retains.bind hf, fun g y g'' run => ?_⟩
  obtain ⟨x, g', first, second⟩ := bind_eq_ok run
  exact hf x g' y g'' second d (hm.emits g x g' first)

theorem behind {m : Gen α} {f : α → Gen β} (hm : Retains m) (hf : ∀ x, Emits d (f x)) : Emits d (m >>= f) := by
  refine ⟨hm.bind fun x => (hf x).retains, fun g y g'' run => ?_⟩
  obtain ⟨x, g', first, second⟩ := bind_eq_ok run
  exact (hf x).emits g' y g'' second

end Emits

/-! ## Pieces and blocks -/

def Piece.Retains (p : Piece) : Prop := ∀ start, Lowering.Retains (p start)

def Block.Retains (b : Block) : Prop := ∀ start, Lowering.Retains (b start)

namespace Piece

variable {p q : Piece}

theorem Retains.append (hp : p.Retains) (hq : q.Retains) : (p ++ q).Retains := by
  intro start
  show Lowering.Retains (Piece.append p q start)
  exact .bind (hp start) fun _ => .bind (hq _) fun _ => .pure _

theorem retains_code (c : List Instr) : (Piece.code c).Retains := fun _ => .pure _

theorem Composed.retains {L : Nat → Prop} (h : p.Composed L) : p.Retains := by
  induction h with
  | quiet h =>
    intro start g c g' run
    rw [(h g c g' run).1]
    exact fun _ => id
  | slot _ => exact retains_code _
  | string s => exact fun _ => .bind (.intern s) fun _ => .pure _
  | append _ _ hp hq => exact hp.append hq
  | logical op _ _ hp hq => exact fun start => .bind (hp start) fun _ => .bind (hq _) fun _ => .pure _
  | conditional _ _ _ hc hp hq =>
    exact fun start => .bind (hc start) fun _ => .bind (hp _) fun _ => .bind (hq _) fun _ => .pure _

end Piece

namespace Block.Retains

variable {b b' : Block}

theorem ofPiece {p : Piece} (hp : p.Retains) : (Block.ofPiece p).Retains := fun start => .bind (hp start) fun _ => .pure _

theorem append (hb : b.Retains) (hb' : b'.Retains) : (b ++ b').Retains := by
  intro start
  show Lowering.Retains (Block.append b b' start)
  exact .bind (hb start) fun _ => .bind (hb' _) fun _ => .pure _

end Block.Retains

variable {a : Analysis}

theorem retains_rvalue (e : Expr) : (rvalue a e).Retains := (composed_rvalue e.within_true).retains

theorem retains_discard (e : Expr) : (discard e.ty (rvalue a e)).Retains :=
  (composed_discard e.ty (composed_rvalue e.within_true)).retains

theorem retains_initObject (place : Place) (ty : Ty) (init : Initializer) : (initObject a place ty init).Retains := by
  have anywhere (offset : Nat) : place.At (fun _ => True) offset := by
    cases place <;> trivial
  exact (composed_initObject anywhere (Typed.withinInit_true init)).retains

/-! ## Objects -/

theorem retains_image (image : List (Nat × Constant)) :
    Retains (image.mapM fun (slot, c) => return (slotWord slot, ← addGlobal.constant c)) := by
  refine .mapM (fun x => .bind ?_ fun _ => .pure _) image
  cases x.2 with
  | str s => exact .bind (.intern s) fun _ => .pure _
  | _ => exact .pure _

theorem emits_addGlobal (v : VarDecl) (image : List (Nat × Constant)) : Emits (.object v.linkName) (addGlobal a v image) :=
  .behind (retains_image image) fun _ => .modify fun g _ => g.has_addGlobal ⟨v.linkName, _, _⟩

theorem emits_global (v : VarDecl) : Emits (.object v.linkName) (global a v) := by
  refine .before (emits_addGlobal v _) fun _ => ?_
  split
  · refine .bind (retains_initObject _ _ _ 0) fun code => .modify fun g d has => ?_
    have added := g.has_addFunction { name := initializerName v.linkName, params := [], ret := none, frameSlots := 0,
                                      code := (code ++ [Instr.returnVoid]).toArray } (.inr has)
    cases d <;> exact added
  · exact .pure _

theorem retains_localDecls (ds : List Decl) : (localDecls a ds).Retains := by
  induction ds with
  | nil => exact Piece.retains_code _
  | cons d ds ih =>
    refine Piece.Retains.append ?_ ih
    split
    · split
      · exact fun _ => .bind (emits_addGlobal _ _).retains fun _ => .pure _
      · exact retains_initObject _ _ _
      · exact Piece.retains_code _
    · exact Piece.retains_code _

/-! ## Statements -/

section

variable {cond step : Piece} {yes no body : Block}

theorem retains_ifThen (hc : cond.Retains) (hy : yes.Retains) : (ifThen cond yes).Retains :=
  fun start => .bind (hc start) fun _ => .bind (hy _) fun _ => .pure _

theorem retains_ifElse (hc : cond.Retains) (hy : yes.Retains) (hn : no.Retains) : (ifElse cond yes no).Retains :=
  fun start => .bind (hc start) fun _ => .bind (hy _) fun _ => .bind (hn _) fun _ => .pure _

theorem retains_whileLoop (hc : cond.Retains) (hb : body.Retains) : (whileLoop cond body).Retains :=
  fun start => .bind (hc start) fun _ => .bind (hb _) fun _ => .pure _

theorem retains_doLoop (hb : body.Retains) (hc : cond.Retains) : (doLoop body cond).Retains :=
  fun start => .bind (hb start) fun _ => .bind (hc _) fun _ => .pure _

theorem retains_forLoop {cond : Option Piece} (hc : ∀ p, cond = some p → p.Retains) (hb : body.Retains) (hs : step.Retains) :
    (forLoop cond body step).Retains := by
  intro start
  cases cond with
  | none => exact .bind (.pure _) fun _ => .bind (hb _) fun _ => .bind (hs _) fun _ => .pure _
  | some p => exact .bind (hc p rfl start) fun _ => .bind (hb _) fun _ => .bind (hs _) fun _ => .pure _

end

mutual

theorem retains_statement (ret : Ty) (inLoop : Bool) : ∀ s : Stmt, (statement a ret inLoop s).Retains
  | .null _ => fun _ => .pure _
  | .expr _ e => .ofPiece (retains_discard e)
  | .decl _ group => .ofPiece (retains_localDecls group.decls)
  | .compound _ ss => retains_statements ret inLoop ss
  | .ifThen _ c yes => retains_ifThen (retains_rvalue c) (retains_statement ret inLoop yes)
  | .ifElse _ c yes no => retains_ifElse (retains_rvalue c) (retains_statement ret inLoop yes) (retains_statement ret inLoop no)
  | .while _ c body => .ofPiece (retains_whileLoop (retains_rvalue c) (retains_statement ret true body))
  | .doWhile _ body c => .ofPiece (retains_doLoop (retains_statement ret true body) (retains_rvalue c))
  | .for _ init c step body => by
    refine .ofPiece (.append ?_ (retains_forLoop (fun p known => ?_) (retains_statement ret true body) ?_))
    · cases init with
      | none => exact Piece.retains_code _
      | decl _ group => exact retains_localDecls group.decls
      | expr _ e => exact retains_discard e
    · obtain ⟨e, -, rfl⟩ := Option.map_eq_some_iff.mp known
      exact retains_rvalue e
    · cases step with
      | none => exact Piece.retains_code _
      | some e => exact retains_discard e
  | .break _ | .continue _ =>
    match inLoop with
    | true => fun _ => .pure _
    | false => fun _ => .fail _ _
  | .return _ (some e) => .ofPiece (.append (retains_rvalue e) (Piece.retains_code _))
  | .return _ none => fun _ => .pure _

theorem retains_statements (ret : Ty) (inLoop : Bool) : ∀ ss : List Stmt, (statements a ret inLoop ss).Retains
  | [] => fun _ => .pure _
  | s :: ss => (retains_statement ret inLoop s).append (retains_statements ret inLoop ss)

end

/-! ## Functions and groups -/

theorem retains_function (f : FunctionDecl) (body : Stmt) : Retains (Lowering.function a f body) := by
  refine .bind (.mapM (fun p => .need _ _ _) _) fun params => ?_
  have rest (ret : Option Scalar) : Retains (do
      let steps ← statement a f.ret false body 0
      let code := steps.map (·.resolve 0 0) ++ ending ret
      return { name := f.name, params, ret, frameSlots := f.frameSlots, code := code.toArray } : Gen CodeFunction) :=
    .bind (retains_statement _ _ body 0) fun _ => .pure _
  dsimp only
  split
  · exact .bind (.pure _) fun ret => rest ret
  · exact .bind (.bind (.need _ _ _) fun _ => .pure _) fun ret => rest ret

/-- A function keeps its name. -/
theorem function_named (f : FunctionDecl) (body : Stmt) :
    Yields (Lowering.function a f body) fun code => code.name = f.name := by
  refine .after fun params => ?_
  dsimp only
  split <;> exact .after fun ret => .after fun steps => .pure rfl

theorem emits_function (f : FunctionDecl) (body : Stmt) :
    Emits (.function f.name) (do let code ← Lowering.function a f body; modify (·.addFunction code) : Gen Unit) := by
  refine ⟨.bind (retains_function f body) fun code => .modify fun g d has => g.has_addFunction code (.inr has), ?_⟩
  intro g x g'' run
  obtain ⟨code, g', first, second⟩ := bind_eq_ok run
  cases second
  exact g'.has_addFunction code (.inl (congrArg Definition.function (function_named f body g code g' first).symm))

theorem retains_declaration (d : Decl) : Retains (declaration a d) := by
  unfold declaration
  split
  · split
    · exact (emits_global _).retains
    · exact .pure _
  · exact .pure _

theorem retains_declarations (ds : List Decl) : Retains (ds.forM (declaration a)) := by
  induction ds with
  | nil => exact .pure _
  | cons d ds ih => exact .bind (retains_declaration d) fun _ => ih

theorem emits_declarations {ds : List Decl} {x : Decl} (mem : x ∈ ds) {d : Definition} (introduces : x.Introduces d) :
    Emits d (ds.forM (declaration a)) := by
  induction ds with
  | nil => cases mem
  | cons y ds ih =>
    rcases List.mem_cons.mp mem with rfl | mem
    · refine .before ?_ fun _ => retains_declarations ds
      obtain ⟨v, kind, -, defines, rfl⟩ := introduces
      unfold declaration
      rw [kind]
      dsimp only
      rw [if_pos defines]
      exact emits_global v
    · exact .behind (retains_declaration y) fun _ => ih mem

theorem retains_body (a : Analysis) (t : Typed.TopLevel) :
    Retains (match (t.function?, t.body) with
      | (some f, some body) => do
        let code ← Lowering.function a f body
        modify (·.addFunction code)
      | _ => Pure.pure () : Gen Unit) := by
  split
  · exact (emits_function _ _).retains
  · exact .pure _

end Lowering

open Lowering in
/-- A module keeps what it has when a group is lowered to it, and gains what the group introduces outside of its body. -/
theorem lower_has {a : Analysis} {t : Typed.TopLevel} {c c' : CodeModule} (code : lower a t c = .ok c') {d : Definition}
    (known : c.Has d ∨ t.Exposes d) : c'.Has d := by
  unfold lower at code
  cases run : (lower.group a t).run c with
  | error e => rw [run] at code; cases code
  | ok r =>
    rw [run] at code
    cases code
    have run : lower.group a t c = .ok (r.1, r.2) := run
    unfold lower.group at run
    rcases known with has | ⟨x, mem, introduces⟩ | ⟨f, body, function, given, rfl⟩
    · exact (Retains.bind (retains_declarations _) fun _ => retains_body a t) c r.1 r.2 run d has
    · exact (Emits.before (emits_declarations mem introduces) fun _ => retains_body a t).emits c r.1 r.2 run
    · rw [function, given] at run
      exact (Emits.behind (retains_declarations _) fun _ => emits_function f body).emits c r.1 r.2 run

end IncrementalC
