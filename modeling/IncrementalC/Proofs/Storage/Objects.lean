import IncrementalC.Proofs.Lowering.Retained
import IncrementalC.Proofs.Semantics.ImageAgrees

/-!
# The objects of a module

Lowering a group appends one object to the module for each definition at file scope and for each static declaration of the
body, in the order of the source (`lower_objects`). `Appends types vs m`: the step `m` appends the objects that are declared
by `vs`, and keeps the strings, so that the images of objects before it stay what they are.
-/
namespace IncrementalC
set_option autoImplicit false
open Typed (Expr Initializer VarDecl FunctionDecl Decl DeclGroup Stmt)

/-! ## Declarations of objects -/

namespace Typed

/-- The object that the declaration defines at file scope. -/
def Decl.defined? (d : Decl) : Option VarDecl :=
  match d.kind with
  | .var v => if v.isDefinition then some v else none
  | _ => none

/-- The object that the declaration introduces in a function, and that outlives its calls. -/
def Decl.static? (d : Decl) : Option VarDecl :=
  match d.kind with
  | .var v => if v.storage = .static then some v else none
  | _ => none

def DeclGroup.statics (g : DeclGroup) : List VarDecl := g.decls.filterMap Decl.static?

def staticsOfInit : ForInit Expr DeclGroup → List VarDecl
  | .decl _ g => g.statics
  | .none | .expr .. => []

mutual

/-- The static objects of a statement, in the order of their declarations. -/
def Stmt.statics : Stmt → List VarDecl
  | .null _ | .expr .. | .break _ | .continue _ | .return .. => []
  | .decl _ g => g.statics
  | .compound _ ss => staticsOf ss
  | .ifThen _ _ yes => Stmt.statics yes
  | .ifElse _ _ yes no => Stmt.statics yes ++ Stmt.statics no
  | .while _ _ body | .doWhile _ body _ => Stmt.statics body
  | .for _ init _ _ body => staticsOfInit init ++ Stmt.statics body

def staticsOf : List Stmt → List VarDecl
  | [] => []
  | s :: ss => Stmt.statics s ++ staticsOf ss

end

/-- The static objects of the body of a group, each with the function that it is in. -/
def TopLevel.statics (t : TopLevel) : List (Option String × VarDecl) :=
  match t.function?, t.body with
  | some f, some body => body.statics.map (some f.name, ·)
  | _, _ => []

/-- The objects of a group, in their order. Those at file scope are in no function. -/
def TopLevel.objects (t : TopLevel) : List (Option String × VarDecl) :=
  (t.group.decls.filterMap Decl.defined?).map (none, ·) ++ t.statics

end Typed

/-! ## Objects in modules -/

/-- The object `o` of the module is the one that `v` declares. -/
structure CodeModule.ObjectOf (c : CodeModule) (types : TypeTable) (v : VarDecl) (o : CodeGlobal) : Prop where
  name : o.name = v.linkName
  slots : o.slots = Lowering.slotWord (types.stride v.ty)
  init : List.Forall₂ c.WritesEntry (v.constantInit.getD []) o.init

theorem CodeModule.ObjectOf.mono {c c' : CodeModule} (keeps : c.KeepsStrings c') {types : TypeTable} {v : VarDecl}
    {o : CodeGlobal} (h : c.ObjectOf types v o) : c'.ObjectOf types v o :=
  { h with init := h.init.imp fun _ _ entry => entry.mono keeps }

namespace Lowering

variable {α β : Type} {types : TypeTable} {vs us : List VarDecl}

/-- The step appends the objects that are declared by `vs`. -/
def Appends (types : TypeTable) (vs : List VarDecl) (m : Gen α) : Prop :=
  ∀ g x g', m g = .ok (x, g') → g.KeepsStrings g' ∧
    ∃ os, g'.globals.toList = g.globals.toList ++ os ∧ List.Forall₂ (g'.ObjectOf types) vs os

namespace Appends

/-- A step that leaves the objects alone. -/
theorem nothing {m : Gen α} (keeps : Keeps m) (same : ∀ g x g', m g = .ok (x, g') → g'.globals = g.globals) :
    Appends types [] m := by
  intro g x g' run
  refine ⟨keeps g x g' run, [], ?_, .nil⟩
  rw [same g x g' run, List.append_nil]

theorem pure (x : α) : Appends types [] (Pure.pure x) := by
  intro g y g' run
  cases run
  exact ⟨.refl g, [], (List.append_nil _).symm, .nil⟩

theorem bind {m : Gen α} {f : α → Gen β} (hm : Appends types vs m) (hf : ∀ x, Appends types us (f x)) :
    Appends types (vs ++ us) (m >>= f) := by
  intro g y g'' run
  obtain ⟨x, g', first, second⟩ := bind_eq_ok run
  obtain ⟨keeps, os, before, objects⟩ := hm g x g' first
  obtain ⟨keeps', os', after, objects'⟩ := hf x g' y g'' second
  refine ⟨keeps.trans keeps', os ++ os', ?_, ?_⟩
  · rw [after, before, List.append_assoc]
  · exact List.rel_append (objects.imp fun _ _ object => object.mono keeps') objects'

/-- The rest of a step that appends all of its objects in the beginning. -/
theorem before {m : Gen α} {f : α → Gen β} (hm : Appends types vs m) (hf : ∀ x, Appends types [] (f x)) :
    Appends types vs (m >>= f) := by
  have both := hm.bind hf
  rwa [List.append_nil] at both

/-- The beginning of a step that appends all of its objects in the end. -/
theorem behind {m : Gen α} {f : α → Gen β} (hm : Appends types [] m) (hf : ∀ x, Appends types vs (f x)) :
    Appends types vs (m >>= f) := hm.bind hf

theorem fail (problem : LoweringProblem) (span : Span) : Appends types vs (fail problem span : Gen α) := nofun

theorem need (x : Option α) (problem : LoweringProblem) (span : Span) : Appends types [] (need x problem span) := by
  cases x with
  | none => exact fail problem span
  | some x => exact pure x

theorem mapM {f : α → Gen β} (hf : ∀ x, Appends types [] (f x)) (xs : List α) : Appends types [] (xs.mapM f) := by
  induction xs with
  | nil => exact pure _
  | cons x xs ih =>
    rw [List.mapM_cons]
    exact behind (hf x) fun _ => behind ih fun _ => pure _

theorem modify {f : CodeModule → CodeModule} (same : ∀ g, (f g).globals = g.globals ∧ (f g).strings = g.strings) :
    Appends types [] (modify f : Gen Unit) := by
  refine nothing (fun g x g' run => ?_) fun g x g' run => ?_
  · cases run
    intro k text found
    rw [(same g).2]
    exact found
  · cases run
    exact (same g).1

end Appends

/-! ## Pieces and blocks -/

def Piece.Appends (types : TypeTable) (vs : List VarDecl) (p : Piece) : Prop := ∀ start, Lowering.Appends types vs (p start)

def Block.Appends (types : TypeTable) (vs : List VarDecl) (b : Block) : Prop := ∀ start, Lowering.Appends types vs (b start)

theorem appends_intern (text : String) : Appends types [] (intern text) := by
  refine .nothing (.intern text) fun g x g' run => ?_
  cases run
  show (g.intern text).1.globals = g.globals
  unfold CodeModule.intern
  split <;> rfl

namespace Piece

variable {p q : Piece}

theorem Appends.append (hp : p.Appends types vs) (hq : q.Appends types us) : (p ++ q).Appends types (vs ++ us) := by
  intro start
  show Lowering.Appends types (vs ++ us) (Piece.append p q start)
  exact .bind (hp start) fun _ => .before (hq _) fun _ => .pure _

theorem appends_code (c : List Instr) : (Piece.code c).Appends types [] := fun _ => .pure _

/-- The code of an expression leaves the objects alone. -/
theorem Composed.appends {L : Nat → Prop} (h : p.Composed L) : p.Appends types [] := by
  induction h with
  | quiet quiet =>
    intro start
    exact .nothing quiet.keeps fun g c g' run => congrArg CodeModule.globals (quiet g c g' run).1
  | slot _ => exact appends_code _
  | string s => exact fun _ => .behind (appends_intern s) fun _ => .pure _
  | append _ _ hp hq => exact hp.append hq
  | logical op _ _ hp hq => exact fun start => .behind (hp start) fun _ => .behind (hq _) fun _ => .pure _
  | conditional _ _ _ hc hp hq =>
    exact fun start => .behind (hc start) fun _ => .behind (hp _) fun _ => .behind (hq _) fun _ => .pure _

end Piece

namespace Block.Appends

variable {b b' : Block}

theorem ofPiece {p : Piece} (hp : p.Appends types vs) : (Block.ofPiece p).Appends types vs :=
  fun start => .before (hp start) fun _ => .pure _

theorem append (hb : b.Appends types vs) (hb' : b'.Appends types us) : (b ++ b').Appends types (vs ++ us) := by
  intro start
  show Lowering.Appends types (vs ++ us) (Block.append b b' start)
  exact .bind (hb start) fun _ => .before (hb' _) fun _ => .pure _

end Block.Appends

variable {a : Analysis}

theorem appends_rvalue (e : Expr) : (rvalue a e).Appends types [] := (composed_rvalue e.within_true).appends

theorem appends_discard (e : Expr) : (discard e.ty (rvalue a e)).Appends types [] :=
  (composed_discard e.ty (composed_rvalue e.within_true)).appends

theorem appends_initObject (place : Place) (ty : Ty) (init : Initializer) :
    (initObject a place ty init).Appends types [] := by
  have anywhere (offset : Nat) : place.At (fun _ => True) offset := by
    cases place <;> trivial
  exact (composed_initObject anywhere (Typed.withinInit_true init)).appends

/-! ## Objects -/

theorem appends_addGlobal (v : VarDecl) : Appends a.types [v] (addGlobal a v (v.constantInit.getD [])) := by
  intro g x g'' run
  obtain ⟨init, g', written, added⟩ := bind_eq_ok run
  obtain ⟨keeps, writes⟩ := CodeModule.writes_image written
  cases added
  let object : CodeGlobal := ⟨v.linkName, slotWord (a.types.stride v.ty), init⟩
  have strings : g'.KeepsStrings (g'.addGlobal object) := fun _ _ found => found
  have added : (g'.addGlobal object).ObjectOf a.types v object :=
    ⟨rfl, rfl, writes.imp fun _ _ entry => entry.mono strings⟩
  have still : g'.globals = g.globals := by
    have unmoved : Appends a.types [] ((v.constantInit.getD []).mapM fun x => do
        return (slotWord x.1, ← addGlobal.constant x.2) : Gen _) := by
      refine .mapM (fun x => .behind ?_ fun _ => .pure _) _
      cases x.2 with
      | str s => exact .behind (appends_intern s) fun _ => .pure _
      | _ => exact .pure _
    obtain ⟨-, os, same, none⟩ := unmoved g init g' written
    cases none
    rw [List.append_nil] at same
    exact Array.toList_inj.mp same
  refine ⟨keeps.trans strings, [object], ?_, .cons added .nil⟩
  show (g'.globals.push object).toList = _
  rw [Array.toList_push, still]

theorem appends_global (v : VarDecl) : Appends a.types [v] (global a v) := by
  refine .before (appends_addGlobal v) fun _ => ?_
  split
  · refine .behind (appends_initObject _ _ _ 0) fun code => ?_
    exact .modify fun g => ⟨rfl, rfl⟩
  · exact .pure _

theorem appends_localDecls (ds : List Decl) : (localDecls a ds).Appends a.types (ds.filterMap Decl.static?) := by
  induction ds with
  | nil => exact Piece.appends_code _
  | cons d ds ih =>
    rw [localDecls]
    obtain ⟨kind, span⟩ := d
    cases kind with
    | var v =>
      rw [List.filterMap_cons]
      unfold Decl.static?
      dsimp only
      cases storage : v.storage with
      | static =>
        rw [if_pos rfl]
        have first : Piece.Appends a.types [v] (.gen do addGlobal a v (v.constantInit.getD []); return []) :=
          fun start => .before (appends_addGlobal v) fun _ => .pure _
        exact first.append ih
      | «local» slot =>
        rw [if_neg nofun]
        cases v.init with
        | none => exact (Piece.appends_code []).append ih
        | some init => exact (appends_initObject _ _ init).append ih
      | global =>
        rw [if_neg nofun]
        cases v.init <;> exact (Piece.appends_code []).append ih
    | _ => exact (Piece.appends_code []).append ih

/-! ## Statements -/

section

variable {cond step : Piece} {yes no body : Block}

theorem appends_ifThen (hc : cond.Appends types []) (hy : yes.Appends types vs) : (ifThen cond yes).Appends types vs :=
  fun start => .behind (hc start) fun _ => .before (hy _) fun _ => .pure _

theorem appends_ifElse (hc : cond.Appends types []) (hy : yes.Appends types vs) (hn : no.Appends types us) :
    (ifElse cond yes no).Appends types (vs ++ us) :=
  fun start => .behind (hc start) fun _ => .bind (hy _) fun _ => .before (hn _) fun _ => .pure _

theorem appends_whileLoop (hc : cond.Appends types []) (hb : body.Appends types vs) :
    (whileLoop cond body).Appends types vs :=
  fun start => .behind (hc start) fun _ => .before (hb _) fun _ => .pure _

theorem appends_doLoop (hb : body.Appends types vs) (hc : cond.Appends types []) : (doLoop body cond).Appends types vs :=
  fun start => .before (hb start) fun _ => .behind (hc _) fun _ => .pure _

theorem appends_forLoop {cond : Option Piece} (hc : ∀ p, cond = some p → p.Appends types []) (hb : body.Appends types vs)
    (hs : step.Appends types []) : (forLoop cond body step).Appends types vs := by
  intro start
  cases cond with
  | none => exact .behind (.pure _) fun _ => .before (hb _) fun _ => .behind (hs _) fun _ => .pure _
  | some p => exact .behind (hc p rfl start) fun _ => .before (hb _) fun _ => .behind (hs _) fun _ => .pure _

end

mutual

theorem appends_statement (ret : Ty) (inLoop : Bool) : ∀ s : Stmt, (statement a ret inLoop s).Appends a.types s.statics
  | .null _ => fun _ => .pure _
  | .expr _ e => .ofPiece (appends_discard e)
  | .decl _ group => .ofPiece (appends_localDecls group.decls)
  | .compound _ ss => appends_statements ret inLoop ss
  | .ifThen _ c yes => appends_ifThen (appends_rvalue c) (appends_statement ret inLoop yes)
  | .ifElse _ c yes no =>
    appends_ifElse (appends_rvalue c) (appends_statement ret inLoop yes) (appends_statement ret inLoop no)
  | .while _ c body => .ofPiece (appends_whileLoop (appends_rvalue c) (appends_statement ret true body))
  | .doWhile _ body c => .ofPiece (appends_doLoop (appends_statement ret true body) (appends_rvalue c))
  | .for _ init c step body => by
    refine .ofPiece (.append ?_ (appends_forLoop (fun p known => ?_) (appends_statement ret true body) ?_))
    · cases init with
      | none => exact Piece.appends_code _
      | decl _ group => exact appends_localDecls group.decls
      | expr _ e => exact appends_discard e
    · obtain ⟨e, -, rfl⟩ := Option.map_eq_some_iff.mp known
      exact appends_rvalue e
    · cases step with
      | none => exact Piece.appends_code _
      | some e => exact appends_discard e
  | .break _ | .continue _ =>
    match inLoop with
    | true => fun _ => .pure _
    | false => fun _ => .fail _ _
  | .return _ (some e) => .ofPiece (.append (appends_rvalue e) (Piece.appends_code _))
  | .return _ none => fun _ => .pure _

theorem appends_statements (ret : Ty) (inLoop : Bool) :
    ∀ ss : List Stmt, (statements a ret inLoop ss).Appends a.types (Typed.staticsOf ss)
  | [] => fun _ => .pure _
  | s :: ss => (appends_statement ret inLoop s).append (appends_statements ret inLoop ss)

end

/-! ## Functions and groups -/

theorem appends_function (f : FunctionDecl) (body : Stmt) : Appends a.types body.statics (Lowering.function a f body) := by
  refine .behind (.mapM (fun p => .need _ _ _) _) fun params => ?_
  have rest (ret : Option Scalar) : Appends a.types body.statics (do
      let steps ← statement a f.ret false body 0
      let code := steps.map (·.resolve 0 0) ++ ending ret
      return { name := f.name, params, ret, frameSlots := f.frameSlots, code := code.toArray } : Gen CodeFunction) :=
    .before (appends_statement _ _ body 0) fun _ => .pure _
  dsimp only
  split
  · exact .behind (.pure _) fun ret => rest ret
  · exact .behind (.behind (.need _ _ _) fun _ => .pure _) fun ret => rest ret

theorem appends_declarations (ds : List Decl) :
    Appends a.types (ds.filterMap Decl.defined?) (ds.forM (declaration a)) := by
  induction ds with
  | nil => exact .pure _
  | cons d ds ih =>
    obtain ⟨kind, span⟩ := d
    rw [List.filterMap_cons]
    unfold Decl.defined?
    cases kind with
    | var v =>
      dsimp only
      have first : Appends a.types (if v.isDefinition then [v] else []) (declaration a ⟨.var v, span⟩) := by
        unfold declaration
        by_cases defines : v.isDefinition
        · rw [if_pos defines]
          simp only [if_pos defines]
          exact appends_global v
        · rw [if_neg defines]
          simp only [if_neg defines]
          exact .pure _
      have both := first.bind fun _ => ih
      split
      · rename_i defines
        split at defines
        · cases defines
        · rename_i no
          rwa [if_neg no] at both
      · rename_i u defines
        split at defines
        · rename_i yes
          cases defines
          rwa [if_pos yes] at both
        · cases defines
    | _ => exact .behind (.pure _) fun _ => ih

end Lowering

open Lowering in
/-- The module gains the objects of the group, in their order, and keeps those that it has in front of them. -/
theorem lower_objects {a : Analysis} {t : Typed.TopLevel} {c c' : CodeModule} (code : lower a t c = .ok c') :
    c.KeepsStrings c' ∧ ∃ os, c'.globals.toList = c.globals.toList ++ os ∧
      List.Forall₂ (c'.ObjectOf a.types) (t.objects.map (·.2)) os := by
  have group : Appends a.types (t.objects.map (·.2)) (lower.group a t) := by
    unfold lower.group Typed.TopLevel.objects Typed.TopLevel.statics
    rw [List.map_append, List.map_map, show Prod.snd ∘ (fun v : VarDecl => ((none : Option String), v)) = id from rfl,
      List.map_id]
    refine .bind (appends_declarations _) fun _ => ?_
    cases t.function? with
    | none => exact .pure _
    | some f =>
      cases t.body with
      | none => exact .pure _
      | some body =>
        dsimp only
        rw [List.map_map, show Prod.snd ∘ (fun v : VarDecl => (some f.name, v)) = id from rfl, List.map_id]
        exact .before (appends_function f body) fun _ => .modify fun g => ⟨rfl, rfl⟩
  unfold lower at code
  cases run : (lower.group a t).run c with
  | error e =>
    rw [run] at code
    cases code
  | ok r =>
    rw [run] at code
    cases code
    exact group c r.1 r.2 run

end IncrementalC
