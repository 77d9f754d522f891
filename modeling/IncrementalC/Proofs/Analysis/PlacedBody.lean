import IncrementalC.Proofs.Analysis.FrameSlots
import IncrementalC.Proofs.Analysis.NumberedBody
import IncrementalC.Proofs.Analysis.Reached

/-!
# Analysed bodies keep to their frames

`Adds z n a b small within`: a step leads from `a` to `b`, on the way to the state `z` and a frame of `n` slots. If
the objects that it declares are small, what it gives lies within the frame. Declarations and statements are put
together by `Adds.trans`; `Analysis.analyze_placed` is the result for a group.
-/
namespace IncrementalC
set_option autoImplicit false
open Relation
open Typed (Expr Initializer VarDecl FunctionDecl Param Decl DeclKind AcceptedInit WithinInit EveryStmt EveryStmts
  EveryForInit RoomFor)

/-! ## Objects -/

/-- An object with its initial value in a body with so many slots. -/
structure Typed.VarDecl.Placed (z : Analysis) (n : Nat) (v : VarDecl) : Prop where
  init : ∀ i, v.init = some i → WithinInit (· < n) i ∧ AcceptedInit z v.ty i ∧ RoomFor z.types v.ty i
  slot : ∀ slot, v.storage = .local slot → z.types.isComplete v.ty ∧ slot + z.types.stride v.ty ≤ n
  static : v.storage = .static → v.isExtern = false
  image : (v.isExtern → v.ty.Sized) → ∀ image, v.constantInit = some image → ∀ x ∈ image, x.1 < z.types.stride v.ty

def Typed.Decl.Placed (z : Analysis) (n : Nat) (d : Decl) : Prop := ∀ v, d.kind = .var v → v.Placed z n

/-- The slots of an object can be counted in 32 bits. -/
def Typed.Decl.Small (z : Analysis) (d : Decl) : Prop := ∀ v, d.kind = .var v → z.types.stride v.ty < UInt32.size

instance (z : Analysis) (d : Decl) : Decidable (d.Small z) :=
  match d with
  | ⟨.var v, _⟩ => decidable_of_iff (z.types.stride v.ty < UInt32.size) ⟨fun h _ same => by cases same; exact h, fun h => h v rfl⟩
  | ⟨.function .., _⟩ | ⟨.record .., _⟩ | ⟨.enum .., _⟩ | ⟨.typedef .., _⟩ => isTrue nofun

/-- The analysis of a body, on the way to its end. -/
structure Analysis.UpTo (b z : Analysis) (n : Nat) : Prop where
  grows : b.Extends z
  frame : b.frame ≤ n

structure Adds (z : Analysis) (n : Nat) (a b : Analysis) (small within : Prop) : Prop where
  frame : a.frame ≤ b.frame
  outermost : a.function = none → b.function = none
  layered : a.types.Layered → b.types.Layered
  within : b.UpTo z n → a.types.Layered → ScopesWithin n a.scopes → small → ScopesWithin n b.scopes ∧ within

variable {z a b c : Analysis} {n : Nat} {P small small' within within' : Prop}

namespace Adds

theorem refl (h : within) : Adds z n a a small within := ⟨Nat.le_refl _, id, id, fun _ _ scopes _ => ⟨scopes, h⟩⟩

theorem trans (h : Adds z n a b small within) (hbc : b.Extends c) (h' : Adds z n b c small' within') :
    Adds z n a c (small ∧ small') (within ∧ within') := by
  refine ⟨Nat.le_trans h.frame h'.frame, fun none => h'.outermost (h.outermost none),
    fun layered => h'.layered (h.layered layered), fun upTo layered scopes small => ?_⟩
  have upTo' : b.UpTo z n := ⟨hbc.trans upTo.grows, Nat.le_trans h'.frame upTo.frame⟩
  obtain ⟨scopes, first⟩ := h.within upTo' layered scopes small.1
  obtain ⟨scopes, second⟩ := h'.within upTo (h.layered layered) scopes small.2
  exact ⟨scopes, first, second⟩

theorem mono (h : Adds z n a b small within) (hs : small' → small) (hw : within → within') : Adds z n a b small' within' :=
  { h with within := fun upTo layered scopes small => (h.within upTo layered scopes (hs small)).imp_right hw }

theorem of_tame {N : Definition → Prop} (tame : TameBut N a b) (changes : ReflTransGen Analyze.Change a b) (h : within) :
    Adds z n a b small within :=
  ⟨Nat.le_of_eq (Analyze.TameBut.frame tame).symm, tame.function.trans, Analyze.Changes.layered changes,
    fun _ _ scopes _ => ⟨tame.scopes n scopes, h⟩⟩

end Adds

namespace Analyze

variable {α : Type}

theorem MeetsAt.also {m : Analyze α} {Post Post' : Analysis → α → Prop} (hm : MeetsAt P a m Post)
    (h : Post' (m.run a).2 (m.run a).1) : MeetsAt P a m Post' :=
  ⟨hm.grows, fun hP sound accepted => ⟨(hm.meets hP sound accepted).1, h⟩⟩

/-- A step of an expression. -/
theorem Confined.adds {Q : α → Prop} {m : Analyze α} (confined : Confined n Q m) (does : Does Mention m) :
    Adds z n a (m.run a).2 True (Q (m.run a).1) :=
  ⟨Nat.le_of_eq (TameBut.frame (Mentions.tame (does a))).symm, (Mentions.tame (does a)).function.trans,
    (Mentions.layered (does a)).mp,
    fun _ _ scopes _ => (confined a scopes).symm⟩

theorem gives_recordDecl (kind : Syntax.RecordKind) (name : String) (fds : Option (List Syntax.FieldDecl)) (span : Span) :
    Gives (recordDecl kind name fds span) fun k => ∀ v, k ≠ .var v := by
  unfold Analyze.recordDecl
  extract_lets decl define
  have noObject (id : Option RecordId) : ∀ v, decl id ≠ .var v := by rintro v ⟨⟩
  have defines (id : RecordId) : Gives (define id) fun k => ∀ v, k ≠ .var v := by
    dsimp only [define]
    cases fds with
    | none => exact .pure (noObject _)
    | some fields =>
      exact .skip fun a => .ite (.skip fun _ => .pure (noObject _))
        (.skip fun _ => .skip fun _ => .pure (noObject _))
  refine .skip fun a => ?_
  split
  · exact defines _
  · exact .skip fun _ => .pure (noObject _)
  · exact .skip fun id => defines id

theorem gives_enumDecl (name : Option String) (vs : List Syntax.Enumerator) (span : Span) :
    Gives (enumDecl name vs span) fun k => ∀ v, k ≠ .var v := by
  cases name with
  | none => exact .skip fun _ => .pure nofun
  | some tag => exact .skip fun a => .ite (.skip fun _ => .pure nofun) (.skip fun _ => .skip fun _ => .pure nofun)

theorem gives_typedefDecl (spec : Syntax.DeclSpec) (name : String) (d : Syntax.Declarator) (span : Span) :
    Gives (typedefDecl spec name d span) fun k => ∀ v, k ≠ .var v := by
  refine .skip fun base => .skip fun ty => .skip fun a => .ite (.skip fun _ => .pure nofun) ?_
  split
  · exact .ite (.skip fun _ => .skip fun _ => .skip fun _ => .pure nofun) (.pure nofun)
  · exact .skip fun _ => .pure nofun
  · exact .skip fun _ => .pure nofun

namespace MeetsAt

variable (z n)

theorem expr_adds {e : Syntax.Expr} (h : e.Written) :
    MeetsAt P a (Analyze.expr e) fun b e => Adds z n a b True (e.Within (· < n)) :=
  (expr h).also ((Confined.expr e).adds (Does.expr e))

/-! ## Declarations -/

theorem varDecl_adds {spec : Syntax.DeclSpec} {name : String} {d : Syntax.Declarator} {init : Option Syntax.Initializer}
    {span : Span} (hspec : spec.Written) (word : IsWord name) (hd : d.Written)
    (written : ∀ i, init = some i → Syntax.WrittenInit i) :
    MeetsAt P a (Analyze.varDecl spec name d init span) fun b v =>
      Adds z n a b (z.types.stride v.ty < UInt32.size) (v.Placed z n) := by
  have declared : MeetsAt P a (Analyze.varDecl spec name d init span) _ := varDecl hspec word hd written
  have meets := declared.and (varDecl_room hspec word hd written)
  have entered : EntersAt (Analyze.varDecl spec name d init span) a := EntersAt.varDecl
  have changes := Does.varDecl spec name d init span a
  unfold EntersAt at entered
  refine ⟨meets.grows, fun hP sound accepted => ?_⟩
  obtain ⟨sound', accepted, room⟩ := meets.meets hP sound accepted
  have initial (scopes : ScopesWithin n a.scopes) :
      ∀ i, ((Analyze.varDecl spec name d init span).run a).1.init = some i → WithinInit (· < n) i :=
    initialWithin_varDecl scopes
  unfold DoesAt at changes
  refine ⟨sound', ?_⟩
  generalize (Analyze.varDecl spec name d init span).run a = r at *
  obtain ⟨v, b⟩ := r
  refine ⟨entered.frame, entered.outermost, Changes.layered changes, fun upTo layered scopes small => ?_⟩
  have layered := Changes.layered changes layered
  have same (complete : b.types.isComplete v.ty) : z.types.slots v.ty = b.types.slots v.ty :=
    layered.slots_mono upTo.grows.complete complete
  have stride (complete : b.types.isComplete v.ty) : z.types.stride v.ty = b.types.stride v.ty := by
    unfold TypeTable.stride
    rw [same complete]
  refine ⟨entered.scopes n upTo.frame (fun slot known => stride (entered.slot slot known).1 ▸ small) scopes, ?_, ?_, entered.static, ?_⟩
  · exact fun i given => ⟨initial scopes i given, (accepted.init i given).mono upTo.grows, (room i given).mono upTo.grows⟩
  · intro slot known
    obtain ⟨complete, fits⟩ := entered.slot slot known
    refine ⟨TypeTable.isComplete_mono upTo.grows.complete complete, ?_⟩
    rw [stride complete] at small ⊢
    exact Nat.le_trans (fits small) upTo.frame
  · intro sized image known x mem
    obtain ⟨complete, folds⟩ := entered.image image known
    have sized : v.ty.Sized := by
      cases isExtern : v.isExtern with
      | true => exact sized isExtern
      | false => exact TypeTable.sized_of_isComplete (complete isExtern)
    cases given : v.init with
    | none =>
      rw [given] at folds
      cases folds
      cases mem
    | some i =>
      rw [given] at folds
      obtain ⟨complete, below⟩ := (room i given).image_inside layered sized 0 (accepted.init i given) folds x mem
      rw [stride complete]
      rw [Nat.zero_add] at below
      exact Nat.lt_of_lt_of_le below (Nat.le_max_left _ _)

/-- A declaration of anything but an object. -/
theorem other_adds {m : Analyze DeclKind} {N : Definition → Prop} {Post : Analysis → DeclKind → Prop} {span : Span}
    (hm : MeetsAt P a m Post) (tame : Does (TameBut N) m) (changes : Does Change m)
    (kind : Gives m fun k => ∀ v, k ≠ .var v) :
    MeetsAt P a m fun b k => Adds z n a b ((⟨k, span⟩ : Decl).Small z) ((⟨k, span⟩ : Decl).Placed z n) :=
  hm.also (.of_tame (tame_of_steps (tame a)) (changes a) fun v known => (kind a v known).elim)

theorem declKind_adds {spec : Syntax.DeclSpec} {d : Syntax.Decl} (hspec : spec.Written) (hd : d.Written) :
    MeetsAt P a (Analyze.declKind spec d) fun b k =>
      Adds z n a b ((⟨k, d.span⟩ : Decl).Small z) ((⟨k, d.span⟩ : Decl).Placed z n) := by
  have accepted := declKind (P := P) (a := a) hspec hd
  have changes := Does.declKind spec d
  obtain ⟨kind, span⟩ := d
  cases kind with
  | var name declarator init =>
    refine .bind (varDecl_adds z n hspec hd.1 hd.2.1 hd.2.2) fun v b => .pure fun known _ => ?_
    refine known.2.2.mono (fun small => small v rfl) fun placed v' same => ?_
    cases same
    exact placed
  | function name declarator externC =>
    exact other_adds z n accepted (Does.bind (Does.tame_functionHead _ _ _ _ _) fun _ => Does.pure _) changes
      (.skip fun _ => .pure nofun)
  | record kind name fds => exact other_adds z n accepted (Does.tame_recordDecl (N := fun _ => False) _ _ _ _) changes (gives_recordDecl _ _ _ _)
  | enum name variants => exact other_adds z n accepted (Does.tame_enumDecl (N := fun _ => False) _ _ _) changes (gives_enumDecl _ _ _)
  | typedef name declarator => exact other_adds z n accepted (Does.tame_typedefDecl (N := fun _ => False) _ _ _ _) changes (gives_typedefDecl _ _ _ _)

theorem decls_adds {spec : Syntax.DeclSpec} {ds : List Syntax.Decl} (hspec : spec.Written) (hds : ∀ d ∈ ds, d.Written) :
    MeetsAt P a (Analyze.decls spec ds) fun b ds => Adds z n a b (∀ d ∈ ds, d.Small z) (∀ d ∈ ds, d.Placed z n) := by
  induction ds generalizing P a with
  | nil => exact .pure fun _ _ => .refl nofun
  | cons d ds ih =>
    refine .bind (declKind_adds z n hspec (hds d List.mem_cons_self)) fun k b => ?_
    refine .bind (ih fun d mem => hds d (List.mem_cons_of_mem _ mem)) fun ds c => .pure fun known _ => ?_
    exact (known.1.2.2.trans known.2.1 known.2.2).mono List.forall_mem_cons.mp List.forall_mem_cons.mpr

theorem declGroup_adds {g : Syntax.DeclGroup} (hg : g.Written) :
    MeetsAt P a (Analyze.declGroup g) fun b g => Adds z n a b (∀ d ∈ g.decls, d.Small z) (∀ d ∈ g.decls, d.Placed z n) :=
  .bind (decls_adds z n hg.spec hg.decls) fun _ _ => .pure fun known _ => known.2.2

/-! ## Statements -/

theorem condition_adds {e : Syntax.Expr} (h : e.Written) :
    MeetsAt P a (Analyze.condition e) fun b e => Adds z n a b True (e.Within (· < n)) := by
  refine (condition h).also (Confined.adds ?_ (Does.condition e))
  refine .bind (Confined.expr e) fun e within => .ite ?_ (.pure within)
  exact .report_bind (Does.typeName _) fun _ => .report_bind (Does.report _ _) fun _ => .pure within

theorem condition?_adds {e : Option Syntax.Expr} (h : ∀ e', e = some e' → e'.Written) :
    MeetsAt P a (Analyze.condition? e) fun b c => Adds z n a b (∀ e, c = some e → True) (∀ e, c = some e → e.Within (· < n)) := by
  cases e with
  | none => exact .pure fun _ _ => .refl nofun
  | some e =>
    refine .bind (condition_adds z n (h e rfl)) fun e b => .pure fun known _ => ?_
    refine known.2.2.mono (fun _ => trivial) fun within e' same => ?_
    cases same
    exact within

theorem expr?_adds {e : Option Syntax.Expr} (h : ∀ e', e = some e' → e'.Written) :
    MeetsAt P a (Analyze.expr? e) fun b c => Adds z n a b (∀ e, c = some e → True) (∀ e, c = some e → e.Within (· < n)) := by
  cases e with
  | none => exact .pure fun _ _ => .refl nofun
  | some e =>
    refine .bind (expr_adds z n (h e rfl)) fun e b => .pure fun known _ => ?_
    refine known.2.2.mono (fun _ => trivial) fun within e' same => ?_
    cases same
    exact within

theorem returned_adds {f : FunctionContext} {value : Option Syntax.Expr} {span : Span}
    (h : ∀ e, value = some e → e.Written) :
    MeetsAt P a (Analyze.returned f value span) fun b r =>
      Adds z n a b (∀ e, r = some e → True) (∀ e, r = some e → e.Within (· < n)) := by
  refine (returned h).also ((Confined.adds (Q := fun r => ∀ e, r = some e → e.Within (· < n)) ?_ (Does.returned f value span)).mono
    (fun _ => trivial) id)
  cases value with
  | none => exact .ite (.report_bind (Does.report _ _) fun _ => .pure nofun) (.pure nofun)
  | some e =>
    refine .bind (Confined.expr e) fun e within => ?_
    have given (e' : Expr) (same : some e = some e') : e'.Within (· < n) := by
      cases same
      exact within
    refine .ite (.report_bind (Does.checkAssignable _ _ _) fun _ => .pure given) (.ite ?_ (.pure given))
    exact .report_bind (Does.report _ _) fun _ => .pure given

theorem forInit_adds {i : ForInit Syntax.Expr Syntax.DeclGroup} (h : Syntax.WrittenForInit i) :
    MeetsAt P a (Analyze.forInit i) fun b i =>
      Adds z n a b (EveryForInit (fun _ => True) (Decl.Small z) i) (EveryForInit (Expr.Within (· < n)) (Decl.Placed z n) i) := by
  cases i with
  | none => exact .pure fun _ _ => .refl trivial
  | decl node g => exact .bind (declGroup_adds z n h) fun _ _ => .pure fun known _ => known.2.2
  | expr node e => exact .bind (expr_adds z n h) fun _ _ => .pure fun known _ => known.2.2

/-- A scope of its own leaves those around it as they were. -/
theorem inScope_adds {α : Type} {scope : NameMap LocalSymbol} {m : Analyze α} {small within : α → Prop}
    (sound : P → ∀ name s, scope.get? name = some s → s.Sound)
    (hscope : P → ∀ name ty slot, scope.get? name = some (.var ty (.local slot)) → slot < n)
    (hm : ∀ b, MeetsAt P b m fun c x => Adds z n b c (small x) (within x)) :
    MeetsAt P a (Analyze.inScope scope m) fun b x => Adds z n a b (small x) (within x) := by
  have opens : MeetsAt P a (modify fun a : Analysis => { a with scopes := scope :: a.scopes })
      fun b _ => Adds z n a b True True := by
    refine update (.single (.scopes _)) (fun hP known => ?_) fun hP => ⟨Nat.le_refl _, id, id, fun _ _ scopes _ => ⟨?_, trivial⟩⟩
    · exact { known with scopes := List.forall_mem_cons.mpr ⟨sound hP, known.scopes⟩ }
    · exact List.forall_mem_cons.mpr ⟨hscope hP, scopes⟩
  have closes {P : Prop} {b : Analysis} :
      MeetsAt P b (modify fun a : Analysis => { a with scopes := a.scopes.tail }) fun c _ => Adds z n b c True True := by
    refine update (.single (.scopes _)) (fun _ known => ?_) fun _ => ⟨Nat.le_refl _, id, id, fun _ _ scopes _ => ⟨?_, trivial⟩⟩
    · exact { known with scopes := fun scope mem => known.scopes scope (List.mem_of_mem_tail mem) }
    · exact fun scope mem => scopes scope (List.mem_of_mem_tail mem)
  refine .bind opens fun _ b => .bind ((hm b).weaken fun h => h.1) fun x c => .bind closes fun _ d => .pure fun known _ => ?_
  obtain ⟨⟨⟨-, -, opened⟩, hbc, inside⟩, hcd, closed⟩ := known
  exact (opened.trans (hbc.trans hcd) (inside.trans hcd closed)).mono (fun s => ⟨trivial, s, trivial⟩) fun w => w.2.1

mutual

theorem stmt_adds {P : Prop} {a : Analysis} {f : FunctionContext} {inLoop : Bool} :
    ∀ {s : Syntax.Stmt}, Syntax.WrittenStmt s → MeetsAt P a (Analyze.stmt f inLoop s) fun b t =>
      Adds z n a b (EveryStmt (fun _ => True) (Decl.Small z) t) (EveryStmt (Expr.Within (· < n)) (Decl.Placed z n) t)
  | .null _, _ => .pure fun _ _ => .refl trivial
  | .expr _ e, h => .bind (expr_adds z n h) fun _ _ => .pure fun known _ => known.2.2
  | .decl _ g, h => .bind (declGroup_adds z n h) fun _ _ => .pure fun known _ => known.2.2
  | .compound _ ss, h => by
    refine .bind (inScope_adds z n (fun _ _ _ found => nomatch found) (fun _ => nofun) fun b => stmts_adds h) fun ss b => ?_
    exact .pure fun known _ => known.2.2
  | .ifThen _ c yes, h => by
    refine .bind (condition_adds z n h.1) fun c b => .bind (stmt_adds h.2) fun yes d => .pure fun known _ => ?_
    exact known.1.2.2.trans known.2.1 known.2.2
  | .ifElse _ c yes no, h => by
    refine .bind (condition_adds z n h.1) fun c b => .bind (stmt_adds h.2.1) fun yes d => ?_
    refine .bind (stmt_adds h.2.2) fun no e => .pure fun known _ => ?_
    obtain ⟨⟨⟨-, -, hc⟩, hbd, hyes⟩, hde, hno⟩ := known
    exact hc.trans (hbd.trans hde) (hyes.trans hde hno)
  | .while _ c body, h => by
    refine .bind (condition_adds z n h.1) fun c b => .bind (stmt_adds h.2) fun body d => .pure fun known _ => ?_
    exact known.1.2.2.trans known.2.1 known.2.2
  | .doWhile _ body c, h => by
    refine .bind (stmt_adds h.2) fun body b => .bind (condition_adds z n h.1) fun c d => .pure fun known _ => ?_
    exact (known.1.2.2.trans known.2.1 known.2.2).mono And.symm And.symm
  | .for _ init c step body, h => by
    refine inScope_adds z n (fun _ _ _ found => nomatch found) (fun _ => nofun) fun a => ?_
    refine .bind (forInit_adds z n h.1) fun init b₁ => .bind (condition?_adds z n h.2.1) fun c b₂ => ?_
    refine .bind (expr?_adds z n h.2.2.1) fun step b₃ => .bind (stmt_adds h.2.2.2) fun body b₄ => ?_
    refine .pure fun known _ => ?_
    obtain ⟨⟨⟨⟨-, -, hinit⟩, h₁₂, hc⟩, h₂₃, hstep⟩, h₃₄, hbody⟩ := known
    exact hinit.trans (h₁₂.trans (h₂₃.trans h₃₄)) (hc.trans (h₂₃.trans h₃₄) (hstep.trans h₃₄ hbody))
  | .break _, _ | .continue _, _ =>
    .ite (fun _ => .report_bind _ _ (Does.pure _)) fun h => .pure fun _ _ => .refl trivial
  | .return _ value, h => .bind (returned_adds z n h) fun _ _ => .pure fun known _ => known.2.2

theorem stmts_adds {P : Prop} {a : Analysis} {f : FunctionContext} {inLoop : Bool} :
    ∀ {ss : List Syntax.Stmt}, Syntax.WrittenStmts ss → MeetsAt P a (Analyze.stmts f inLoop ss) fun b ts =>
      Adds z n a b (EveryStmts (fun _ => True) (Decl.Small z) ts) (EveryStmts (Expr.Within (· < n)) (Decl.Placed z n) ts)
  | [], _ => .pure fun _ _ => .refl trivial
  | s :: ss, h => by
    refine .bind (stmt_adds h.1) fun s b => .bind (stmts_adds h.2) fun ss c => .pure fun known _ => ?_
    exact known.1.2.2.trans known.2.1 known.2.2

end

/-! ## Function definitions -/

/-- One family of results. -/
theorem all {α ι : Type} {Q : ι → Prop} {m : Analyze α} {Post : ι → Analysis → α → Prop} (i : ι) (hi : Q i)
    (h : ∀ i, Q i → MeetsAt P a m (Post i)) : MeetsAt P a m fun b x => ∀ i, Q i → Post i b x :=
  ⟨(h i hi).grows, fun hP sound accepted =>
    ⟨((h i hi).meets hP sound accepted).1, fun j hj => ((h j hj).meets hP sound accepted).2⟩⟩

/-- The parameters of a function are the first objects of its frame. -/
def HeadNumbered (f : FunctionDecl) : Prop := ∀ p ∈ f.params, p.slot < f.params.length

/-- They lie there in their order. -/
def HeadOrdered (f : FunctionDecl) : Prop := ∀ (i : Nat) (p : Param), f.params[i]? = some p → p.slot = i

theorem HeadOrdered.numbered {f : FunctionDecl} (h : HeadOrdered f) : HeadNumbered f := by
  intro p mem
  obtain ⟨i, inside, same⟩ := List.getElem_of_mem mem
  rw [h i p (List.getElem?_eq_some_iff.mpr ⟨inside, same⟩)]
  exact inside

theorem params_ordered (slot : Nat) (ps : List Syntax.Param) :
    Gives (Analyze.params slot ps) fun ps => ∀ (i : Nat) (p : Param), ps[i]? = some p → p.slot = slot + i := by
  induction ps generalizing slot with
  | nil => exact .pure fun i p found => by cases found
  | cons p ps ih =>
    obtain ⟨spec, d, span⟩ := p
    rw [Analyze.params]
    refine .skip fun base => .skip fun ty => ?_
    have rest : Gives (do return { name := d.name, ty := ty.decay, slot } :: (← Analyze.params (slot + 1) ps) : Analyze (List Param))
        fun ps => ∀ (i : Nat) (p : Param), ps[i]? = some p → p.slot = slot + i := by
      refine .bind (ih (slot + 1)) fun ps ordered => .pure fun i p found => ?_
      cases i with
      | zero =>
        cases found
        rfl
      | succ i =>
        rw [ordered i p found]
        omega
    exact .ite (.skip fun _ => rest) rest

theorem functionHead_ordered (spec : Syntax.DeclSpec) (name : String) (d : Syntax.Declarator) (externC hasBody : Bool) :
    Gives (Analyze.functionHead spec name d externC hasBody) fun r => HeadOrdered r.1 := by
  refine .skip fun base => ?_
  dsimp only
  split
  · refine .bind (params_ordered 0 _) fun ps ordered => .skip fun a => ?_
    have ordered (i : Nat) (p : Param) (found : ps[i]? = some p) : p.slot = i := Nat.zero_add i ▸ ordered i p found
    split
    · exact .ite (.skip fun _ => .pure ordered) (.ite (.skip fun _ => .pure ordered) (.skip fun _ => .pure ordered))
    · exact .skip fun _ => .pure ordered
    · exact .skip fun _ => .pure ordered
  · exact .skip fun _ => .pure fun i p found => by cases found

theorem scopesWithin_mono {n n' : Nat} {scopes : List (NameMap LocalSymbol)} (h : ScopesWithin n scopes)
    (le : n ≤ n') : ScopesWithin n' scopes :=
  fun scope mem name ty slot found => Nat.lt_of_lt_of_le (h scope mem name ty slot found) le

/-- A body whose objects are small keeps to its frame. -/
def KeepsTo (z : Analysis) (f : FunctionDecl) (body : Typed.Stmt) : Prop :=
  EveryStmt (fun _ => True) (Decl.Small z) body → EveryStmt (Expr.Within (· < f.frameSlots)) (Decl.Placed z f.frameSlots) body

theorem functionBody_placed {f : FunctionDecl} {body : Syntax.Stmt} (object : P → ∀ p ∈ f.params, p.ty.IsObject)
    (h : Syntax.WrittenStmt body) (numbered : P → HeadNumbered f) :
    MeetsAt P a (Analyze.functionBody f body) fun b r =>
      ScopesWithin 0 a.scopes → a.types.Layered → b.Extends z → KeepsTo z r.1 r.2 := by
  let context : FunctionContext := { name := f.name, ret := f.ret, nextSlot := f.params.length }
  refine .bind (M := fun b _ => b = { a with function := some context })
    (update (.single (.function _)) (fun _ sound => { sound with }) fun _ => rfl) fun _ b => ?_
  refine .bind (all f.params.length (Nat.le_refl _) fun n (le : f.params.length ≤ n) => inScope_adds z n
    (fun known => paramScope_sound (object known.1)) (fun known name ty slot found => ?_) fun c => stmt_adds z n h)
    fun body c => .get ?_
  · obtain ⟨p, mem, same⟩ := paramScope_entry found
    cases same
    exact Nat.lt_of_lt_of_le (numbered known.1 p mem) le
  · refine .bind (M := fun _ _ => True)
      (update (.single (.function _)) (fun _ sound => { sound with }) fun _ => trivial) fun _ d => .pure fun known _ => ?_
    obtain ⟨⟨⟨-, -, rfl⟩, -, adds⟩, hcd, -⟩ := known
    intro scopes layered grows
    have enough : f.params.length ≤ c.frame := (adds f.params.length (Nat.le_refl _)).frame
    exact fun small => ((adds c.frame enough).within ⟨hcd.trans grows, Nat.le_refl _⟩ layered
      (scopesWithin_mono scopes (Nat.zero_le _)) small).2

theorem functionDefinition_placed {spec : Syntax.DeclSpec} {d : Syntax.Decl} {body : Syntax.Stmt} (hspec : spec.Written)
    (hd : d.Written) (h : Syntax.WrittenStmt body) :
    MeetsAt P a (Analyze.functionDefinition spec d body) fun b r =>
      a.function = none → ScopesWithin 0 a.scopes → a.types.Layered → b.Extends z →
        (r.1.Small z → r.1.Placed z 0) ∧ ∀ f s, r.1.kind = .function f → r.2 = some s → KeepsTo z f s := by
  have other {d : Syntax.Decl} (hd : d.Written) : MeetsAt P a (do
      return (⟨← Analyze.declKind spec d, d.span⟩, none) : Analyze (Decl × Option Typed.Stmt)) fun b r =>
        a.function = none → ScopesWithin 0 a.scopes → a.types.Layered → b.Extends z →
          (r.1.Small z → r.1.Placed z 0) ∧ ∀ f s, r.1.kind = .function f → r.2 = some s → KeepsTo z f s := by
    refine .bind (declKind_adds z 0 hspec hd) fun k b => .pure fun known _ none scopes layered grows => ⟨fun small => ?_, nofun⟩
    have outside : b.frame = 0 := by
      unfold Analysis.frame
      rw [known.2.2.outermost none]
      rfl
    exact (known.2.2.within ⟨grows, Nat.le_of_eq outside⟩ layered scopes small).2
  obtain ⟨kind, span⟩ := d
  unfold Analyze.functionDefinition
  cases kind with
  | function name declarator externC =>
    have kept : MeetsAt P a (Analyze.functionHead spec name declarator externC true) fun b r =>
        HeadNumbered r.1 ∧ (ScopesWithin 0 a.scopes → ScopesWithin 0 b.scopes) ∧ (a.types.Layered → b.types.Layered) :=
      (functionHead hspec hd.1 hd.2).also
        ⟨(functionHead_ordered spec name declarator externC true a).numbered,
          (tame_of_steps (Does.tame_functionHead spec name declarator externC true a)).scopes 0,
          Changes.layered (Does.functionHead spec name declarator externC true a)⟩
    refine .bind ((functionHead hspec hd.1 hd.2).and kept) fun r b => ?_
    obtain ⟨f, entered⟩ := r
    refine .ite (fun _ => .pure fun _ _ _ _ _ _ => ⟨fun _ => nofun, nofun⟩) fun _ => .get ?_
    refine .ite (fun _ => .get (.report_bind _ _ (Does.pure _))) fun _ => ?_
    refine .bind (functionBody_placed z (fun known p mem => ?_) h fun known => known.1.1.2.2.2.1) fun r c => ?_
    · exact known.1.1.2.2.1.sound.params _ (List.mem_map.mpr ⟨p, mem, rfl⟩)
    · refine .pure fun known _ _ scopes layered grows => ⟨fun _ => nofun, fun g s hg hs => ?_⟩
      obtain ⟨⟨⟨⟨-, -, -, -, scopesKept, layeredKept⟩, -⟩, -⟩, -, placed⟩ := known
      cases hg
      cases hs
      exact placed (scopesKept scopes) (layeredKept layered) grows
  | var name declarator init => exact other hd
  | record kind name fds => exact other hd
  | enum name variants => exact other hd
  | typedef name declarator => exact other hd

end MeetsAt

end Analyze

/-! ## Groups -/

namespace Typed.TopLevel

/-- All objects of the group are small. -/
structure Small (z : Analysis) (t : TopLevel) : Prop where
  decls : ∀ d ∈ t.group.decls, d.Small z
  body : ∀ s, t.body = some s → EveryStmt (fun _ => True) (Decl.Small z) s

/-- The objects of the group lie in the frame of its function, those outside of functions in none. -/
structure Placed (z : Analysis) (t : TopLevel) : Prop where
  decls : ∀ d ∈ t.group.decls, d.Placed z 0
  body : ∀ f s, t.function? = some f → t.body = some s → EveryStmt (Expr.Within (· < f.frameSlots)) (Decl.Placed z f.frameSlots) s

end Typed.TopLevel

theorem Analyze.MeetsAt.topLevel_placed (z : Analysis) {t : Syntax.TopLevel} (h : t.Written) :
    MeetsAt P a (Analyze.topLevel t) fun b t => a.function = none → ScopesWithin 0 a.scopes → a.types.Layered → b.Extends z →
      t.Small z → t.Placed z := by
  unfold Analyze.topLevel
  dsimp only
  split
  · rename_i body last hbody hlast
    have mem : last ∈ t.group.decls := List.mem_of_getLast? hlast
    have before : ∀ d ∈ t.group.decls.dropLast, d.Written := fun d hd => h.group.decls d (List.dropLast_subset _ hd)
    refine .bind (decls_adds z 0 h.group.spec before) fun before b => ?_
    refine .bind (functionDefinition_placed z h.group.spec (h.group.decls last mem) (h.body body hbody)) fun r c => ?_
    refine .pure fun known _ none scopes layered grows small => ?_
    obtain ⟨⟨-, -, first⟩, hbc, second⟩ := known
    have outside : b.frame = 0 := by
      unfold Analysis.frame
      rw [first.outermost none]
      rfl
    obtain ⟨scopes', before⟩ := first.within ⟨hbc.trans grows, Nat.le_of_eq outside⟩ layered scopes
      fun d mem => small.decls d (List.mem_append_left _ mem)
    obtain ⟨lastDecl, inBody⟩ := second (first.outermost none) scopes' (first.layered layered) grows
    refine ⟨fun d mem => ?_, fun f s function given => ?_⟩
    · rcases List.mem_append.mp mem with mem | mem
      · exact before d mem
      · cases List.mem_singleton.mp mem
        exact lastDecl (small.decls _ (List.mem_append_right _ List.mem_cons_self))
    · obtain ⟨d, last, kind⟩ := Typed.TopLevel.function?_eq_some function
      have same : d = r.1 := by simpa using last.symm
      exact inBody f s (same ▸ kind) given (small.body s given)
  · refine .bind (declGroup_adds z 0 h.group) fun g b => .pure fun known _ none scopes layered grows small => ?_
    have outside : b.frame = 0 := by
      unfold Analysis.frame
      rw [known.2.2.outermost none]
      rfl
    exact ⟨(known.2.2.within ⟨grows, Nat.le_of_eq outside⟩ layered scopes small.decls).2, nofun⟩

/-- In an accepted group whose objects are small, every object with its initial value lies where it is used. -/
theorem Analysis.analyze_placed {a z : Analysis} (sound : a.Sound) (layered : a.types.Layered) (function : a.function = none)
    (scopes : a.scopes = []) {t : Syntax.TopLevel} (written : t.Written) {t' : Typed.TopLevel}
    (accepted : (a.analyze t).1 = .ok t') (grows : (a.analyze t).2.Extends z) (small : t'.Small z) : t'.Placed z := by
  obtain ⟨b, -, placed, empty, behind⟩ := Analyze.MeetsAt.analyze_ok sound accepted (.topLevel_placed z written)
  rw [behind] at grows
  refine placed function (fun scope mem => ?_) layered { grows with errors := fun _ => empty } small
  rw [show ({ a with errors := #[] } : Analysis).scopes = a.scopes from rfl, scopes] at mem
  cases mem

/-- Between two groups no function is open. -/
theorem Analysis.Reached.outermost {a : Analysis} (h : a.Reached) : a.function = none ∧ a.scopes = [] := by
  induction h with
  | start | accepted _ _ _ | rejected _ | rollback _ _ => exact ⟨rfl, rfl⟩
  | commit _ ih | fallback _ _ _ ih | hooks _ _ ih | handedOut _ _ ih => exact ih

/-! ## Objects that are made up -/

/-- The declaration of an object for a value that the fallback knows. -/
def Typed.Decl.MadeUp (d : Decl) : Prop := ∃ name ty value, d.kind = .var
  { name, ty, init := none, storage := .global, linkName := name, isExtern := false, constantInit := some [(0, value)] }

theorem Typed.Decl.MadeUp.placed {d : Decl} (h : d.MadeUp) (z : Analysis) (n : Nat) : d.Placed z n := by
  obtain ⟨name, ty, value, kind⟩ := h
  intro v known
  rw [kind] at known
  cases known
  refine ⟨nofun, nofun, nofun, fun _ image same x mem => ?_⟩
  cases same
  cases List.mem_singleton.mp mem
  exact Nat.le_max_right _ _

theorem Analyze.Change.madeUp {a b : Analysis} (h : Change a b) (known : ∀ d ∈ a.synthesized, d.MadeUp) :
    ∀ d ∈ b.synthesized, d.MadeUp := by
  cases h with
  | mention h =>
    cases h with
    | report h => cases h; exact known
    | record _ => exact known
    | @value name ty value span _ _ =>
      intro d mem
      rcases Array.mem_push.mp mem with mem | rfl
      · exact known d mem
      · exact ⟨name, ty, value, rfl⟩
  | complete present _ _ _ =>
    rw [run_defineRecord, present]
    exact known
  | global _ | enum _ | scopes _ | function _ => exact known

theorem Analysis.analyze_madeUp {a : Analysis} (none : a.synthesized = #[]) (t : Syntax.TopLevel) :
    ∀ d ∈ (a.analyze t).2.synthesized, d.MadeUp := by
  have changes : ∀ {b c : Analysis}, ReflTransGen Analyze.Change b c → (∀ d ∈ b.synthesized, d.MadeUp) →
      ∀ d ∈ c.synthesized, d.MadeUp := by
    intro b c h known
    induction h with
    | refl => exact known
    | tail _ step ih => exact step.madeUp ih
  show ∀ d ∈ ((Analyze.topLevel t).run { a with errors := #[] }).2.synthesized, d.MadeUp
  refine changes (analyze_changes a t) fun d mem => ?_
  rw [show ({ a with errors := #[] } : Analysis).synthesized = a.synthesized from rfl, none] at mem
  exact absurd mem (Array.not_mem_empty d)

end IncrementalC
