import IncrementalC.Proofs.Lowering.Piece
import IncrementalC.Proofs.Machine.Frames
import IncrementalC.Proofs.Typed.EveryPart

/-!
# What the code of expressions is composed of

`Piece.Composed L p`: the piece is put together from plain instructions, addresses of string literals and addresses of
slots that satisfy `L`, one behind the other or as the code of a logical or a conditional operator. The code of an
expression or of an initial value is of this kind (`composed_rvalue`, `composed_initObject`), so what the parts have in
common is proved once for each of them.

`Piece.Inward p`: the instructions of `p` do not return, and jump inside of `p` or to its end. Composed code is of this
kind, so it is left at its end only.
-/
namespace IncrementalC
set_option autoImplicit false
open Typed (Expr Initializer Binding WithinAll WithinInit WithinInits)

/-- What runs behind the instruction is the next one, or a function that it calls. -/
def Instr.goesOn (i : Instr) : Bool := i.target?.isNone && !i.isReturn

/-- Moreover, it names neither a local object nor a string literal. -/
def Instr.isPlain : Instr → Bool
  | .localAddr _ | .pushStr _ => false
  | i => i.goesOn

theorem Instr.goesOn_of_isPlain {i : Instr} (h : i.isPlain) : i.goesOn := by
  cases i <;> first | exact h | rfl

namespace Lowering

variable {α β : Type}

theorem bind_eq_ok {m : Gen α} {f : α → Gen β} {g g'' : CodeModule} {y : β}
    (h : (m >>= f) g = .ok (y, g'')) : ∃ x g', m g = .ok (x, g') ∧ f x g' = .ok (y, g'') := by
  have h : StateT.bind m f g = .ok (y, g'') := h
  unfold StateT.bind at h
  cases run : m g with
  | error e =>
    rw [run] at h
    cases h
  | ok x =>
    rw [run] at h
    exact ⟨x.1, x.2, rfl, h⟩

/-! ## Plain code -/

/-- The production leaves the module as it is and yields plain instructions, the same ones for all modules. -/
def Quiet (m : Gen (List Instr)) : Prop :=
  ∀ g c g', m g = .ok (c, g') → g' = g ∧ (∀ i ∈ c, i.isPlain) ∧ ∀ g, m g = .ok (c, g)

namespace Quiet

theorem pure {c : List Instr} (h : ∀ i ∈ c, i.isPlain) : Quiet (Pure.pure c) := by
  intro g d g' run
  cases run
  exact ⟨rfl, h, fun _ => rfl⟩

theorem single {i : Instr} (h : i.isPlain) : Quiet (Pure.pure [i]) := pure (List.forall_mem_singleton.mpr h)

theorem fail (problem : LoweringProblem) (span : Span) : Quiet (fail problem span) := nofun

/-- Plain code that takes the value of an option. -/
theorem need {x : Option β} {problem : LoweringProblem} {span : Span} {f : β → Gen (List Instr)}
    (h : ∀ y, Quiet (f y)) : Quiet (need x problem span >>= f) := by
  cases x with
  | none => exact nofun
  | some y => exact h y

end Quiet

theorem plain_append {c d : List Instr} (hc : ∀ i ∈ c, i.isPlain) (hd : ∀ i ∈ d, i.isPlain) : ∀ i ∈ c ++ d, i.isPlain :=
  List.forall_mem_append.mpr ⟨hc, hd⟩

theorem plain_convert (source target : Ty) : ∀ i ∈ convert source target, i.isPlain := by
  unfold convert
  split
  · split
    · exact List.forall_mem_nil _
    · exact List.forall_mem_singleton.mpr rfl
  · exact List.forall_mem_nil _

/-! ## Pieces -/

inductive Piece.Composed (L : Nat → Prop) : Piece → Prop where
  | quiet {m : Gen (List Instr)} (h : Quiet m) : Composed L (.gen m)
  | slot {slot : Nat} (h : L slot) : Composed L (.code [.localAddr slot])
  | string (s : String) : Composed L (stringAddress s)
  | append {p q : Piece} (hp : Composed L p) (hq : Composed L q) : Composed L (p ++ q)
  | logical (op : BinaryOp) {p q : Piece} (hp : Composed L p) (hq : Composed L q) : Composed L (logical op p q)
  | conditional {c p q : Piece} (hc : Composed L c) (hp : Composed L p) (hq : Composed L q) :
    Composed L (conditional c p q)

namespace Piece.Composed

variable {L : Nat → Prop} {p q : Piece}

theorem mono {L' : Nat → Prop} (hp : Composed L p) (h : ∀ slot, L slot → L' slot) : Composed L' p := by
  induction hp with
  | quiet hm => exact .quiet hm
  | slot known => exact .slot (h _ known)
  | string s => exact .string s
  | append _ _ hp hq => exact .append hp hq
  | logical op _ _ hp hq => exact .logical op hp hq
  | conditional _ _ _ hc hp hq => exact .conditional hc hp hq

theorem code {c : List Instr} (h : ∀ i ∈ c, i.isPlain) : Composed L (.code c) := quiet (.pure h)

theorem single {i : Instr} (h : i.isPlain) : Composed L (.code [i]) := code (List.forall_mem_singleton.mpr h)

theorem fail (problem : LoweringProblem) (span : Span) : Composed L (.gen (fail problem span)) := quiet (.fail _ _)

theorem ite {c : Prop} [Decidable c] (hp : Composed L p) (hq : Composed L q) : Composed L (if c then p else q) := by
  split
  · exact hp
  · exact hq

end Piece.Composed

section Parts

variable {types : TypeTable} {L : Nat → Prop} {p q : Piece}

theorem composed_load (ty : Ty) (span : Span) : (load types ty span).Composed L := by
  refine .quiet ?_
  split
  · exact .pure (List.forall_mem_nil _)
  · exact .need fun _ => .single rfl

theorem composed_discard (ty : Ty) (hp : p.Composed L) : (discard ty p).Composed L := .ite hp (hp.append (.single rfl))

theorem composed_movePointer (ty : Ty) (negate : Bool) (stride : Int64) : (movePointer ty negate stride).Composed L := by
  refine .code (plain_append (plain_append (plain_convert _ _) ?_) (List.forall_mem_singleton.mpr rfl))
  split
  · exact List.forall_mem_singleton.mpr rfl
  · exact List.forall_mem_nil _

theorem composed_elementAddress (elem baseTy indexTy : Ty) (hp : p.Composed L) (hq : q.Composed L) :
    (elementAddress types elem baseTy indexTy p q).Composed L :=
  .ite ((hp.append hq).append (composed_movePointer _ _ _)) ((hq.append hp).append (composed_movePointer _ _ _))

theorem composed_fieldOffset (record : Option Ty) (field : String) (span : Span) :
    (fieldOffset types record field span).Composed L := by
  refine .quiet ?_
  split
  · refine .need fun f => .pure ?_
    split
    · exact List.forall_mem_cons.mpr ⟨rfl, List.forall_mem_singleton.mpr rfl⟩
    · exact List.forall_mem_nil _
  · exact .fail _ _

theorem composed_variableAddress {binding : Binding} (problem : LoweringProblem) (span : Span)
    (h : ∀ slot, binding = .local slot → L slot) : (variableAddress binding problem span).Composed L := by
  cases binding with
  | «local» slot => exact .slot (h slot rfl)
  | global name => exact .single rfl
  | _ => exact .fail _ _

theorem composed_binary (op : BinaryOp) (a b : Ty) (i : Typed.Info) (hp : p.Composed L) (hq : q.Composed L) :
    (binary types op a b i p q).Composed L := by
  unfold binary
  refine .ite (.logical op hp hq) ?_
  dsimp only
  split
  · exact (hp.append hq).append (composed_movePointer _ _ _)
  · exact (hq.append hp).append (composed_movePointer _ _ _)
  · exact (hp.append hq).append (.single rfl)
  · refine (((hp.append (.code (plain_convert _ _))).append hq).append (.code (plain_convert _ _))).append (.quiet ?_)
    exact .need fun _ => .need fun _ => .single rfl

/-- The rest of a compound assignment, once the address of the object stands twice on the stack. -/
def updating (types : TypeTable) (op : BinaryOp) (kind : Scalar) (a b : Ty) (span : Span) (value : Piece) : Piece :=
  if a.isPointer then
    .code [.load kind] ++ (value ++ (movePointer b (op = .sub) (pointeeStride types a) ++ .code [.store kind]))
  else
    let common := Typed.operationType op a b
    .code [.load kind] ++ (.code (convert a common) ++ (value ++ (.code (convert b common) ++ .gen do
      let op ← need (machineOp? op) .logicalCompound span
      let commonKind ← need (kindOf? common) .compoundOperand span
      return .binary op commonKind :: convert common a ++ [.store kind])))

theorem compound_eq (op : BinaryOp) (kind : Scalar) (a b : Ty) (span : Span) :
    compound types op kind a b span p q = p ++ (.code [.dup] ++ updating types op kind a b.decay span q) := by
  have old : Piece.code [.dup, .load kind] = .code [.dup] ++ .code [.load kind] := Piece.code_append [.dup] [.load kind]
  unfold compound updating
  simp only [old]
  split <;> simp only [Piece.append_assoc]

theorem composed_updating (op : BinaryOp) (kind : Scalar) (a b : Ty) (span : Span) (hq : q.Composed L) :
    (updating types op kind a b span q).Composed L := by
  refine .ite ((Piece.Composed.single rfl).append (hq.append ((composed_movePointer _ _ _).append (.single rfl)))) ?_
  refine (Piece.Composed.single rfl).append (.append (.code (plain_convert _ _)) (hq.append (.append (.code (plain_convert _ _)) (.quiet ?_))))
  refine .need fun _ => .need fun _ => .pure (List.forall_mem_cons.mpr ⟨rfl, ?_⟩)
  exact plain_append (plain_convert _ _) (List.forall_mem_singleton.mpr rfl)

theorem composed_compound (op : BinaryOp) (kind : Scalar) (a b : Ty) (span : Span) (hp : p.Composed L)
    (hq : q.Composed L) : (compound types op kind a b span p q).Composed L := by
  rw [compound_eq]
  exact hp.append ((Piece.Composed.single rfl).append (composed_updating op kind a b.decay span hq))

theorem composed_assign (op : Option BinaryOp) (a b : Ty) (span : Span) (hp : p.Composed L) (hq : q.Composed L) :
    (assign types op a b span p q).Composed L := by
  refine .ite ?_ ?_
  · split
    · exact .fail _ _
    · exact (hp.append hq).append (.single rfl)
  · split
    · exact .fail _ _
    · split
      · exact (hp.append hq).append (.code (plain_append (plain_convert _ _) (List.forall_mem_singleton.mpr rfl)))
      · exact composed_compound _ _ _ _ _ hp hq

theorem composed_increment (ty : Ty) (up post : Bool) (span : Span) (hp : p.Composed L) :
    (increment types ty up post span p).Composed L :=
  hp.append (.quiet (.need fun _ => .single rfl))

theorem composed_unary (op : UnaryOp) (ty : Ty) (i : Typed.Info) (hp : p.Composed L) :
    (unary types op ty i p).Composed L := by
  cases op with
  | neg | bitNot => exact (hp.append (.code (plain_convert _ _))).append (.quiet (.need fun _ => .single rfl))
  | not => exact hp.append (.quiet (.need fun _ => .single rfl))
  | deref => exact hp.append (composed_load _ _)
  | plus | addrOf | preInc | preDec | postInc | postDec => exact hp.append (.code (plain_convert _ _))

theorem composed_passed (params : List Ty) {args : List (Expr × Piece)} (h : ∀ x ∈ args, x.2.Composed L) :
    (passed params args).Composed L := by
  induction args generalizing params with
  | nil => exact .code (List.forall_mem_nil _)
  | cons x args ih =>
    obtain ⟨first, rest⟩ := List.forall_mem_cons.mp h
    exact (Piece.Composed.ite (.fail _ _) (first.append (.code (plain_convert _ _)))).append (ih _ rest)

theorem composed_call (a : Analysis) (i : Typed.Info) (name : String) (target : Binding)
    {args : List (Expr × Piece)} (h : ∀ x ∈ args, x.2.Composed L) : (call a i name target args).Composed L := by
  unfold call
  split
  · split
    · exact (composed_passed _ h).append (.single rfl)
    · exact .fail _ _
  · split
    · exact (h _ List.mem_cons_self).append (.single rfl)
    · exact .fail _ _
  · split
    · exact (h _ List.mem_cons_self).append (.single rfl)
    · exact .fail _ _
  · split
    · exact (composed_passed _ h).append (.single rfl)
    · exact .fail _ _
  · exact .fail _ _

end Parts

/-! ## Expressions -/

variable {a : Analysis} {L : Nat → Prop}

mutual

theorem composed_lvalue : ∀ {e : Expr}, e.Within L → (lvalue a e).Composed L
  | .ident .., h => composed_variableAddress _ _ h
  | .unary _ op e, h => by
    cases op with
    | deref => exact composed_rvalue (e := e) h
    | _ => exact .fail _ _
  | .index _ base index, h => composed_elementAddress _ _ _ (composed_rvalue h.1) (composed_rvalue h.2)
  | .member _ base _ true, h => (composed_rvalue (e := base) h).append (composed_fieldOffset _ _ _)
  | .member _ base _ false, h => (composed_lvalue (e := base) h).append (composed_fieldOffset _ _ _)
  | .str _ s, _ => .string s
  | .int .., _ | .float .., _ | .char .., _ | .bool .., _ | .null _, _ | .binary .., _ | .assign .., _
  | .conditional .., _ | .call .., _ | .cast .., _ | .sizeofType .., _ | .sizeofExpr .., _ | .comma .., _
  | .invalid _, _ => .fail _ _

theorem composed_rvalue : ∀ {e : Expr}, e.Within L → (rvalue a e).Composed L
  | .int .., _ | .float .., _ | .char .., _ | .bool .., _ | .null _, _ | .sizeofType .., _ | .sizeofExpr .., _ =>
    .single rfl
  | .str _ s, _ => .string s
  | .ident _ _ binding, h => by
    cases binding with
    | enumConst v => exact .single rfl
    | _ => exact (composed_variableAddress _ _ h).append (composed_load _ _)
  | .unary i op e, h => by
    have applied (op : UnaryOp) : (unary a.types op e.ty i (rvalue a e)).Composed L :=
      composed_unary op e.ty i (composed_rvalue (e := e) h)
    have address := composed_lvalue (e := e) h
    cases op with
    | addrOf => exact address
    | preInc | preDec | postInc | postDec => exact composed_increment _ _ _ _ address
    | neg => exact applied .neg
    | bitNot => exact applied .bitNot
    | not => exact applied .not
    | deref => exact applied .deref
    | plus => exact applied .plus
  | .binary i op x y, h => composed_binary _ _ _ _ (composed_rvalue h.1) (composed_rvalue h.2)
  | .assign i op x y, h => composed_assign _ _ _ _ (composed_lvalue h.1) (composed_rvalue h.2)
  | .conditional i c x y, h => by
    have branch (ty : Ty) {p : Piece} (hp : p.Composed L) : (rvalue.branch i.ty ty p).Composed L :=
      .ite (composed_discard _ hp) (hp.append (.code (plain_convert _ _)))
    exact .conditional (composed_rvalue h.1) (branch _ (composed_rvalue h.2.1)) (branch _ (composed_rvalue h.2.2))
  | .call i name target args, h => composed_call a i name target (composed_rvalues h)
  | .index i base index, h =>
    (composed_elementAddress _ _ _ (composed_rvalue h.1) (composed_rvalue h.2)).append (composed_load _ _)
  | .member i base field true, h =>
    ((composed_rvalue (e := base) h).append (composed_fieldOffset _ _ _)).append (composed_load _ _)
  | .member i base field false, h =>
    ((composed_lvalue (e := base) h).append (composed_fieldOffset _ _ _)).append (composed_load _ _)
  | .cast _ target e, h => by
    have value := composed_rvalue (e := e) h
    exact .ite (composed_discard _ value) (value.append (.code (plain_convert _ _)))
  | .comma _ x y, h => (composed_discard _ (composed_rvalue h.1)).append (composed_rvalue h.2)
  | .invalid _, _ => .fail _ _

theorem composed_rvalues : ∀ {es : List Expr}, WithinAll L es → ∀ x ∈ rvalues a es, x.2.Composed L
  | [], _ => nofun
  | _ :: _, h => List.forall_mem_cons.mpr ⟨composed_rvalue h.1, composed_rvalues h.2⟩

end

/-! ## Initial values -/

/-- The slot at the offset satisfies `L` if the place is a local object. -/
def Place.At (L : Nat → Prop) (offset : Nat) : Place → Prop
  | .local slot => L (slot + slotWord offset)
  | .global _ => True

variable {place : Place}

theorem composed_address {offset : Nat} (h : place.At L offset) : (Piece.code (place.address offset)).Composed L := by
  cases place with
  | «local» slot => exact .slot h
  | global name =>
    refine .code (List.forall_mem_cons.mpr ⟨rfl, ?_⟩)
    split
    · exact List.forall_mem_cons.mpr ⟨rfl, List.forall_mem_singleton.mpr rfl⟩
    · exact List.forall_mem_nil _

theorem composed_storeWord {offset : Nat} (h : place.At L offset) (word : Int64) (kind : Scalar) :
    (Piece.code (place.address offset ++ [.pushInt word, .store kind, .pop])).Composed L := by
  rw [Piece.code_append]
  refine (composed_address h).append (.code (List.forall_mem_cons.mpr ⟨rfl, ?_⟩))
  exact List.forall_mem_cons.mpr ⟨rfl, List.forall_mem_singleton.mpr rfl⟩

theorem composed_flatMap {γ : Type} {f : γ → List Instr} {xs : List γ} (h : ∀ x ∈ xs, (Piece.code (f x)).Composed L) :
    (Piece.code (xs.flatMap f)).Composed L := by
  induction xs with
  | nil => exact .code (List.forall_mem_nil _)
  | cons x xs ih =>
    obtain ⟨first, rest⟩ := List.forall_mem_cons.mp h
    rw [List.flatMap_cons, Piece.code_append]
    exact first.append (ih rest)

theorem composed_clear {slots : Nat} (h : ∀ slot < slots, place.At L slot) : (clear place slots).Composed L :=
  composed_flatMap fun slot mem => composed_storeWord (h slot (List.mem_range.mp mem)) 0 .i64

theorem composed_storeExpr {offset : Nat} {ty : Ty} {e : Expr} (h : place.At L offset) (he : (rvalue a e).Composed L) :
    (storeExpr a place offset ty e).Composed L := by
  refine (((composed_address h).append he).append (.ite (.single rfl) ?_)).append (.single rfl)
  exact .append (.code (plain_convert _ _)) (.quiet (.need fun _ => .single rfl))

mutual

theorem composed_storeInitial (h : ∀ offset, place.At L offset) :
    ∀ (offset : Nat) (ty : Ty) {init : Initializer}, WithinInit L init → (storeInitial a place offset ty init).Composed L
  | offset, ty, .expr e, within => by
    rw [storeInitial.eq_def]
    dsimp only
    split
    · exact composed_flatMap fun x _ => composed_storeWord (h _) _ _
    · exact composed_storeExpr (h _) (composed_rvalue within)
  | offset, ty, .list items s, within => by
    rw [storeInitial.eq_def]
    dsimp only
    cases ty with
    | array elem n => exact composed_storeElements h elem _ offset within
    | record id => exact composed_storeFields h _ offset within
    | _ =>
      match items, within with
      | [], _ => exact .code (List.forall_mem_nil _)
      | item :: _, within => exact composed_storeInitial h offset _ within.1
  | offset, ty, .construct args s, within => by
    rw [storeInitial.eq_def]
    dsimp only
    match args, within with
    | [], _ => exact .code (List.forall_mem_nil _)
    | _ :: _, within => exact composed_storeExpr (h _) (composed_rvalue within.1)

theorem composed_storeElements (h : ∀ offset, place.At L offset) (elem : Ty) (stride : Nat) :
    ∀ (offset : Nat) {items : List Initializer}, WithinInits L items →
      (storeElements a place elem stride offset items).Composed L
  | _, [], _ => .code (List.forall_mem_nil _)
  | offset, _ :: _, within => (composed_storeInitial h offset elem within.1).append
      (composed_storeElements h elem stride _ within.2)

theorem composed_storeFields (h : ∀ offset, place.At L offset) :
    ∀ (fields : List Field) (offset : Nat) {items : List Initializer}, WithinInits L items →
      (storeFields a place fields offset items).Composed L
  | _, _, [], _ => .code (List.forall_mem_nil _)
  | [], _, _ :: _, _ => .code (List.forall_mem_nil _)
  | f :: fields, offset, _ :: _, within => (composed_storeInitial h _ f.ty within.1).append
      (composed_storeFields h fields offset within.2)

end

theorem composed_initObject (h : ∀ offset, place.At L offset) {ty : Ty} {init : Initializer} (within : WithinInit L init) :
    (initObject a place ty init).Composed L :=
  .ite ((composed_clear fun slot _ => h slot).append (composed_storeInitial h 0 ty within)) (composed_storeInitial h 0 ty within)

end Lowering

/-! ## Code that is left at its end -/

variable {α β : Type}

namespace Lowering

/-- All that the production yields has `P`. -/
def Yields (m : Gen α) (P : α → Prop) : Prop := ∀ g x g', m g = .ok (x, g') → P x

namespace Yields

variable {P : α → Prop}

theorem pure {x : α} (h : P x) : Yields (Pure.pure x) P := by
  intro g y g' run
  cases run
  exact h

theorem bind {Q : β → Prop} {m : Gen α} {f : α → Gen β} (hm : Yields m P)
    (hf : ∀ x, P x → Yields (f x) Q) : Yields (m >>= f) Q := by
  intro g y g'' run
  obtain ⟨x, g', first, second⟩ := bind_eq_ok run
  exact hf x (hm g x g' first) g' y g'' second

/-- What the first production yields does not matter. -/
theorem after {Q : β → Prop} {m : Gen α} {f : α → Gen β} (hf : ∀ x, Yields (f x) Q) : Yields (m >>= f) Q :=
  bind (P := fun _ => True) (fun _ _ _ _ => trivial) fun x _ => hf x

end Yields

/-! ## Lists of instructions -/

/-- The instructions do not return, and jump between `first` and `last`. -/
def Between (first last : Nat) (code : List Instr) : Prop :=
  ∀ i ∈ code, i.isReturn = false ∧ ∀ target, i.target? = some target → first ≤ target ∧ target ≤ last

namespace Between

variable {first last first' last' : Nat} {c d : List Instr}

theorem nil : Between first last [] := List.forall_mem_nil _

theorem cons {i : Instr} (returns : i.isReturn = false)
    (jumps : ∀ target, i.target? = some target → first ≤ target ∧ target ≤ last)
    (hc : Between first last c) : Between first last (i :: c) :=
  List.forall_mem_cons.mpr ⟨⟨returns, jumps⟩, hc⟩

theorem append (hc : Between first last c) (hd : Between first last d) : Between first last (c ++ d) :=
  fun i hi => (List.mem_append.mp hi).elim (hc i) (hd i)

theorem mono (hc : Between first last c) (below : first' ≤ first) (above : last ≤ last') :
    Between first' last' c := fun i hi => by
  obtain ⟨returns, jumps⟩ := hc i hi
  refine ⟨returns, fun target given => ?_⟩
  obtain ⟨low, high⟩ := jumps target given
  exact ⟨Nat.le_trans below low, Nat.le_trans high above⟩

theorem goesOn (h : ∀ i ∈ c, i.goesOn) : Between first last c := by
  intro i hi
  have goesOn := h i hi
  unfold Instr.goesOn at goesOn
  rw [Bool.and_eq_true, Option.isNone_iff_eq_none, Bool.not_eq_true'] at goesOn
  refine ⟨goesOn.2, fun target given => ?_⟩
  rw [goesOn.1] at given
  cases given

end Between

/-! ## Pieces -/

namespace Piece

def Inward (p : Piece) : Prop :=
  ∀ start, Yields (p start) fun code => Between start (start + code.length) code

namespace Inward

variable {p q : Piece}

theorem code {c : List Instr} (h : ∀ i ∈ c, i.goesOn) : Inward (.code c) := fun _ => .pure (.goesOn h)

theorem gen {m : Gen (List Instr)} (h : Yields m fun c => ∀ i ∈ c, i.goesOn) : Inward (.gen m) :=
  fun _ g c g' run => .goesOn (h g c g' run)

theorem single {i : Instr} (h : i.goesOn) : Inward (.code [i]) := code (List.forall_mem_singleton.mpr h)

theorem append (hp : Inward p) (hq : Inward q) : Inward (p ++ q) := by
  intro start
  show Yields (Piece.append p q start) _
  unfold Piece.append
  refine .bind (hp start) fun c hc => .bind (hq _) fun d hd => .pure ?_
  rw [List.length_append, ← Nat.add_assoc]
  exact (hc.mono (Nat.le_refl _) (Nat.le_add_right _ _)).append (hd.mono (Nat.le_add_right _ _) (Nat.le_refl _))

end Inward

end Piece

section

variable {p q : Piece}

theorem inward_logical (op : BinaryOp) (hp : p.Inward) (hq : q.Inward) : (logical op p q).Inward := by
  intro start
  unfold logical
  refine .bind (hp start) fun c hc => .bind (hq _) fun d hd => .pure ?_
  generalize hshort : start + c.length + 1 + d.length + 3 = short
  have jump {last : Nat} (room : short ≤ last) {rest : List Instr} (h : Between start last rest) :
      Between start last ((if op = .and then Instr.jumpIfFalse short else .jumpIfTrue short) :: rest) := by
    split <;> refine .cons rfl (fun target given => ?_) h <;> cases given <;> exact ⟨by omega, room⟩
  simp only [List.length_append, List.length_cons, List.length_nil]
  refine (Between.append (hc.mono (Nat.le_refl _) ?_) (jump ?_ (hd.mono ?_ ?_))).append
    (jump ?_ (.cons rfl nofun (.cons rfl (fun target given => ?_) (.cons rfl nofun .nil))))
  rotate_right
  · cases given
    omega
  all_goals omega

theorem inward_conditional {c : Piece} (hc : c.Inward) (hp : p.Inward) (hq : q.Inward) :
    (conditional c p q).Inward := by
  intro start
  unfold conditional
  refine .bind (hc start) fun c hc => .bind (hp _) fun y hy => .bind (hq _) fun n hn => .pure ?_
  simp only [List.length_append, List.length_cons]
  refine (Between.append (hc.mono (Nat.le_refl _) ?_) (.cons rfl (fun target given => ?_) (hy.mono ?_ ?_))).append
    (.cons rfl (fun target given => ?_) (hn.mono ?_ ?_))
  · omega
  · cases given
    omega
  · omega
  · omega
  · cases given
    omega
  · omega
  · omega

end

theorem Quiet.inward {m : Gen (List Instr)} (h : Quiet m) : (Piece.gen m).Inward :=
  .gen fun g c g' run i mem => Instr.goesOn_of_isPlain ((h g c g' run).2.1 i mem)

theorem Piece.Composed.inward {L : Nat → Prop} {p : Piece} (h : p.Composed L) : p.Inward := by
  induction h with
  | quiet h => exact h.inward
  | slot _ => exact .single rfl
  | string s => exact .gen (.after fun _ => .pure (List.forall_mem_singleton.mpr rfl))
  | append _ _ hp hq => exact hp.append hq
  | logical op _ _ hp hq => exact inward_logical op hp hq
  | conditional _ _ _ hc hp hq => exact inward_conditional hc hp hq

/-! ## Expressions and initial values -/

variable {a : Analysis}

theorem inward_rvalue (e : Expr) : (rvalue a e).Inward := (composed_rvalue e.within_true).inward

theorem inward_initObject (place : Place) (ty : Ty) (init : Initializer) : (initObject a place ty init).Inward := by
  have anywhere (offset : Nat) : place.At (fun _ => True) offset := by
    cases place <;> trivial
  exact (composed_initObject anywhere (Typed.withinInit_true init)).inward

end Lowering
end IncrementalC
