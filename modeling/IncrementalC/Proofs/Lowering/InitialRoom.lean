import IncrementalC.Proofs.Analysis.UnitAccepted
import IncrementalC.Proofs.Lowering.InitialParts
import IncrementalC.Proofs.Machine.Places

/-!
# Initial values have room

An initial value that the analysis accepts has no more items than its object has parts
(`Analyze.MeetsAt.initializer_room`). So what it gives to the parts goes to parts that are there
(`Typed.RoomFor.entries_given`), and its constant image lies in the object (`Typed.RoomFor.image_inside`).
-/
namespace IncrementalC
set_option autoImplicit false
open Typed (Expr Initializer AcceptedInit AcceptedElements AcceptedMembers Entry)

namespace Typed

/-! ## Room -/

mutual

/-- An object of the type has a part for every item. -/
def RoomFor (t : TypeTable) (ty : Ty) : Initializer → Prop
  | .expr e =>
    match ty, e with
    | .array _ n, .str _ s => ∀ k, n = some k → s.utf8ByteSize ≤ k
    | _, _ => True
  | .list items _ =>
    match ty with
    | .array elem n => (∀ k, n = some k → items.length ≤ k) ∧ RoomForElements t elem items
    | .record id => ∃ r, t.record? id = some r ∧ r.complete ∧ RoomForMembers t r.fields items
    | ty =>
      match items with
      | [item] => RoomFor t ty item
      | _ => True
  | .construct .. => True

def RoomForElements (t : TypeTable) (elem : Ty) : List Initializer → Prop
  | [] => True
  | item :: items => RoomFor t elem item ∧ RoomForElements t elem items

def RoomForMembers (t : TypeTable) (fields : List Field) : List Initializer → Prop
  | [] => True
  | item :: items =>
    match fields with
    | [] => False
    | f :: fields => RoomFor t f.ty item ∧ RoomForMembers t fields items

end

variable {a b : Analysis}

mutual

theorem RoomFor.mono (hab : a.Extends b) {ty : Ty} :
    ∀ {i : Initializer}, RoomFor a.types ty i → RoomFor b.types ty i
  | .expr e, h => by
    rw [RoomFor.eq_def] at h ⊢
    exact h
  | .list items span, h => by
    rw [RoomFor.eq_def] at h ⊢
    dsimp only at h ⊢
    cases ty with
    | array elem n => exact ⟨h.1, RoomForElements.mono hab h.2⟩
    | record id =>
      obtain ⟨r, found, complete, members⟩ := h
      exact ⟨r, hab.complete id r found complete, complete, RoomForMembers.mono hab members⟩
    | _ =>
      match items, h with
      | [], _ => trivial
      | [item], h => exact RoomFor.mono hab h
      | _ :: _ :: _, _ => trivial
  | .construct args span, h => trivial

theorem RoomForElements.mono (hab : a.Extends b) {elem : Ty} :
    ∀ {is : List Initializer}, RoomForElements a.types elem is → RoomForElements b.types elem is
  | [], _ => trivial
  | _ :: _, h => ⟨RoomFor.mono hab h.1, RoomForElements.mono hab h.2⟩

theorem RoomForMembers.mono (hab : a.Extends b) {fields : List Field} :
    ∀ {is : List Initializer}, RoomForMembers a.types fields is → RoomForMembers b.types fields is
  | [], _ => trivial
  | item :: items, h => by
    rw [RoomForMembers.eq_def] at h ⊢
    cases fields with
    | nil => exact h
    | cons f fields => exact ⟨RoomFor.mono hab h.1, RoomForMembers.mono hab h.2⟩

end

end Typed

/-! ## Analysed values -/

namespace Analyze.MeetsAt

open Typed (RoomFor RoomForElements RoomForMembers)

theorem stringFor_room (elem : Ty) (length : Option Nat) (s : String) (span : Span) {P : Prop} {a : Analysis} :
    MeetsAt P a (Analyze.stringFor elem length s span) fun _ ty =>
      (∀ k, length = some k → s.utf8ByteSize ≤ k) ∧ ∃ n, ty = .array elem n ∧ ∀ k, n = some k → s.utf8ByteSize ≤ k := by
  unfold Analyze.stringFor
  cases length with
  | none =>
    refine .pure fun _ _ => ⟨by rintro k ⟨⟩, _, rfl, fun k same => ?_⟩
    cases same
    omega
  | some n =>
    refine .ite (fun _ => .report_bind _ _ (Does.pure _)) fun fits => .pure fun _ _ => ?_
    have room (k : Nat) (same : some n = some k) : s.utf8ByteSize ≤ k := by
      cases same
      omega
    exact ⟨room, _, rfl, room⟩

mutual

/-- There is room in an object of the type that is asked for, and of the type that the value gives it. -/
theorem initializer_room {P : Prop} {a : Analysis} {ty : Ty} :
    ∀ {i : Syntax.Initializer}, Syntax.WrittenInit i → MeetsAt P a (Analyze.initializer ty i) fun b r =>
      (ty.isArray = false → r.1 = ty) ∧ RoomFor b.types ty r.2 ∧ RoomFor b.types r.1 r.2
  | .expr e, h => by
    rw [Analyze.initializer.eq_def]
    dsimp only
    split
    · rename_i elem length span s
      refine .ite (fun char => ?_) fun _ => .report_bind _ _ (Does.pure _)
      refine .bind (stringFor_room elem length s span) fun ty b => ?_
      refine .bind (M := fun _ t => t = .str ⟨span, .array .char (some (s.utf8ByteSize + 1))⟩ s)
        (.pure fun _ _ => rfl) fun t c => .pure fun known _ => ?_
      obtain ⟨⟨-, -, room, n, rfl, room'⟩, -, rfl⟩ := known
      exact ⟨nofun, room, room'⟩
    · exact .report_bind _ _ (Does.pure _)
    · rename_i notArray _
      refine .bind (.expr h) fun e b => ?_
      refine .bind (.rule (Does.checkAssignable ty e .initializing)) fun _ c => .pure fun _ _ => ?_
      have room : RoomFor c.types ty (.expr e) := by
        cases ty with
        | array elem n => exact (notArray elem n rfl).elim
        | _ => trivial
      exact ⟨fun _ => rfl, room, room⟩
  | .list items span, h => by
    rw [Analyze.initializer.eq_def]
    dsimp only
    cases ty with
    | array elem length =>
      refine .ite (fun _ => .report_bind _ _ (Does.pure _)) fun few => ?_
      refine .bind (elements_room h) fun values b => .pure fun known _ => ?_
      obtain ⟨-, -, count, room⟩ := known
      have enough (k : Nat) (same : length = some k) : values.length ≤ k := by
        subst same
        simp only [Option.any_some, decide_eq_true_eq] at few
        omega
      refine ⟨nofun, ⟨enough, room⟩, ⟨fun k same => ?_, room⟩⟩
      cases length with
      | none =>
        cases same
        exact Nat.le_of_eq count
      | some n => exact enough k same
    | record id =>
      refine .get ?_
      split
      · exact .get (.report_bind _ _ (Does.pure _))
      · rename_i r found
        refine .ite (fun _ => .report_bind _ _ (Does.pure _)) fun few => ?_
        refine .bind (members_room h (Nat.le_of_not_lt few)) fun values b => .pure fun known _ => ?_
        obtain ⟨present, complete⟩ := Option.filter_eq_some_iff.mp found
        have room : RoomFor b.types (.record id) (.list values span) :=
          ⟨r, known.2.1.complete id r present complete, complete, known.2.2⟩
        exact ⟨fun _ => rfl, room, room⟩
    | _ =>
      match items, h with
      | [], _ => exact .pure fun _ _ => ⟨fun _ => rfl, trivial, trivial⟩
      | [item], h =>
        refine .bind (initializer_room h.1) fun r b => .pure fun known _ => ?_
        obtain ⟨-, -, same, room, -⟩ := known
        refine ⟨same, room, ?_⟩
        rw [same rfl]
        exact room
      | _ :: _ :: _, _ => exact .report_bind _ _ (Does.pure _)
  | .construct args span, h => by
    rw [Analyze.initializer.eq_def]
    dsimp only
    split
    · exact .pure fun _ _ => ⟨fun _ => rfl, trivial, trivial⟩
    · rename_i e
      refine .ite (fun _ => .get (.report_bind _ _ (Does.pure _))) fun notAggregate => ?_
      refine .bind (.expr (h e (List.mem_singleton_self e))) fun e b => ?_
      refine .bind (.rule (Does.checkAssignable ty e .initializing)) fun _ c => ?_
      exact .pure fun _ _ => ⟨fun _ => rfl, trivial, trivial⟩
    · refine .ite (fun _ => .get (.report_bind _ _ (Does.pure _))) fun _ => ?_
      exact .report_bind _ _ (Does.pure _)

theorem elements_room {P : Prop} {a : Analysis} {elem : Ty} :
    ∀ {is : List Syntax.Initializer}, Syntax.WrittenInits is →
      MeetsAt P a (Analyze.elements elem is) fun b vs =>
        vs.length = is.length ∧ RoomForElements b.types elem vs
  | [], _ => .pure fun _ _ => ⟨rfl, trivial⟩
  | item :: items, h => by
    refine .bind (initializer_room h.1) fun r b => .bind (elements_room h.2) fun vs c => ?_
    refine .pure fun known _ => ?_
    obtain ⟨⟨-, -, -, room, -⟩, hbc, count, rooms⟩ := known
    exact ⟨congrArg (· + 1) count, room.mono hbc, rooms⟩

theorem members_room {P : Prop} {a : Analysis} {fields : List Field} :
    ∀ {is : List Syntax.Initializer}, Syntax.WrittenInits is → is.length ≤ fields.length →
      MeetsAt P a (Analyze.members fields is) fun b vs => RoomForMembers b.types fields vs
  | [], _, _ => .pure fun _ _ => trivial
  | item :: items, h, few => by
    rw [Analyze.members.eq_def]
    dsimp only
    cases fields with
    | nil => cases few
    | cons f fields =>
      refine .bind (initializer_room h.1) fun r b => ?_
      refine .bind (members_room h.2 (Nat.le_of_succ_le_succ few)) fun vs c => .pure fun known _ => ?_
      obtain ⟨⟨-, -, -, room, -⟩, hbc, rooms⟩ := known
      exact ⟨room.mono hbc, rooms⟩

end

end Analyze.MeetsAt

/-! ## Variables -/

namespace Analyze

open Typed (RoomFor VarDecl)

variable {v : VarDecl} {span : Span}

/-- An object that is entered keeps its type and its initial value. -/
def Keeps (ty : Ty) (init : Option Initializer) (v : VarDecl) : Prop := v.ty = ty ∧ v.init = init

theorem gives_localVar (isStatic : Bool) (v : VarDecl) (span : Span) :
    Gives (localVar isStatic v span) (Keeps v.ty v.init) := by
  have kept : Keeps v.ty v.init v := ⟨rfl, rfl⟩
  refine .skip fun a => .ite (.skip fun _ => .pure kept) ?_
  split
  · exact .pure kept
  · refine .ite (.ite ?_ ?_) ?_
    · exact .skip fun _ => .skip fun _ => .pure ⟨rfl, rfl⟩
    · exact .skip fun _ => .pure ⟨rfl, rfl⟩
    · exact .skip fun _ => .skip fun _ => .pure ⟨rfl, rfl⟩

theorem gives_globalVar (v : VarDecl) (span : Span) : Gives (globalVar v span) (Keeps v.ty v.init) := by
  refine .skip fun a => .skip fun b => ?_
  dsimp only
  split
  · refine .ite ?_ (.ite ?_ ?_)
    · exact .skip fun _ => .skip fun _ => .skip fun _ => .pure ⟨rfl, rfl⟩
    · exact .skip fun _ => .pure ⟨rfl, rfl⟩
    · exact .skip fun _ => .pure ⟨rfl, rfl⟩
  · exact .skip fun _ => .pure ⟨rfl, rfl⟩
  · exact .skip fun _ => .pure ⟨rfl, rfl⟩

theorem gives_enterVar (storage : Syntax.Storage) (name : String) (ty : Ty) (init : Option Initializer) (span : Span) :
    Gives (enterVar storage name ty init span) (Keeps ty init) := by
  refine .skip fun a => .ite ?_ (.skip fun b => .ite ?_ ?_)
  · split
    · exact .skip fun _ => .pure ⟨rfl, rfl⟩
    · exact .skip fun _ => .skip fun _ => .pure ⟨rfl, rfl⟩
  · exact gives_localVar _ ⟨name, ty, init, .global, "", _, none⟩ span
  · exact gives_globalVar ⟨name, ty, init, .global, "", _, none⟩ span

namespace MeetsAt

variable {P : Prop} {a : Analysis} {name : String}

/-- There is room in the object for its initial value. -/
def HasRoom (b : Analysis) (v : VarDecl) : Prop := ∀ i, v.init = some i → RoomFor b.types v.ty i

theorem enterVar_room {storage : Syntax.Storage} {ty : Ty} {init : Option Initializer} {span : Span} (word : IsWord name)
    (object : P → ty.IsObject)
    (fits : P → ∀ i, init = some i → AcceptedInit a ty i ∧ RoomFor a.types ty i) :
    MeetsAt P a (Analyze.enterVar storage name ty init span) HasRoom := by
  have meets : MeetsAt P a (Analyze.enterVar storage name ty init span) _ :=
    enterVar word object fun hP i given => (fits hP i given).1
  refine ⟨meets.grows, fun hP sound correct => ⟨(meets.meets hP sound correct).1, fun i given => ?_⟩⟩
  obtain ⟨type, value⟩ := gives_enterVar storage name ty init span a
  rw [type]
  exact (fits hP i (value ▸ given)).2.mono meets.grows

theorem autoVar_room {storage : Syntax.Storage} {nameSpan span : Span} {init : Option Syntax.Initializer}
    (word : IsWord name) (written : ∀ i, init = some i → Syntax.WrittenInit i) :
    MeetsAt P a (Analyze.autoVar storage name nameSpan span init) HasRoom := by
  have entered {P : Prop} {b : Analysis} {e : Expr} {value : Initializer} (fits : P → AcceptedInit b e.ty.decay value)
      (room : RoomFor b.types e.ty.decay value) (object : P → e.ty.decay.IsObject) :
      MeetsAt P b (Analyze.enterVar storage name e.ty.decay (some value) nameSpan) HasRoom := by
    refine enterVar_room word object fun h i given => ?_
    cases given
    exact ⟨fits h, room⟩
  unfold Analyze.autoVar
  dsimp only
  split
  · refine .bind (.expr (written _ rfl)) fun e b => deduced (fun h => h.2.2) (entered (fun h => ⟨h.2.2, ?_⟩) ?_)
    · cases hty : e.ty <;> exact .inl (by rw [hty])
    · cases e.ty <;> trivial
  · rename_i e _
    refine .bind (.expr (written _ rfl e (List.mem_singleton_self e))) fun e b =>
      deduced (fun h => h.2.2) (entered (fun h => ⟨?_, h.2.2, .inl rfl⟩) trivial)
    cases e.ty <;> rfl
  · exact .report_bind _ _ (Does.pure _)

theorem varDecl_room {spec : Syntax.DeclSpec} {d : Syntax.Declarator} {init : Option Syntax.Initializer} {span : Span}
    (hspec : spec.Written) (word : IsWord name) (hd : d.Written) (written : ∀ i, init = some i → Syntax.WrittenInit i) :
    MeetsAt P a (Analyze.varDecl spec name d init span) HasRoom := by
  refine .ite (fun _ => autoVar_room word written) fun _ => ?_
  refine .bind (.baseType hspec) fun base b => ?_
  refine .bind (.declaredType (fun h => h.2.2) hd) fun ty c => ?_
  refine .ite (fun _ => .pure fun _ _ => nofun) fun _ => .ite (fun _ => ?_) fun notVoid => ?_
  · exact .report_bind _ _ (Does.pure _)
  · have object (spelled : ty.Spelled) : ty.IsObject :=
      ⟨spelled.definite, fun void => notVoid (Ty.isVoid_iff.mpr void)⟩
    cases init with
    | none => exact enterVar_room word (fun h => object h.1.1.2.2) fun _ _ given => nomatch given
    | some init =>
      have meets : MeetsAt True c (Analyze.initializer ty init) _ :=
        (initializer (written init rfl)).and (initializer_room (written init rfl))
      refine .bind (meets.weaken fun _ => trivial) fun r d => enterVar_room word (fun h => ?_) fun h i given => ?_
      · exact h.2.2.1.1.isObject (object h.1.1.1.2.2)
      · cases given
        exact ⟨h.2.2.1.1.acceptedInit h.2.2.1.2, h.2.2.2.2.2⟩

end MeetsAt

end Analyze

/-! ## Entries -/

namespace Typed

variable {a : Analysis}

/-- What an entry gives goes to a part of an object of the type: an accepted value to a part that is no array, a
character to a character. -/
structure Entry.Given (a : Analysis) (ty : Ty) (x : Entry) : Prop where
  part : a.types.part? ty x.path = some x.ty
  value : ∀ e, x.given = .value e → e.Accepted a ∧ x.ty.isArray = false
  byte : ∀ c, x.given = .byte c → x.ty.isChar

theorem Entry.Given.under {selector : Selector} {ty whole : Ty} {x : Entry} (h : x.Given a ty)
    (reaches : ∀ path, a.types.part? whole (selector :: path) = a.types.part? ty path) :
    (x.under selector).Given a whole :=
  ⟨(reaches x.path).trans h.part, h.value, h.byte⟩

theorem Entry.given_value {ty : Ty} {e : Expr} (accepted : e.Accepted a) (notArray : ty.isArray = false) :
    Entry.Given a ty ⟨[], ty, .value e⟩ := by
  refine ⟨by cases ty <;> rfl, fun e' same => ?_, nofun⟩
  cases same
  exact ⟨accepted, notArray⟩

theorem given_string {elem : Ty} {k : Nat} {s : String} (isChar : elem.isChar) (room : s.utf8ByteSize ≤ k) :
    ∀ x ∈ s.toUTF8.toList.zipIdx.map fun (b, i) => (⟨[.element i], elem, .byte b⟩ : Entry),
      x.Given a (.array elem (some k)) := by
  intro x mem
  obtain ⟨⟨b, i⟩, numbered, rfl⟩ := List.mem_map.mp mem
  have inside : i < s.toUTF8.toList.length := by
    have := List.snd_lt_of_mem_zipIdx numbered
    omega
  rw [Machine.length_utf8] at inside
  refine ⟨?_, nofun, fun _ _ => isChar⟩
  exact (TypeTable.part?_element (by omega)).trans (by cases elem <;> rfl)

/-- The fields of a record, found by their names. -/
def Reaches (t : TypeTable) (id : RecordId) (fs : List Field) : Prop :=
  ∀ f ∈ fs, t.isComplete f.ty ∧ ∀ path, t.part? (.record id) (.field f.name :: path) = t.part? f.ty path

theorem reaches_fields (layered : a.types.Layered) {id : RecordId} {r : RecordDef} (found : a.types.record? id = some r)
    (complete : r.complete) : Reaches a.types id r.fields := by
  obtain ⟨ids, -, rests⟩ := layered.rests found complete
  exact fun f mem => ⟨rests.complete f mem, fun path =>
    TypeTable.part?_field found (TypeTable.field?_eq_some rests.distinct mem)⟩

mutual

/-- An accepted value for which there is room gives to parts that are there. -/
theorem RoomFor.entries_given (layered : a.types.Layered) {ty : Ty} (complete : a.types.isComplete ty) :
    ∀ {i : Initializer}, AcceptedInit a ty i → RoomFor a.types ty i → ∀ x ∈ i.entries a.types ty, x.Given a ty
  | .expr e, accepted, room => by
    cases ty with
    | array elem n =>
      obtain ⟨-, isChar, i, s, rfl⟩ := accepted
      obtain ⟨⟨k, rfl⟩, -⟩ := TypeTable.isComplete_array complete
      exact given_string isChar (room k rfl)
    | _ => exact List.forall_mem_singleton.mpr (Entry.given_value accepted.1 rfl)
  | .list items span, accepted, room => by
    rw [AcceptedInit.eq_def] at accepted
    rw [RoomFor.eq_def] at room
    rw [Initializer.entries.eq_def]
    dsimp only at accepted room ⊢
    cases ty with
    | array elem n =>
      obtain ⟨⟨k, rfl⟩, element⟩ := TypeTable.isComplete_array complete
      have enough := room.1 k rfl
      exact elements_given layered element (by omega) accepted room.2
    | record id =>
      obtain ⟨r, found, done, accepted⟩ := accepted
      obtain ⟨r', found', -, room⟩ := room
      cases found.symm.trans found'
      dsimp only
      rw [found]
      exact members_given layered (reaches_fields layered found done) accepted room
    | _ =>
      match items, accepted with
      | [], _ => exact nofun
      | [item], accepted => exact RoomFor.entries_given layered complete accepted room
  | .construct args span, accepted, room => by
    rw [AcceptedInit.eq_def] at accepted
    match args, accepted with
    | [], _ => exact nofun
    | [e], accepted => exact List.forall_mem_singleton.mpr (Entry.given_value accepted.2.1 accepted.1)

theorem elements_given (layered : a.types.Layered) {elem : Ty} (complete : a.types.isComplete elem) {k start : Nat} :
    ∀ {is : List Initializer}, start + is.length ≤ k → AcceptedElements a elem is → RoomForElements a.types elem is →
      ∀ x ∈ Initializer.elementEntries a.types elem start is, x.Given a (.array elem (some k))
  | [], _, _, _ => nofun
  | item :: items, enough, accepted, room => by
    rw [List.length_cons] at enough
    rw [Initializer.elementEntries]
    refine List.forall_mem_append.mpr ⟨fun x mem => ?_, ?_⟩
    · obtain ⟨x, inner, rfl⟩ := List.mem_map.mp mem
      have given := RoomFor.entries_given layered complete accepted.1 room.1 x inner
      exact given.under fun path => TypeTable.part?_element (by omega)
    · exact elements_given layered complete (by omega) accepted.2 room.2

theorem members_given (layered : a.types.Layered) {id : RecordId} {fields : List Field} (reaches : Reaches a.types id fields) :
    ∀ {is : List Initializer}, AcceptedMembers a fields is → RoomForMembers a.types fields is →
      ∀ x ∈ Initializer.fieldEntries a.types fields is, x.Given a (.record id)
  | [], _, _ => nofun
  | item :: items, accepted, room => by
    rw [AcceptedMembers.eq_def] at accepted
    rw [RoomForMembers.eq_def] at room
    match fields, accepted with
    | f :: fields, accepted =>
      obtain ⟨complete, reach⟩ := reaches f List.mem_cons_self
      rw [Initializer.fieldEntries]
      refine List.forall_mem_append.mpr ⟨fun x mem => ?_, ?_⟩
      · obtain ⟨x, inner, rfl⟩ := List.mem_map.mp mem
        exact (RoomFor.entries_given layered complete accepted.1 room.1 x inner).under reach
      · exact members_given layered (fun g mem => reaches g (List.mem_cons_of_mem f mem)) accepted.2 room.2

end

/-! ## Images -/

end Typed

/-- Every array in the type has a length. -/
def Ty.Sized : Ty → Prop
  | .array t n => n.isSome ∧ t.Sized
  | _ => True

theorem TypeTable.sized_of_isComplete {t : TypeTable} {ty : Ty} (h : t.isComplete ty) : ty.Sized := by
  induction ty with
  | array ty n ih =>
    obtain ⟨⟨k, known⟩, element⟩ := isComplete_array h
    exact ⟨known ▸ rfl, ih element⟩
  | _ => trivial

theorem TypeTable.isComplete_of_isScalar {t : TypeTable} {ty : Ty} (scalar : ty.isScalar) (notArray : ty.isArray = false) :
    t.isComplete ty ∧ t.slots ty = 1 := by
  cases ty with
  | array ty n => cases notArray
  | void => cases scalar
  | record id => cases scalar
  | _ => exact ⟨rfl, rfl⟩

namespace Typed

variable {a : Analysis}

/-- The slots that an image fills belong to a complete object at `base`. -/
def ImageInside (t : TypeTable) (ty : Ty) (base : Nat) (image : List (Nat × Constant)) : Prop :=
  ∀ x ∈ image, t.isComplete ty ∧ x.1 < base + t.slots ty

theorem imageInside_slot {t : TypeTable} {ty : Ty} {base : Nat} {e : Expr} {image : List (Nat × Constant)} (scalar : ty.isScalar)
    (notArray : ty.isArray = false) (h : initialSlots?.slot t ty base e = some image) : ImageInside t ty base image := by
  unfold initialSlots?.slot at h
  simp only [Option.bind_eq_bind, Option.bind_eq_some_iff] at h
  obtain ⟨c, -, c', -, h⟩ := h
  cases h
  obtain ⟨complete, one⟩ := TypeTable.isComplete_of_isScalar (t := t) scalar notArray
  refine List.forall_mem_singleton.mpr ⟨complete, ?_⟩
  show base < base + t.slots ty
  omega

theorem imageInside_string {t : TypeTable} {elem : Ty} {k : Nat} {s : String} {kind : Scalar} (base : Nat) (isChar : elem.isChar)
    (room : s.utf8ByteSize ≤ k) :
    ImageInside t (.array elem (some k)) base (numberFrom base ((stringWords kind s).map .int)) := by
  obtain ⟨one, -⟩ := Lowering.slots_char (t := t) isChar
  have complete : t.isComplete elem := by
    cases elem with
    | int => rfl
    | _ => cases isChar
  refine fun x mem => ⟨complete, ?_⟩
  obtain ⟨⟨c, i⟩, numbered, rfl⟩ := List.mem_map.mp mem
  have inside := List.snd_lt_of_mem_zipIdx numbered
  rw [List.length_map, stringWords, List.length_map, Machine.length_utf8] at inside
  show base + i < base + t.slots elem * k
  rw [one]
  omega

mutual

/-- The image of an accepted value for which there is room lies in the object, if every array of its type has a
length. -/
theorem RoomFor.image_inside (layered : a.types.Layered) {ty : Ty} (sized : ty.Sized) (base : Nat) :
    ∀ {i : Initializer} {image : List (Nat × Constant)}, AcceptedInit a ty i → RoomFor a.types ty i →
      initialSlots? a.types ty base i = some image → ImageInside a.types ty base image
  | .expr e, image, accepted, room, h => by
    cases ty with
    | array elem n =>
      obtain ⟨-, isChar, i, s, rfl⟩ := accepted
      obtain ⟨k, rfl⟩ := Option.isSome_iff_exists.mp sized.1
      obtain ⟨-, kind, known⟩ := Lowering.slots_char (t := a.types) isChar
      rw [initialSlots?.eq_def] at h
      dsimp only at h
      rw [if_pos isChar, known] at h
      cases h
      exact imageInside_string base isChar (room k rfl)
    | _ =>
      rw [initialSlots?.eq_def] at h
      dsimp only at h
      split at h
      · rename_i scalar
        exact imageInside_slot ((Bool.and_eq_true _ _).mp scalar).1 rfl h
      · cases h
  | .list items span, image, accepted, room, h => by
    rw [AcceptedInit.eq_def] at accepted
    rw [RoomFor.eq_def] at room
    rw [initialSlots?.eq_def] at h
    dsimp only at accepted room h
    cases ty with
    | array elem n =>
      obtain ⟨k, rfl⟩ := Option.isSome_iff_exists.mp sized.1
      intro x mem
      obtain ⟨complete, below⟩ := elements_image_inside layered sized.2 base accepted room.2 h x mem
      refine ⟨complete, Nat.lt_of_lt_of_le below (Nat.add_le_add_left ?_ base)⟩
      show _ ≤ a.types.slots elem * k
      rw [Nat.mul_comm]
      exact Nat.mul_le_mul_left _ (room.1 k rfl)
    | record id =>
      obtain ⟨r, found, done, accepted⟩ := accepted
      obtain ⟨r', found', -, room⟩ := room
      cases found.symm.trans found'
      dsimp only at h
      rw [found] at h
      obtain ⟨ids, -, rests⟩ := layered.rests found done
      intro x mem
      have complete : a.types.isComplete (.record id) := by
        show (a.types.record? id).any (·.complete) = true
        rw [found]
        exact done
      refine ⟨complete, ?_⟩
      rw [layered.slots_record found done]
      exact members_image_inside layered base (fun f mem => ⟨rests.complete f mem, (rests.placed.inside mem).2⟩)
        accepted room h x mem
    | _ =>
      match items, accepted with
      | [], _ =>
        cases h
        exact nofun
      | [item], accepted => exact RoomFor.image_inside layered sized base accepted room h
  | .construct args span, image, accepted, room, h => by
    rw [AcceptedInit.eq_def] at accepted
    match args, accepted with
    | [], _ =>
      cases h
      exact nofun
    | [e], accepted =>
      rw [initialSlots?.eq_def] at h
      dsimp only at h
      split at h
      · exact imageInside_slot ‹_› accepted.1 h
      · cases h

theorem elements_image_inside (layered : a.types.Layered) {elem : Ty} (sized : elem.Sized) (base : Nat) :
    ∀ {is : List Initializer} {image : List (Nat × Constant)}, AcceptedElements a elem is → RoomForElements a.types elem is →
      elementSlots? a.types elem (a.types.slots elem) base is = some image →
        ∀ x ∈ image, a.types.isComplete elem ∧ x.1 < base + is.length * a.types.slots elem
  | [], _, _, _, h => by
    cases h
    exact nofun
  | item :: items, image, accepted, room, h => by
    rw [elementSlots?] at h
    simp only [Option.bind_eq_bind, Option.bind_eq_some_iff] at h
    obtain ⟨c, first, d, second, h⟩ := h
    cases h
    rw [List.length_cons, Nat.succ_mul]
    refine List.forall_mem_append.mpr ⟨fun x mem => ?_, fun x mem => ?_⟩
    · obtain ⟨complete, below⟩ := RoomFor.image_inside layered sized base accepted.1 room.1 first x mem
      exact ⟨complete, by omega⟩
    · obtain ⟨complete, below⟩ := elements_image_inside layered sized _ accepted.2 room.2 second x mem
      exact ⟨complete, by omega⟩

theorem members_image_inside (layered : a.types.Layered) {fields : List Field} {stop : Nat} (base : Nat)
    (inside : ∀ f ∈ fields, a.types.isComplete f.ty ∧ f.slot + a.types.slots f.ty ≤ 0 + stop) :
    ∀ {is : List Initializer} {image : List (Nat × Constant)}, AcceptedMembers a fields is → RoomForMembers a.types fields is →
      fieldSlots? a.types fields base is = some image → ∀ x ∈ image, x.1 < base + stop
  | [], _, _, _, h => by
    cases h
    exact nofun
  | item :: items, image, accepted, room, h => by
    rw [AcceptedMembers.eq_def] at accepted
    rw [RoomForMembers.eq_def] at room
    match fields, accepted with
    | f :: fields, accepted =>
      obtain ⟨complete, last⟩ := inside f List.mem_cons_self
      rw [fieldSlots?] at h
      simp only [Option.bind_eq_bind, Option.bind_eq_some_iff] at h
      obtain ⟨c, first, d, second, h⟩ := h
      cases h
      refine List.forall_mem_append.mpr ⟨fun x mem => ?_, ?_⟩
      · have below := (RoomFor.image_inside layered (TypeTable.sized_of_isComplete complete) _ accepted.1 room.1 first x mem).2
        omega
      · exact members_image_inside layered base (fun g mem => inside g (List.mem_cons_of_mem f mem)) accepted.2 room.2
          second

end

end Typed

end IncrementalC
