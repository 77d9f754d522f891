import IncrementalC.Lowering.Unit
import IncrementalC.Proofs.Analysis.Accepted
import IncrementalC.Proofs.Lowering.Piece
import IncrementalC.Proofs.Types.Parts

/-!
# Initial values and the parts of an object

`Initializer.entries` lists what an initial value gives to which part of an object, each part under its path.
The code that stores the value and the constant image place every entry at the offset of its path
(`Lowering.storeInitial_eq`, `Typed.initialSlots?_eq`).
-/
namespace IncrementalC
set_option autoImplicit false
open Lowering

namespace Typed

/-- What a part of an object is given: a value, or a character of a string. -/
inductive Given where
  | value (e : Expr)
  | byte (b : UInt8)

/-- The part of an object under a path, and what it is given. -/
structure Entry where
  path : List Selector
  ty : Ty
  given : Given

/-- The entry of a part, as one of the whole. -/
def Entry.under (selector : Selector) (x : Entry) : Entry := { x with path := selector :: x.path }

namespace Initializer

mutual

/-- What the initial value of an object of the type gives to its parts. -/
def entries (t : TypeTable) (ty : Ty) : Initializer → List Entry
  | .expr e =>
    match ty, e with
    | .array elem _, .str _ s => s.toUTF8.toList.zipIdx.map fun (b, i) => ⟨[.element i], elem, .byte b⟩
    | ty, e => [⟨[], ty, .value e⟩]
  | .list items _ =>
    match ty with
    | .array elem _ => elementEntries t elem 0 items
    | .record id => fieldEntries t (((t.record? id).map (·.fields)).getD []) items
    | ty =>
      match items with
      | [] => []
      | item :: _ => entries t ty item
  | .construct args _ =>
    match args with
    | [] => []
    | e :: _ => [⟨[], ty, .value e⟩]

def elementEntries (t : TypeTable) (elem : Ty) (start : Nat) : List Initializer → List Entry
  | [] => []
  | item :: items => (entries t elem item).map (.under (.element start)) ++ elementEntries t elem (start + 1) items

def fieldEntries (t : TypeTable) (fields : List Field) : List Initializer → List Entry
  | [] => []
  | item :: items =>
    match fields with
    | [] => []
    | f :: fields => (entries t f.ty item).map (.under (.field f.name)) ++ fieldEntries t fields items

end

end Initializer

/-- What a constant image holds for an entry. -/
def Entry.constant? (types : TypeTable) (x : Entry) : Option Constant :=
  match x.given with
  | .value e => do (← Typed.constant? types e).coerce x.ty
  | .byte b => do return .int ((← x.ty.scalar?).wrap (Int64.ofNat b.toNat))

end Typed

open Typed

variable {a : Analysis} {place : Place}

/-- The code that stores what an entry gives to the part at an offset. -/
def Lowering.storeEntry (a : Analysis) (place : Place) (offset : Nat) (x : Entry) : Piece :=
  match x.given with
  | .value e => storeExpr a place offset x.ty e
  | .byte b =>
    let kind := x.ty.scalar?.getD .i8
    .code (place.address offset ++ [.pushInt (kind.wrap (Int64.ofNat b.toNat)), .store kind, .pop])

/-- The code that stores the entries, each at the offset of its path in an object of the type at `base`. -/
def Lowering.storeEntries (a : Analysis) (place : Place) (base : Nat) (ty : Ty) (xs : List Entry) : Piece :=
  .all (xs.map fun x => storeEntry a place (base + a.types.offset ty x.path) x)

namespace Lowering

/-- The fields of a record, found by their names. -/
def Finds (t : TypeTable) (id : RecordId) (fs : List Field) : Prop :=
  ∀ f ∈ fs, t.isComplete f.ty ∧ ∀ path, t.offset (.record id) (.field f.name :: path) = f.slot + t.offset f.ty path

theorem finds_fields (layered : a.types.Layered) {id : RecordId} {r : RecordDef} (found : a.types.record? id = some r)
    (complete : r.complete) : Finds a.types id r.fields := by
  obtain ⟨ids, -, rests⟩ := layered.rests found complete
  exact fun f mem => ⟨rests.complete f mem, fun path =>
    TypeTable.offset_field found (TypeTable.field?_eq_some rests.distinct mem)⟩

theorem storeEntries_append (base : Nat) (ty : Ty) (xs ys : List Entry) :
    storeEntries a place base ty (xs ++ ys) = storeEntries a place base ty xs ++ storeEntries a place base ty ys := by
  unfold storeEntries
  rw [List.map_append, Piece.all_append]

/-- The entries of a part lie where the part lies. -/
theorem storeEntries_under {selector : Selector} {whole : Ty} (ty : Ty) {base distance : Nat}
    (h : ∀ path, a.types.offset whole (selector :: path) = distance + a.types.offset ty path) (xs : List Entry) :
    storeEntries a place base whole (xs.map (.under selector)) = storeEntries a place (base + distance) ty xs := by
  unfold storeEntries
  rw [List.map_map]
  refine congrArg Piece.all (List.map_congr_left fun x _ => ?_)
  show storeEntry a place (base + a.types.offset whole (selector :: x.path)) x = _
  rw [h, Nat.add_assoc]

theorem slots_char {t : TypeTable} {elem : Ty} (isChar : elem.isChar) :
    t.slots elem = 1 ∧ ∃ kind, elem.scalar? = some kind := by
  cases elem with
  | int k =>
    obtain ⟨rank, signed⟩ := k
    cases rank <;> cases signed <;> exact ⟨rfl, _, rfl⟩
  | _ => cases isChar

theorem storeExpr_eq (base : Nat) (ty : Ty) (e : Expr) :
    storeExpr a place base ty e = storeEntries a place base ty [⟨[], ty, .value e⟩] := by
  show _ = storeEntry a place (base + a.types.offset ty []) ⟨[], ty, .value e⟩ ++ .code []
  rw [TypeTable.offset_nil, Piece.append_nil]
  rfl

theorem storeString_eq {elem : Ty} {n : Option Nat} (one : a.types.slots elem = 1) (base : Nat) (s : String) :
    storeString place base elem s = storeEntries a place base (.array elem n)
      (s.toUTF8.toList.zipIdx.map fun (b, i) => ⟨[.element i], elem, .byte b⟩) := by
  have offset (i : Nat) : a.types.offset (.array elem n) [.element i] = i := by
    rw [TypeTable.offset, TypeTable.offset_nil, one, Nat.mul_one, Nat.add_zero]
  unfold storeString storeEntries numberFrom stringWords
  dsimp only
  rw [List.map_map]
  have code (p : UInt8 × Nat) :
      storeEntry a place (base + a.types.offset (.array elem n) [.element p.2]) ⟨[.element p.2], elem, .byte p.1⟩ =
        .code (place.address (base + p.2) ++ [.pushInt ((elem.scalar?.getD .i8).wrap (Int64.ofNat p.1.toNat)),
          .store (elem.scalar?.getD .i8), .pop]) := by
    rw [offset]
    rfl
  have codes := congrArg Piece.all (List.map_congr_left fun p (_ : p ∈ s.toUTF8.toList.zipIdx) => code p)
  rw [Piece.all_code] at codes
  refine Eq.trans ?_ codes.symm
  rw [List.zipIdx_map, List.map_map, List.flatMap_map]
  rfl

mutual

theorem storeInitial_eq (layered : a.types.Layered) {ty : Ty} (complete : a.types.isComplete ty) (base : Nat) :
    ∀ {i : Initializer}, AcceptedInit a ty i →
      storeInitial a place base ty i = storeEntries a place base ty (i.entries a.types ty)
  | .expr e, accepted => by
    cases ty with
    | array elem n =>
      obtain ⟨-, isChar, i, s, rfl⟩ := accepted
      exact storeString_eq (slots_char isChar).1 base s
    | _ => exact storeExpr_eq base _ e
  | .list items span, accepted => by
    rw [AcceptedInit.eq_def] at accepted
    rw [storeInitial.eq_def, Initializer.entries.eq_def]
    dsimp only at accepted ⊢
    cases ty with
    | array elem n =>
      have walk := storeElements_eq layered (TypeTable.isComplete_array complete).2 n base 0 accepted
      rwa [Nat.zero_mul, Nat.add_zero] at walk
    | record id =>
      obtain ⟨r, found, done, accepted⟩ := accepted
      dsimp only
      rw [found]
      exact storeFields_eq layered (finds_fields layered found done) base accepted
    | _ =>
      match items, accepted with
      | [], _ => rfl
      | [item], accepted => exact storeInitial_eq layered complete base accepted
  | .construct args span, accepted => by
    rw [AcceptedInit.eq_def] at accepted
    match args, accepted with
    | [], _ => rfl
    | [e], _ => exact storeExpr_eq base ty e

theorem storeElements_eq (layered : a.types.Layered) {elem : Ty} (complete : a.types.isComplete elem) (n : Option Nat)
    (base start : Nat) : ∀ {is : List Initializer}, AcceptedElements a elem is →
      storeElements a place elem (a.types.slots elem) (base + start * a.types.slots elem) is =
        storeEntries a place base (.array elem n) (Initializer.elementEntries a.types elem start is)
  | [], _ => rfl
  | item :: items, accepted => by
    have head := storeInitial_eq layered complete (base + start * a.types.slots elem) accepted.1
    have tail := storeElements_eq layered complete n base (start + 1) accepted.2
    rw [Nat.succ_mul, ← Nat.add_assoc] at tail
    rw [storeElements, Initializer.elementEntries, storeEntries_append, head, tail,
      storeEntries_under elem fun path => rfl]

theorem storeFields_eq (layered : a.types.Layered) {id : RecordId} {fields : List Field}
    (finds : Finds a.types id fields) (base : Nat) : ∀ {is : List Initializer}, AcceptedMembers a fields is →
      storeFields a place fields base is =
        storeEntries a place base (.record id) (Initializer.fieldEntries a.types fields is)
  | [], _ => rfl
  | item :: items, accepted => by
    rw [AcceptedMembers.eq_def] at accepted
    match fields, accepted with
    | f :: fields, accepted =>
      obtain ⟨complete, offset⟩ := finds f List.mem_cons_self
      have head := storeInitial_eq layered complete (base + f.slot) accepted.1
      have tail := storeFields_eq layered (fun g mem => finds g (List.mem_cons_of_mem f mem)) base
        accepted.2
      rw [storeFields, Initializer.fieldEntries, storeEntries_append, head, tail, storeEntries_under _ offset]

end

end Lowering

/-! ## Constant images -/

namespace Typed

/-- What a constant image holds for the entries of an object of the type at `base`. -/
def imageOf (t : TypeTable) (base : Nat) (ty : Ty) (xs : List Entry) : Option (List (Nat × Constant)) :=
  xs.mapM fun x => do return (base + t.offset ty x.path, ← x.constant? t)

variable {t : TypeTable}

theorem imageOf_append {base : Nat} {ty : Ty} {xs ys : List Entry} {c d : List (Nat × Constant)}
    (hx : imageOf t base ty xs = some c) (hy : imageOf t base ty ys = some d) :
    imageOf t base ty (xs ++ ys) = some (c ++ d) := by
  unfold imageOf at *
  rw [List.mapM_append, hx, hy]
  rfl

theorem mem_imageOf {base : Nat} {ty : Ty} {xs : List Entry} {image : List (Nat × Constant)}
    (h : imageOf t base ty xs = some image) :
    ∀ y ∈ image, ∃ x ∈ xs, ∃ c, x.constant? t = some c ∧ y = (base + t.offset ty x.path, c) := by
  unfold imageOf at h
  induction xs generalizing image with
  | nil =>
    cases h
    exact nofun
  | cons x xs ih =>
    rw [List.mapM_cons] at h
    simp only [Option.bind_eq_bind, Option.bind_eq_some_iff] at h
    obtain ⟨_, ⟨c, constant, entry⟩, rest, others, done⟩ := h
    cases entry
    cases done
    refine List.forall_mem_cons.mpr ⟨⟨x, List.mem_cons_self, c, constant, rfl⟩, fun y mem => ?_⟩
    obtain ⟨z, listed, found⟩ := ih others y mem
    exact ⟨z, List.mem_cons_of_mem x listed, found⟩

theorem imageOf_under {selector : Selector} {whole : Ty} (ty : Ty) {base distance : Nat}
    (h : ∀ path, t.offset whole (selector :: path) = distance + t.offset ty path) (xs : List Entry) :
    imageOf t base whole (xs.map (.under selector)) = imageOf t (base + distance) ty xs := by
  unfold imageOf
  rw [List.mapM_map]
  refine congrArg (xs.mapM ·) (funext fun x => ?_)
  show (do return (base + t.offset whole (selector :: x.path), ← x.constant? t) : Option (Nat × Constant)) = _
  rw [h, Nat.add_assoc]

theorem imageOf_value {base : Nat} {ty : Ty} {e : Expr} {image : List (Nat × Constant)}
    (h : initialSlots?.slot t ty base e = some image) : imageOf t base ty [⟨[], ty, .value e⟩] = some image := by
  unfold initialSlots?.slot at h
  simp only [Option.bind_eq_bind, Option.bind_eq_some_iff] at h
  obtain ⟨c, folds, c', coerced, h⟩ := h
  cases h
  unfold imageOf
  rw [List.mapM_cons]
  simp [Entry.constant?, folds, coerced, TypeTable.offset_nil]

theorem imageOf_string {elem : Ty} {n : Option Nat} {kind : Scalar} (one : t.slots elem = 1)
    (known : elem.scalar? = some kind) (base : Nat) (s : String) :
    imageOf t base (.array elem n) (s.toUTF8.toList.zipIdx.map fun (b, i) => ⟨[.element i], elem, .byte b⟩) =
      some (numberFrom base ((stringWords kind s).map .int)) := by
  have entry (p : UInt8 × Nat) : (do
      return (base + t.offset (.array elem n) [.element p.2],
        ← (⟨[.element p.2], elem, .byte p.1⟩ : Entry).constant? t) : Option (Nat × Constant)) =
        some (base + p.2, .int (kind.wrap (Int64.ofNat p.1.toNat))) := by
    rw [TypeTable.offset, TypeTable.offset_nil, one, Nat.mul_one, Nat.add_zero]
    show (do return (base + p.2, ← (do return .int ((← elem.scalar?).wrap (Int64.ofNat p.1.toNat)) : Option Constant))
      : Option (Nat × Constant)) = _
    rw [known]
    rfl
  unfold imageOf numberFrom stringWords
  rw [List.mapM_map]
  refine (congrArg (s.toUTF8.toList.zipIdx.mapM ·) (funext entry)).trans ?_
  refine (List.mapM_pure (m := Option)).trans ?_
  rw [List.map_map, List.zipIdx_map, List.map_map]
  rfl

mutual

theorem initialSlots?_eq (layered : a.types.Layered) {ty : Ty} (complete : a.types.isComplete ty) (base : Nat) :
    ∀ {i : Initializer} {image : List (Nat × Constant)}, AcceptedInit a ty i →
      initialSlots? a.types ty base i = some image → imageOf a.types base ty (i.entries a.types ty) = some image
  | .expr e, image, accepted, h => by
    cases ty with
    | array elem n =>
      obtain ⟨-, isChar, i, s, rfl⟩ := accepted
      obtain ⟨one, kind, known⟩ := slots_char (t := a.types) isChar
      rw [initialSlots?.eq_def] at h
      dsimp only at h
      rw [if_pos isChar, known] at h
      cases h
      exact imageOf_string one known base s
    | _ =>
      rw [initialSlots?.eq_def] at h
      dsimp only at h
      split at h
      · exact imageOf_value h
      · cases h
  | .list items span, image, accepted, h => by
    rw [AcceptedInit.eq_def] at accepted
    rw [initialSlots?.eq_def] at h
    rw [Initializer.entries.eq_def]
    dsimp only at accepted h ⊢
    cases ty with
    | array elem n =>
      refine elementSlots?_eq layered (TypeTable.isComplete_array complete).2 n base 0 accepted ?_
      rwa [Nat.zero_mul, Nat.add_zero]
    | record id =>
      obtain ⟨r, found, done, accepted⟩ := accepted
      dsimp only at h ⊢
      rw [found] at h ⊢
      exact fieldSlots?_eq layered (finds_fields layered found done) base accepted h
    | _ =>
      match items, accepted with
      | [], _ => exact h
      | [item], accepted => exact initialSlots?_eq layered complete base accepted h
  | .construct args span, image, accepted, h => by
    rw [AcceptedInit.eq_def] at accepted
    match args, accepted with
    | [], _ => exact h
    | [e], _ =>
      rw [initialSlots?.eq_def] at h
      dsimp only at h
      split at h
      · exact imageOf_value h
      · cases h

theorem elementSlots?_eq (layered : a.types.Layered) {elem : Ty} (complete : a.types.isComplete elem) (n : Option Nat)
    (base start : Nat) : ∀ {is : List Initializer} {image : List (Nat × Constant)}, AcceptedElements a elem is →
      elementSlots? a.types elem (a.types.slots elem) (base + start * a.types.slots elem) is = some image →
      imageOf a.types base (.array elem n) (Initializer.elementEntries a.types elem start is) = some image
  | [], _, _, h => h
  | item :: items, image, accepted, h => by
    rw [elementSlots?] at h
    simp only [Option.bind_eq_bind, Option.bind_eq_some_iff] at h
    obtain ⟨c, first, d, second, h⟩ := h
    cases h
    rw [Nat.add_assoc, ← Nat.succ_mul] at second
    rw [Initializer.elementEntries]
    refine imageOf_append ?_ (elementSlots?_eq layered complete n base (start + 1) accepted.2 second)
    rw [imageOf_under elem fun path => rfl]
    exact initialSlots?_eq layered complete _ accepted.1 first

theorem fieldSlots?_eq (layered : a.types.Layered) {id : RecordId} {fields : List Field}
    (finds : Finds a.types id fields) (base : Nat) : ∀ {is : List Initializer} {image : List (Nat × Constant)},
      AcceptedMembers a fields is → fieldSlots? a.types fields base is = some image →
      imageOf a.types base (.record id) (Initializer.fieldEntries a.types fields is) = some image
  | [], _, _, h => h
  | item :: items, image, accepted, h => by
    rw [AcceptedMembers.eq_def] at accepted
    match fields, accepted with
    | f :: fields, accepted =>
      obtain ⟨complete, offset⟩ := finds f List.mem_cons_self
      rw [fieldSlots?] at h
      simp only [Option.bind_eq_bind, Option.bind_eq_some_iff] at h
      obtain ⟨c, first, d, second, h⟩ := h
      cases h
      rw [Initializer.fieldEntries]
      refine imageOf_append ?_ (fieldSlots?_eq layered (fun g mem => finds g (List.mem_cons_of_mem f mem)) base
        accepted.2 second)
      rw [imageOf_under _ offset]
      exact initialSlots?_eq layered complete _ accepted.1 first

end

end Typed

end IncrementalC
