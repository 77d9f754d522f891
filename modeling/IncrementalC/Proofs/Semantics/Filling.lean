import IncrementalC.Proofs.Lowering.InitialRoom
import IncrementalC.Proofs.Machine.Places
import IncrementalC.Proofs.Semantics.FoldingPreserved
import IncrementalC.Proofs.Semantics.LayoutAgrees

/-!
# Filling an object

`Eval.fill` stores values into slots of an object, one after the other. It leaves in every slot what was stored
there last (`Eval.fill_ok`). The code of an initial value whose parts are constants does just that
(`Track.runs_initObject`).
-/
namespace IncrementalC
set_option autoImplicit false
open Lowering
open Typed (Expr Initializer Entry Binding)

namespace Typed

/-- The value has no floating number in it. -/
def Entry.isPlain (x : Entry) : Bool :=
  match x.given with
  | .value e => e.each Expr.isPlain
  | .byte _ => true

/-- A floating part is given no number without sign from `2 ^ 63` on. -/
def Entry.keepsSign (t : TypeTable) (x : Entry) : Bool :=
  match x.given with
  | .value e =>
    if x.ty.isFloating && e.ty.scalar? == some .u64 then
      match Typed.constant? t e with
      | some (.int w) => 0 ≤ w
      | _ => true
    else true
  | .byte _ => true

theorem Entry.nonneg_of_keepsSign {t : TypeTable} {x : Entry} {e : Expr} {c : Constant} (signed : x.keepsSign t)
    (value : x.given = .value e) (folds : Typed.constant? t e = some c) (floating : x.ty.isFloating)
    (unsigned : e.ty.scalar? = some .u64) (w : Int64) (word : c = .int w) : 0 ≤ w := by
  subst word
  simpa [keepsSign, value, floating, unsigned, folds] using signed

end Typed

namespace Eval

variable (s : Scene) (binding : Binding)

def storeSlot (x : Nat × Value) : Eval Unit := do
  store (moved (← variableAddress s binding) (Int64.ofNat x.1)) x.2

/-- Stores values into slots of the object. -/
def fill : List (Nat × Value) → Eval Unit
  | [] => return
  | x :: xs => do
    storeSlot s binding x
    fill xs

/-- The object lies at the address and has so many slots there. -/
structure LiesAt (p : Address) (slots : Nat) (m : Machine) : Prop where
  address : variableAddress s binding m = .ok (.ptr p.encode) m
  mapped : ∀ k < slots, m.isMapped (p.offset (Int64.ofNat k)).encode

variable {s binding} {p : Address} {slots : Nat} {m : Machine}

theorem currentAddress_put {name : String} {v : Value} (known : currentAddress name m = .ok v m) (bits : UInt64)
    (u : Value) : currentAddress name (m.put bits u) = .ok v (m.put bits u) := by
  have same : (m.put bits u).objectAddress? name = m.objectAddress? name := by
    unfold Machine.objectAddress?
    rw [(Machine.put_sameMap m bits u).objects]
  cases found : m.objectAddress? name with
  | none =>
    rw [currentAddress_unknown found] at known
    cases known
  | some q =>
    rw [currentAddress_known found] at known
    cases known
    exact currentAddress_known (same.trans found)

theorem variableAddress_put {v : Value} (known : variableAddress s binding m = .ok v m) (bits : UInt64) (u : Value) :
    variableAddress s binding (m.put bits u) = .ok v (m.put bits u) := by
  cases binding with
  | «local» slot =>
    cases known
    rfl
  | global name =>
    have known : objectAddress s name m = .ok v m := known
    show objectAddress s name (m.put bits u) = .ok v (m.put bits u)
    cases linked : s.linked.objectAddress? name with
    | none =>
      rw [objectAddress_later linked] at known ⊢
      exact currentAddress_put known bits u
    | some q =>
      rw [objectAddress_linked linked] at known ⊢
      cases known
      rfl
  | _ => cases known

theorem store_ok {q : UInt64} (mapped : m.isMapped q) (v : Value) : store (.ptr q) v m = .ok () (m.put q v) := by
  have stored : store (.ptr q) v m = (do set (← ofExcept (m.write q v)) : Eval Unit) m := rfl
  rw [stored]
  unfold Machine.write
  rw [if_pos mapped]
  rfl

theorem storeSlot_ok (lies : LiesAt s binding p slots m) {k : Nat} (inside : k < slots) (v : Value) :
    storeSlot s binding (k, v) m = .ok () (m.put (p.offset (Int64.ofNat k)).encode v) := by
  have stored : store (moved (.ptr p.encode) (Int64.ofNat k)) v m = .ok () (m.put (p.offset (Int64.ofNat k)).encode v) := by
    rw [moved_encode]
    exact store_ok (lies.mapped k inside) v
  show EStateM.bind (variableAddress s binding) _ m = _
  unfold EStateM.bind
  rw [lies.address]
  exact stored

theorem LiesAt.put (lies : LiesAt s binding p slots m) {k : Nat} (inside : k < slots) (v : Value) :
    LiesAt s binding p slots (m.put (p.offset (Int64.ofNat k)).encode v) :=
  ⟨variableAddress_put lies.address _ _, fun j small =>
    Machine.isMapped_put (lies.mapped k inside) v (lies.mapped j small)⟩

/-- Every slot holds what was stored there last. -/
theorem fill_ok (small : slots ≤ Address.reach) {xs : List (Nat × Value)} (inside : ∀ x ∈ xs, x.1 < slots)
    (lies : LiesAt s binding p slots m) : ∃ m', fill s binding xs m = .ok () m' ∧
      ∀ k < slots, m'.read? (p.offset (Int64.ofNat k)).encode =
        (xs.reverse.lookup k).or (m.read? (p.offset (Int64.ofNat k)).encode) := by
  induction xs generalizing m with
  | nil => exact ⟨m, rfl, fun _ _ => rfl⟩
  | cons x xs ih =>
    obtain ⟨j, v⟩ := x
    obtain ⟨here, rest⟩ := List.forall_mem_cons.mp inside
    obtain ⟨m', filled, reads⟩ := ih rest (lies.put here v)
    refine ⟨m', ?_, fun k below => ?_⟩
    · show EStateM.bind (storeSlot s binding (j, v)) _ m = _
      unfold EStateM.bind
      rw [storeSlot_ok lies here v]
      exact filled
    · rw [reads k below, List.reverse_cons, List.lookup_append, Option.or_assoc, Machine.read?_put (lies.mapped j here),
        Address.decode_offset, Address.decode_offset]
      by_cases same : k = j
      · subst same
        rw [if_pos rfl, List.lookup_cons_self]
        rfl
      · have apart : p.offset (Int64.ofNat k) ≠ p.offset (Int64.ofNat j) := fun equal =>
          same (Address.offset_inj (Nat.lt_of_lt_of_le below small) (Nat.lt_of_lt_of_le here small) equal)
        rw [if_neg apart, List.lookup_cons, beq_false_of_ne same]
        rfl

theorem fill_append (xs ys : List (Nat × Value)) :
    fill s binding (xs ++ ys) = (do fill s binding xs; fill s binding ys) := by
  induction xs with
  | nil => exact (pure_bind _ _).symm
  | cons x xs ih =>
    show (storeSlot s binding x >>= fun _ => fill s binding (xs ++ ys)) = _
    rw [ih]
    exact (bind_assoc _ _ _).symm

end Eval

namespace Track

variable {η : Type} {σ : Track η} {a : Analysis} {place : Place} {k : Nat}

/-! ## Single slots -/

/-- Code of a value, and its store into a slot. -/
theorem runs_storedAt {q : Piece} {v w : Value} {kind : Scalar} (small : k < UInt32.size)
    (value : ∀ u, σ.Runs q [u] (pure ()) fun _ => [v, u]) (keeps : q.Keeps) (stored : v.coerce kind = w) :
    σ.Runs (.code (place.address k) ++ q ++ .code [.store kind] ++ .code [.pop]) []
      (Eval.storeSlot (σ.scene a.types) place.binding (k, w)) fun _ => [] := by
  have address := σ.runs_slot a.types place small
  have valued := address.passing keeps fun p _ _ _ => value (Eval.moved p (Int64.ofNat k))
  have store (p : Value) : σ.Runs (.code [.store kind]) [v, Eval.moved p (Int64.ofNat k)]
      (Eval.store (Eval.moved p (Int64.ofNat k)) w) fun _ => [w] :=
    stored ▸ .single (acts_store kind v _) rfl
  have both := valued.append (.code _) fun p _ _ _ => store p
  exact both.turning fun _ _ _ _ => .single (acts_pop w) rfl

/-- A word that stands in the code, stored into a slot. -/
theorem runs_storedWord {n : Int64} {w : Value} {kind : Scalar} (small : k < UInt32.size)
    (stored : (Value.int n).coerce kind = w) :
    σ.Runs (.code (place.address k ++ [.pushInt n, .store kind, .pop])) []
      (Eval.storeSlot (σ.scene a.types) place.binding (k, w)) fun _ => [] := by
  have code : place.address k ++ [.pushInt n, .store kind, .pop] =
      place.address k ++ [.pushInt n] ++ [.store kind] ++ [.pop] := by simp
  rw [code, Piece.code_append, Piece.code_append, Piece.code_append]
  exact runs_storedAt small (fun u => turns_pushInt n [u]) (.code _) stored

theorem storeExpr_eq {ty : Ty} {e : Expr} {kind : Scalar} (notRecord : ty.isRecord = false) (known : kindOf? ty = some kind) :
    storeExpr a place k ty e = .code (place.address k) ++ (rvalue a e ++ .code (convert e.ty ty)) ++ .code [.store kind]
      ++ .code [.pop] := by
  unfold storeExpr
  rw [if_neg (Bool.eq_false_iff.mp notRecord), known, ← Piece.append_assoc, ← Piece.append_assoc]
  rfl

/-- The code of an expression that is folded, stored into a slot. -/
theorem Folded.stored {e : Expr} {c : Constant} {ty : Ty} {w : Value} {kind : Scalar} (folded : σ.Folded a e c)
    (small : k < UInt32.size) (notRecord : ty.isRecord = false) (known : kindOf? ty = some kind)
    (stored : (Eval.converted e.ty ty (Eval.worth (σ.scene a.types) c)).coerce kind = w) :
    σ.Runs (storeExpr a place k ty e) [] (Eval.storeSlot (σ.scene a.types) place.binding (k, w)) fun _ => [] := by
  have converted : σ.Runs (rvalue a e ++ .code (convert e.ty ty)) [] (pure (Eval.worth (σ.scene a.types) c)) fun _ =>
      [Eval.converted e.ty ty (Eval.worth (σ.scene a.types) c)] := by
    refine folded.runs.turning fun v m m' given => ?_
    cases given
    exact turns_convert folded.fits.suits
  rw [storeExpr_eq notRecord known]
  refine runs_storedAt small (fun u => ?_) ((keeps_rvalue e).append (.code _)) stored
  exact fun start g is g' run knows => converted.frame [u] start g is g' run knows

/-! ## Entries -/

/-- The code of an entry stores the constant into the slot. -/
structure Stores (σ : Track η) (a : Analysis) (place : Place) (k : Nat) (x : Entry) (c : Constant) : Prop where
  runs : σ.Runs (storeEntry a place k x) []
    (Eval.storeSlot (σ.scene a.types) place.binding (k, Eval.worth (σ.scene a.types) c)) fun _ => []
  sees : σ.Assures (storeEntry a place k x) (Eval.Sees (σ.scene a.types) c)

theorem keeps_storeEntry (x : Entry) : (storeEntry a place k x).Keeps := by
  unfold storeEntry
  split
  · unfold storeExpr
    refine .append (.append (.append (.code _) (keeps_rvalue _)) (.ite (.code _) (.append (.code _) ?_))) (.code _)
    exact .needs _ _ _ fun kind => [.store kind]
  · exact .code _

theorem keeps_storeEntries (base : Nat) (ty : Ty) (xs : List Entry) : (storeEntries a place base ty xs).Keeps := by
  induction xs with
  | nil => exact .code _
  | cons x xs ih => exact .append (keeps_storeEntry x) ih

theorem kind_of_coerce {ty : Ty} {c c' : Constant} (becomes : c.coerce ty = some c') :
    ∃ kind, kindOf? ty = some kind ∧ ty.isRecord = false := by
  cases ty with
  | int kind =>
    obtain ⟨rank, signed⟩ := kind
    cases rank <;> cases signed <;> exact ⟨_, rfl, rfl⟩
  | void | record _ | dependent | dynamic => cases becomes
  | _ => exact ⟨_, rfl, rfl⟩

theorem sees_of_coerce {s : Scene} {ty : Ty} {c c' : Constant} (sees : Eval.Sees s c) (becomes : c.coerce ty = some c') :
    Eval.Sees s c' := by
  cases floating : ty.isFloating with
  | false => exact (Eval.coerced floating becomes).sees sees
  | true =>
    cases ty with
    | float | double =>
      obtain ⟨x, -, rfl⟩ := Option.map_eq_some_iff.mp becomes
      exact nofun
    | _ => cases floating

/-- A folded value, converted to the type of its part. -/
theorem stores_value {x : Entry} {e : Expr} {c : Constant} (value : x.given = .value e) (accepted : e.Accepted a)
    (plain : x.isPlain) (signed : x.keepsSign a.types) (constant : x.constant? a.types = some c)
    (placed : Machine.LiteralsPlaced σ.linked) (small : k < UInt32.size) : σ.Stores a place k x c := by
  have code : storeEntry a place k x = storeExpr a place k x.ty e := by
    unfold storeEntry
    rw [value]
  have isPlain : e.each Expr.isPlain := by
    unfold Entry.isPlain at plain
    rwa [value] at plain
  unfold Entry.constant? at constant
  rw [value] at constant
  obtain ⟨d, folds, becomes⟩ := Option.bind_eq_some_iff.mp constant
  obtain ⟨kind, known, notRecord⟩ := kind_of_coerce becomes
  have folded : σ.Folded a e d := accepted.folded isPlain folds placed
  have sees : σ.Assures (storeExpr a place k x.ty e) (Eval.Sees (σ.scene a.types) d) := by
    rw [storeExpr_eq notRecord known]
    exact (((folded.sees.left (.code _)).right).left (.code _)).left (.code _)
  refine ⟨?_, ?_⟩
  · rw [code]
    refine sees.runs fun sees => folded.stored small notRecord known ?_
    exact Eval.stored_worth folded.fits sees becomes known (Entry.nonneg_of_keepsSign signed value folds)
  · rw [code]
    exact sees.imp fun sees => sees_of_coerce sees becomes

theorem isInteger_of_isChar {ty : Ty} {kind : Scalar} (isChar : ty.isChar) (known : ty.scalar? = some kind) :
    kind.isInteger := by
  cases ty with
  | int k =>
    obtain ⟨rank, signed⟩ := k
    cases rank <;> cases signed <;> cases isChar <;> cases known <;> rfl
  | _ => cases isChar

theorem stores_byte {x : Entry} {b : UInt8} {c : Constant} (byte : x.given = .byte b) (isChar : x.ty.isChar)
    (constant : x.constant? a.types = some c) (small : k < UInt32.size) : σ.Stores a place k x c := by
  obtain ⟨-, kind, known⟩ := slots_char (t := a.types) isChar
  unfold Entry.constant? at constant
  rw [byte] at constant
  dsimp only at constant
  rw [known] at constant
  cases constant
  have integer : kind.isInteger := isInteger_of_isChar isChar known
  refine ⟨?_, .of nofun⟩
  unfold storeEntry
  rw [byte]
  dsimp only
  rw [known]
  exact runs_storedWord small (Value.isOf_wrap integer _)

/-- What an accepted value gives to a part, folded to a constant. -/
theorem stores_given {x : Entry} {ty : Ty} {c : Constant} (given : x.Given a ty) (plain : x.isPlain)
    (signed : x.keepsSign a.types) (constant : x.constant? a.types = some c)
    (placed : Machine.LiteralsPlaced σ.linked) (small : k < UInt32.size) : σ.Stores a place k x c := by
  cases value : x.given with
  | value e => exact stores_value value (given.value e value).1 plain signed constant placed small
  | byte b => exact stores_byte value (given.byte b value) constant small

/-- The code of the entries stores their constants, one after the other. -/
theorem runs_storeEntries {base : Nat} {ty : Ty} {xs : List Entry} {image : List (Nat × Constant)}
    (known : Typed.imageOf a.types base ty xs = some image)
    (stores : ∀ x ∈ xs, ∀ c, x.constant? a.types = some c → σ.Stores a place (base + a.types.offset ty x.path) x c) :
    σ.Runs (storeEntries a place base ty xs) [] (Eval.fill (σ.scene a.types) place.binding
      (image.map fun x => (x.1, Eval.worth (σ.scene a.types) x.2))) (fun _ => []) ∧
      σ.Assures (storeEntries a place base ty xs) (∀ x ∈ image, Eval.Sees (σ.scene a.types) x.2) := by
  induction xs generalizing image with
  | nil =>
    cases known
    exact ⟨Turns.nil, .of nofun⟩
  | cons x xs ih =>
    unfold Typed.imageOf at known
    rw [List.mapM_cons] at known
    simp only [Option.bind_eq_bind, Option.bind_eq_some_iff] at known
    obtain ⟨_, ⟨c, constant, entry⟩, rest, others, done⟩ := known
    cases entry
    cases done
    obtain ⟨stored, seen⟩ := stores x List.mem_cons_self c constant
    obtain ⟨runs, sees⟩ := ih others fun y mem => stores y (List.mem_cons_of_mem x mem)
    have keeps : (storeEntries a place base ty xs).Keeps := keeps_storeEntries base ty xs
    refine ⟨stored.append keeps fun _ _ _ _ => runs, ?_⟩
    intro start g is g' run knows y mem
    have first := seen.left keeps start g is g' run knows
    have later := sees.right (p := storeEntry a place _ x) start g is g' run knows
    obtain rfl | mem := List.mem_cons.mp mem
    · exact first
    · exact later y mem

/-! ## Whole objects -/

/-- A part that gets a constant lies inside of the object. -/
theorem offset_inside {x : Entry} {ty : Ty} {c : Constant} (layered : a.types.Layered) (complete : a.types.isComplete ty)
    (given : x.Given a ty) (constant : x.constant? a.types = some c) : a.types.offset ty x.path < a.types.slots ty := by
  have within := layered.part_inside complete given.part
  have one : a.types.slots x.ty = 1 := by
    cases value : x.given with
    | byte b => exact (slots_char (given.byte b value)).1
    | value e =>
      unfold Entry.constant? at constant
      rw [value] at constant
      obtain ⟨d, -, becomes⟩ := Option.bind_eq_some_iff.mp constant
      obtain ⟨kind, -, notRecord⟩ := kind_of_coerce becomes
      have scalar : x.ty.isAggregate = false := by
        unfold Ty.isAggregate
        rw [notRecord, (given.value e value).2]
        rfl
      exact layered.slots_leaf complete given.part scalar
  rwa [one] at within

theorem runs_zeros {xs : List Nat} (small : ∀ k ∈ xs, k < UInt32.size) :
    σ.Runs (.code (xs.flatMap fun k => place.address k ++ [.pushInt 0, .store .i64, .pop])) []
      (Eval.fill (σ.scene a.types) place.binding (xs.map fun k => (k, .int 0))) fun _ => [] := by
  induction xs with
  | nil => exact Turns.nil
  | cons k xs ih =>
    obtain ⟨here, rest⟩ := List.forall_mem_cons.mp small
    have first : σ.Runs (.code (place.address k ++ [.pushInt 0, .store .i64, .pop])) []
        (Eval.storeSlot (σ.scene a.types) place.binding (k, .int 0)) fun _ => [] := runs_storedWord here rfl
    rw [List.flatMap_cons, Piece.code_append]
    exact first.append (.code _) fun _ _ _ _ => ih rest

/-- What an object is cleared with before its initial value is stored. -/
def cleared (types : TypeTable) (ty : Ty) (i : Initializer) : List (Nat × Value) :=
  if isSparse ty i then (List.range (types.slots ty)).map fun k => (k, .int 0) else []

/-- The code of an initial value with a constant image stores the image. -/
theorem runs_initObject {ty : Ty} {i : Initializer} {image : List (Nat × Constant)} (layered : a.types.Layered)
    (complete : a.types.isComplete ty) (small : a.types.slots ty < UInt32.size) (accepted : Typed.AcceptedInit a ty i)
    (room : Typed.RoomFor a.types ty i) (plain : ∀ x ∈ i.entries a.types ty, x.isPlain)
    (signed : ∀ x ∈ i.entries a.types ty, x.keepsSign a.types) (placed : Machine.LiteralsPlaced σ.linked)
    (constant : Typed.constantImage? a.types ty (some i) = some image) :
    σ.Runs (initObject a place ty i) [] (Eval.fill (σ.scene a.types) place.binding
      (cleared a.types ty i ++ image.map fun x => (x.1, Eval.worth (σ.scene a.types) x.2))) (fun _ => []) ∧
      σ.Assures (initObject a place ty i) (∀ x ∈ image, Eval.Sees (σ.scene a.types) x.2) := by
  have given := Typed.RoomFor.entries_given layered complete accepted room
  have stores : ∀ x ∈ i.entries a.types ty, ∀ c, x.constant? a.types = some c →
      σ.Stores a place (0 + a.types.offset ty x.path) x c := by
    intro x mem c constant
    have inside := offset_inside layered complete (given x mem) constant
    rw [Nat.zero_add]
    exact stores_given (given x mem) (plain x mem) (signed x mem) constant placed (Nat.lt_trans inside small)
  obtain ⟨runs, sees⟩ := runs_storeEntries (Typed.initialSlots?_eq layered complete 0 accepted constant) stores
  rw [← storeInitial_eq layered complete 0 accepted] at runs sees
  unfold initObject cleared
  dsimp only
  split
  · have zeros : ∀ k ∈ List.range (a.types.slots ty), k < UInt32.size := fun k mem =>
      Nat.lt_trans (List.mem_range.mp mem) small
    rw [Eval.fill_append]
    have keeps : (storeInitial a place 0 ty i).Keeps := by
      rw [storeInitial_eq layered complete 0 accepted]
      exact keeps_storeEntries 0 ty _
    exact ⟨(runs_zeros zeros).append keeps fun _ _ _ _ => runs, sees.right⟩
  · exact ⟨runs, sees⟩

end Track

end IncrementalC
