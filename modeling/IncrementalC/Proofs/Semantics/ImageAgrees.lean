import IncrementalC.Proofs.Analysis.Reached
import IncrementalC.Proofs.Machine.Placement
import IncrementalC.Proofs.Semantics.Filling
import Mathlib.Data.List.Forall2

/-!
# Images and code of initial values

An initial value for which no code has to run becomes an image of the object, and linking puts the image into
memory. Code for the same value leaves the same values in an object of zeros (`image_agrees`).
-/
namespace IncrementalC
set_option autoImplicit false
open Lowering Structured
open Typed (Expr Initializer Entry)

/-! ## Images in modules -/

/-- How a module writes a constant. -/
inductive CodeModule.Writes (g : CodeModule) : Constant → CodeConst → Prop where
  | int (v : Int64) : Writes g (.int v) (.int v)
  | bool (b : Bool) : Writes g (.bool b) (.int (boolWord b))
  | float (x : Double) : Writes g (.float x) (.float x)
  | ptr (p : UInt64) : Writes g (.ptr p) (.ptr p)
  | str {text : String} {i : Nat} (numbered : g.strings[i]? = some text) : Writes g (.str text) (.str i)

/-- An entry of an image in the module. -/
structure CodeModule.WritesEntry (g : CodeModule) (x : Nat × Constant) (y : Nat × CodeConst) : Prop where
  slot : y.1 = slotWord x.1
  constant : g.Writes x.2 y.2

namespace CodeModule

variable {g g' c : CodeModule}

theorem Writes.mono (keeps : g.KeepsStrings g') {k : Constant} {l : CodeConst} (h : g.Writes k l) : g'.Writes k l := by
  cases h with
  | str numbered => exact .str (keeps _ _ numbered)
  | _ => constructor

theorem WritesEntry.mono (keeps : g.KeepsStrings g') {x : Nat × Constant} {y : Nat × CodeConst}
    (h : g.WritesEntry x y) : g'.WritesEntry x y :=
  ⟨h.slot, h.constant.mono keeps⟩

theorem writes_constant {k : Constant} {l : CodeConst} (run : Lowering.addGlobal.constant k g = .ok (l, g')) :
    g.KeepsStrings g' ∧ g'.Writes k l := by
  cases k with
  | int v =>
    cases run
    exact ⟨.refl g, .int v⟩
  | bool b =>
    cases run
    exact ⟨.refl g, .bool b⟩
  | float x =>
    cases run
    exact ⟨.refl g, .float x⟩
  | ptr p =>
    cases run
    exact ⟨.refl g, .ptr p⟩
  | str text =>
    obtain ⟨keeps, found⟩ := g.intern_keeps text
    cases run
    exact ⟨keeps, .str found⟩

theorem writes_image {image : List (Nat × Constant)} {init : List (Nat × CodeConst)}
    (run : (image.mapM fun x => do return (slotWord x.1, ← Lowering.addGlobal.constant x.2) : Gen _) g = .ok (init, g')) :
    g.KeepsStrings g' ∧ List.Forall₂ g'.WritesEntry image init := by
  induction image generalizing g init with
  | nil =>
    cases run
    exact ⟨.refl _, .nil⟩
  | cons x image ih =>
    rw [List.mapM_cons] at run
    obtain ⟨y, g₁, entry, run⟩ := Lowering.bind_eq_ok run
    obtain ⟨rest, g₂, others, done⟩ := Lowering.bind_eq_ok run
    cases done
    obtain ⟨l, g₃, constant, done⟩ := Lowering.bind_eq_ok entry
    cases done
    obtain ⟨keeps, writes⟩ := writes_constant constant
    obtain ⟨keeps', written⟩ := ih others
    exact ⟨keeps.trans keeps', .cons ⟨rfl, writes.mono keeps'⟩ written⟩

/-- The module has an object with the image. -/
def Defines (c : CodeModule) (a : Analysis) (v : Typed.VarDecl) (image : List (Nat × Constant)) : Prop :=
  ∃ g g', Lowering.addGlobal a v image g = .ok ((), g') ∧ g'.KeepsStrings c ∧ ∀ o ∈ g'.globals, o ∈ c.globals

theorem Defines.object {a : Analysis} {v : Typed.VarDecl} {image : List (Nat × Constant)} (h : c.Defines a v image) :
    ∃ init, ⟨v.linkName, slotWord (a.types.stride v.ty), init⟩ ∈ c.globals ∧
      List.Forall₂ c.WritesEntry image init := by
  obtain ⟨g, g', run, keeps, kept⟩ := h
  obtain ⟨init, g₁, written, done⟩ := Lowering.bind_eq_ok run
  cases done
  have keeps : g₁.KeepsStrings c := keeps
  obtain ⟨-, writes⟩ := writes_image written
  exact ⟨init, kept _ Array.mem_push_self, writes.imp fun _ _ entry => entry.mono keeps⟩

end CodeModule

/-! ## What a slot holds -/

/-- The value `v'` in the machine `m'` is what `v` is in `m`: the same, or the address of the same literal. -/
def Value.SameIn (m m' : Machine) (v v' : Value) : Prop :=
  v = v' ∨ ∃ text p p', m.strings.get? text = some p ∧ m'.strings.get? text = some p' ∧ v = .ptr p ∧ v' = .ptr p'

/-- What a slot holds by an image. -/
def Eval.imaged (s : Scene) (image : List (Nat × Constant)) (k : Nat) : Value :=
  match image.reverse.lookup k with
  | some c => worth s c
  | none => .int 0

/-- Lists with the same keys, and with values that go together. -/
theorem lookup_related {α β : Type} {R : α → β → Prop} {xs : List (Nat × α)} {ys : List (Nat × β)}
    (h : List.Forall₂ (fun x y => y.1 = x.1 ∧ R x.2 y.2) xs ys) (k : Nat) :
    xs.lookup k = none ∧ ys.lookup k = none ∨ ∃ x y, xs.lookup k = some x ∧ ys.lookup k = some y ∧ R x y := by
  induction h with
  | nil => exact .inl ⟨rfl, rfl⟩
  | @cons x y xs ys same _ ih =>
    rw [List.lookup_cons, List.lookup_cons, same.1]
    cases k == x.1 with
    | true => exact .inr ⟨x.2, y.2, rfl, rfl, same.2⟩
    | false => exact ih

namespace CodeModule

variable {c : CodeModule} {m m' : Machine} {s : Scene}

theorem Writes.sameIn {k : Constant} {l : CodeConst} {u : Value} (writes : c.Writes k l)
    (constant : m.constant? c l = some u) (sees : Eval.Sees s k) : Value.SameIn m s.linked u (Eval.worth s k) := by
  cases writes with
  | str numbered =>
    obtain ⟨p, place, rfl⟩ := Option.map_eq_some_iff.mp constant
    rw [numbered] at place
    obtain ⟨p', place', -⟩ := sees _ rfl
    exact .inr ⟨_, p, p', place, place', rfl, Eval.literal_eq place'⟩
  | bool b =>
    cases constant
    cases b <;> exact .inl rfl
  | _ =>
    cases constant
    exact .inl rfl

/-- A linked object holds its image. -/
theorem Defines.holds {a : Analysis} {v : Typed.VarDecl} {image : List (Nat × Constant)} (defines : c.Defines a v image)
    (inside : ∀ x ∈ image, x.1 < a.types.slots v.ty) (small : a.types.slots v.ty < UInt32.size)
    (linked : Machine.LinkedInto c m m') :
    ∃ place, m'.place? (.object v.linkName) = some place ∧
      ∀ s : Scene, (∀ x ∈ image, Eval.Sees s x.2) → ∀ k < a.types.slots v.ty,
        ∃ u, m'.globals[place.base + k]? = some u ∧ Value.SameIn m' s.linked u (Eval.imaged s image k) := by
  obtain ⟨init, member, writes⟩ := defines.object
  obtain ⟨place, found, slots, values⟩ := linked.images _ member
  refine ⟨place, found, fun s sees k below => ?_⟩
  have known := (List.forall₂_and_left image init).mpr ⟨fun x mem => And.intro (inside x mem) (sees x mem), writes⟩
  have related : List.Forall₂ (fun x y => y.1 = x.1 ∧ c.Writes x.2 y.2 ∧ Eval.Sees s x.2) image init := by
    refine known.imp fun x y entry => ?_
    obtain ⟨⟨below, seen⟩, slot, constant⟩ := entry
    exact ⟨slot.trans (Nat.mod_eq_of_lt (Nat.lt_trans below small)), constant, seen⟩
  have reserved : k < slotWord (a.types.stride v.ty) := by
    have word : slotWord (a.types.stride v.ty) = a.types.stride v.ty :=
      Nat.mod_eq_of_lt (Nat.max_lt.mpr ⟨small, by decide⟩)
    rw [word]
    exact Nat.lt_of_lt_of_le below (Nat.le_max_left _ _)
  obtain ⟨u, value, here⟩ := values k reserved
  refine ⟨u, here, ?_⟩
  unfold Machine.image? CodeGlobal.initial? at value
  unfold Eval.imaged
  obtain ⟨absent, absent'⟩ | ⟨x, y, first, second, writes, sees⟩ := lookup_related
      (R := fun x y => c.Writes x y ∧ Eval.Sees s x) (List.rel_reverse related) k
  · rw [absent'] at value
    rw [absent]
    cases value
    exact .inl rfl
  · rw [second] at value
    rw [first]
    exact writes.sameIn value sees

end CodeModule

/-! ## Filled objects -/

namespace Eval

/-- The object lies at the address, with zeros in its slots. -/
structure Zeroed (s : Scene) (binding : Typed.Binding) (p : Address) (slots : Nat) (m : Machine) : Prop where
  address : variableAddress s binding m = .ok (.ptr p.encode) m
  zeros : ∀ k < slots, m.read? (p.offset (Int64.ofNat k)).encode = some (.int 0)

variable {s : Scene} {binding : Typed.Binding} {p : Address} {slots : Nat} {m : Machine}

theorem Zeroed.liesAt (h : Zeroed s binding p slots m) : LiesAt s binding p slots m := by
  refine ⟨h.address, fun k below => ?_⟩
  unfold Machine.isMapped
  rw [h.zeros k below]
  rfl

/-- Zeros and then an image are stored into an object of zeros. -/
theorem fill_image (zeroed : Zeroed s binding p slots m) (small : slots ≤ Address.reach) {zs : List (Nat × Value)}
    (clears : ∀ x ∈ zs, x.1 < slots ∧ x.2 = .int 0) {image : List (Nat × Constant)}
    (inside : ∀ x ∈ image, x.1 < slots) :
    ∃ m', fill s binding (zs ++ image.map fun x => (x.1, worth s x.2)) m = .ok () m' ∧
      ∀ k < slots, m'.read? (p.offset (Int64.ofNat k)).encode = some (imaged s image k) := by
  have within : ∀ x ∈ zs ++ image.map fun x => (x.1, worth s x.2), x.1 < slots := by
    refine List.forall_mem_append.mpr ⟨fun x mem => (clears x mem).1, fun y mem => ?_⟩
    obtain ⟨x, member, rfl⟩ := List.mem_map.mp mem
    exact inside x member
  obtain ⟨m', filled, reads⟩ := fill_ok small within zeroed.liesAt
  refine ⟨m', filled, fun k below => ?_⟩
  have related : List.Forall₂ (fun x y => y.1 = x.1 ∧ y.2 = worth s x.2) image
      (image.map fun x => (x.1, worth s x.2)) :=
    List.forall₂_map_right_iff.mpr (List.forall₂_same.mpr fun _ _ => ⟨rfl, rfl⟩)
  rw [reads k below, zeroed.zeros k below, List.reverse_append, List.lookup_append]
  unfold imaged
  obtain ⟨absent, absent'⟩ | ⟨c, v, first, second, rfl⟩ := lookup_related
      (R := fun c v => v = worth s c) (List.rel_reverse related) k
  · rw [absent, absent', Option.none_or]
    cases cleared : zs.reverse.lookup k with
    | none => rfl
    | some v =>
      obtain ⟨front, back, split, -⟩ := List.lookup_eq_some_iff.mp cleared
      have mem : (k, v) ∈ zs := List.mem_reverse.mp (split ▸ List.mem_append_right front List.mem_cons_self)
      rw [Option.some_or, show v = .int 0 from (clears _ mem).2]
  · rw [first, second]
    rfl

end Eval

namespace Track

theorem cleared_zeros {types : TypeTable} {ty : Ty} {i : Initializer} :
    ∀ x ∈ cleared types ty i, x.1 < types.slots ty ∧ x.2 = .int 0 := by
  unfold cleared
  split
  · intro x mem
    obtain ⟨k, below, rfl⟩ := List.mem_map.mp mem
    exact ⟨List.mem_range.mp below, rfl⟩
  · exact nofun

/-- What an image holds lies inside of the object. -/
theorem image_inside {a : Analysis} {ty : Ty} {i : Initializer} {image : List (Nat × Constant)} (layered : a.types.Layered)
    (complete : a.types.isComplete ty) (accepted : Typed.AcceptedInit a ty i) (room : Typed.RoomFor a.types ty i)
    (constant : Typed.constantImage? a.types ty (some i) = some image) : ∀ x ∈ image, x.1 < a.types.slots ty := by
  have known := Typed.initialSlots?_eq layered complete 0 accepted constant
  have given := Typed.RoomFor.entries_given layered complete accepted room
  intro y mem
  obtain ⟨x, listed, c, constant, rfl⟩ := Typed.mem_imageOf known y mem
  rw [Nat.zero_add]
  exact offset_inside layered complete (given x listed) constant

end Track

/-! ## Linked objects and linked code -/

/-- Code that leaves no value has run when its effect on the memory is there. -/
theorem evaluates_of_unit {η : Type} {host : Option (Host η)} {l : List Frame} {frame : Frame} {s : Segment} {w : World η}
    {σ : Track η} {p : Piece} {M : Eval Unit} {m : Machine} (runs : σ.Runs p [] M fun _ => [])
    (comes : ∀ M, σ.Runs p [] M Option.toList → Evaluates host l frame s w (M w.machine))
    (ran : M w.machine = .ok () m) : Evaluates host l frame s w (.ok none m) := by
  have whole : σ.Runs p [] (do M; return none) Option.toList := runs.map (f := fun _ => none)
  have result : (do M; return none : Eval (Option Value)) w.machine = .ok none m := by
    show EStateM.bind M _ w.machine = _
    unfold EStateM.bind
    rw [ran]
    rfl
  rw [← result]
  exact comes _ whole

/-- Static and dynamic initialization produce the same object. A variable is analysed without errors and with an
initial value that has no floating number in it, whose characters and enumerators are in range, and that gives no
number without sign from `2 ^ 63` on to a floating part. If the value has an image, an object of that type that is
linked with the image holds what the code of the value leaves in an object of zeros, slot by slot. -/
theorem image_agrees {a₀ a b : Analysis} {spec : Syntax.DeclSpec} {name : String} {d : Syntax.Declarator}
    {init : Option Syntax.Initializer} {span : Span} {v : Typed.VarDecl} {i : Initializer} {image : List (Nat × Constant)}
    (sound : a₀.Sound) (spelled : spec.Written) (word : IsWord name) (declared : d.Written)
    (written : ∀ i, init = some i → Syntax.WrittenInit i)
    (analyzed : (Analyze.varDecl spec name d init span).run a₀ = (v, a)) (correct : a.errors = #[])
    (given : v.init = some i) (later : a.Extends b) (layered : b.types.Layered) (complete : b.types.isComplete v.ty)
    (small : b.types.slots v.ty < UInt32.size) (plain : ∀ x ∈ i.entries b.types v.ty, x.isPlain)
    (signed : ∀ x ∈ i.entries b.types v.ty, x.keepsSign b.types)
    (constant : Typed.constantImage? b.types v.ty (some i) = some image)
    {c : CodeModule} {u : Typed.VarDecl} (type : u.ty = v.ty) (defines : c.Defines b u image)
    (objects : (c.globals.toList.map (·.name)).Nodup) {m m' : Machine} {names : List String} (reached : m.Reached)
    (linked : Machine.link c m = .ok names m') (room : m'.globals.size ≤ Address.reach)
    {e : CodeModule} {place : Place} {f : CodeFunction} {s : Segment}
    (contains : e.Contains (initObject b place v.ty i) f s) (functions : (e.functions.toList.map (·.name)).Nodup)
    {n n' : Machine} {names' : List String} (reached' : n.Reached) (linked' : Machine.link e n = .ok names' n') :
    ∃ object f', m'.place? (.object u.linkName) = some object ∧ n'.functions.get? f.name = some f' ∧
      ∀ (η : Type) (host : Option (Host η)) (w : World η) (l : List Frame) (frame : Frame) (p : Address),
        frame.function = f' → Stands l frame s.first w →
        Eval.Zeroed ⟨b.types, frame.base, n'⟩ place.binding p (b.types.slots v.ty) w.machine →
          ∃ filled, Evaluates host l frame s w (.ok none filled) ∧ ∀ k < b.types.slots v.ty,
            ∃ x y, m'.globals[object.base + k]? = some x ∧ filled.read? (p.offset (Int64.ofNat k)).encode = some y ∧
              Value.SameIn m' n' x y := by
  have meets : Analyze.MeetsAt True a₀ (Analyze.varDecl spec name d init span) _ :=
    (Analyze.MeetsAt.varDecl spelled word declared written).and (Analyze.MeetsAt.varDecl_room spelled word declared written)
  have meets := meets.meets trivial sound
  rw [analyzed] at meets
  obtain ⟨-, isAccepted, hasRoom⟩ := meets correct
  have accepted : Typed.AcceptedInit b v.ty i := (isAccepted.init i given).mono later
  have roomy : Typed.RoomFor b.types v.ty i := (hasRoom i given).mono later
  have placed : Machine.LiteralsPlaced n' := by
    have placed := (reached'.linked e).literalsPlaced
    rwa [linked'] at placed
  have inside := Track.image_inside layered complete accepted roomy constant
  have into := Machine.link_linkedInto linked objects reached.ordered room
  obtain ⟨object, known, holds⟩ := defines.holds (type ▸ inside) (type ▸ small) into
  obtain ⟨f', found, evaluates⟩ := contains.evaluates functions linked'
  refine ⟨object, f', known, found, fun η host w l frame p isFunction stands zeroed => ?_⟩
  obtain ⟨σ, rfl, rfl, ⟨start, g, is, g', run, knows⟩, comes⟩ := evaluates η host w l frame isFunction stands
  obtain ⟨runs, assures⟩ := Track.runs_initObject layered complete small accepted roomy plain signed placed constant
  have sees := assures start g is g' run knows
  have fits : b.types.slots v.ty ≤ Address.reach := Nat.le_trans (Nat.le_of_lt small) (by decide)
  obtain ⟨filled, fills, reads⟩ := Eval.fill_image zeroed fits (Track.cleared_zeros (i := i)) inside
  refine ⟨filled, ?_, fun k below => ?_⟩
  · exact evaluates_of_unit runs comes fills
  · obtain ⟨x, here, same⟩ := holds _ sees k (type ▸ below)
    exact ⟨x, _, here, reads k below, same⟩

/-- A group that declares one object and gives it a value. -/
def Syntax.TopLevel.onlyGiven? (t : Syntax.TopLevel) :
    Option (String × Syntax.Declarator × Syntax.Initializer × Span) :=
  match t.group.decls with
  | [⟨.var name d (some init), span⟩] => some (name, d, init, span)
  | _ => none

theorem Syntax.TopLevel.onlyGiven?_eq_some {t : Syntax.TopLevel} {name : String} {d : Syntax.Declarator}
    {init : Syntax.Initializer} {span : Span} (h : t.onlyGiven? = some (name, d, init, span)) :
    t.group.decls = [⟨.var name d (some init), span⟩] := by
  unfold onlyGiven? at h
  split at h
  · rename_i decls
    cases h
    exact decls
  · cases h

theorem two_names_agree :
    ∃ (t : Syntax.TopLevel) (d : Syntax.Declarator) (init : Syntax.Initializer) (span : Span) (v : Typed.VarDecl)
      (a : Analysis) (i : Initializer) (image : List (Nat × Constant)) (c : CodeModule) (names : List String) (m : Machine)
      (e : CodeModule) (is : List Instr) (names' : List String) (n : Machine) (object : GlobalSlot) (f : CodeFunction)
      (filled : Machine),
      Syntax.groupOf? "char *s[2] = \x7b \"hi\" \x7d;" = some t ∧
      t.group.decls = [⟨.var "s" d (some init), span⟩] ∧
      (Analyze.varDecl t.group.spec "s" d (some init) span).run {} = (v, a) ∧ v.init = some i ∧
      Typed.constantImage? a.types v.ty (some i) = some image ∧ addGlobal a v image {} = .ok ((), c) ∧
      Machine.link c {} = .ok names m ∧ initObject a (.local 0) v.ty i 0 {} = .ok (is, e) ∧
      Machine.link (e.addFunction ⟨"f", [], none, 2, is.toArray⟩) {} = .ok names' n ∧
      m.place? (.object "s") = some object ∧ n.functions.get? "f" = some f ∧
      Evaluates none [] ⟨f, 0, n.stack.size, n.operands.length⟩ ⟨0, is.length⟩ (⟨n.enter f [], ()⟩ : World Unit)
        (.ok none filled) ∧
      ∀ k < 2, ∃ x y, m.globals[object.base + k]? = some x ∧
        filled.read? ((Address.stack 0).offset (Int64.ofNat k)).encode = some y ∧ Value.SameIn m n x y := by
  have outcome : (do
      let t ← Syntax.groupOf? "char *s[2] = \x7b \"hi\" \x7d;"
      let only ← t.onlyGiven?
      let analyzed ← some ((Analyze.varDecl t.group.spec only.1 only.2.1 (some only.2.2.1) only.2.2.2).run {})
      let i ← analyzed.1.init
      let image ← Typed.constantImage? analyzed.2.types analyzed.1.ty (some i)
      let defined ← (addGlobal analyzed.2 analyzed.1 image {}).toOption
      let linked ← given? (Machine.link defined.2 {})
      let code ← (initObject analyzed.2 (.local 0) analyzed.1.ty i 0 {}).toOption
      let e := code.2.addFunction ⟨"f", [], none, 2, code.1.toArray⟩
      let linked' ← given? (Machine.link e {})
      let n := linked'.2
      let f ← n.functions.get? "f"
      let types := analyzed.2.types
      let entries := i.entries types analyzed.1.ty
      return (decide (analyzed.2.errors.isEmpty ∧ n.frames.isEmpty ∧ types.isComplete analyzed.1.ty ∧
        entries.all (·.isPlain) ∧ entries.all (·.keepsSign types) ∧ (defined.2.globals.toList.map (·.name)).Nodup ∧
        (e.functions.toList.map (·.name)).Nodup ∧ analyzed.1.linkName = "s" ∧ types.slots analyzed.1.ty = 2 ∧
        linked.2.globals.size = 5 ∧ n.stack.size = 0 ∧ ∀ k < 2,
          (n.enter f []).read? ((Address.stack 0).offset (Int64.ofNat k)).encode = some (.int 0)), only.1) : Option _) =
      some (true, "s") := by
    decide +kernel
  simp only [Option.bind_eq_bind, Option.bind_eq_some_iff] at outcome
  obtain ⟨t, read, ⟨name, d, init, span⟩, only, ⟨v, a⟩, analyzed, i, given, image, constant, ⟨⟨⟩, c⟩, defined,
    ⟨names, m⟩, linked, ⟨is, e⟩, code, ⟨names', n⟩, linked', f, found, outcome⟩ := outcome
  obtain ⟨checks, rfl⟩ := Prod.mk.inj (Option.some.inj outcome)
  obtain ⟨correct, frames, complete, plain, signed, objects, functions, linkName, slots, size, bottom, zeros⟩ :=
    of_decide_eq_true checks
  have linked := given?_eq_some linked
  have linked' := given?_eq_some linked'
  have correct : a.errors = #[] := Array.isEmpty_iff.mp correct
  have frames : n.frames = #[] := Array.isEmpty_iff.mp frames
  have decls := Syntax.TopLevel.onlyGiven?_eq_some only
  have analyzed := Option.some.inj analyzed
  have defined := Syntax.toOption_eq_some defined
  have code := Syntax.toOption_eq_some code
  have group := (Syntax.groupOf?_written read).group
  have variable_ := group.decls _ (decls ▸ List.mem_singleton_self _)
  obtain ⟨word, declared, written⟩ := variable_
  have layered : a.types.Layered := by
    have changed : ((Analyze.varDecl t.group.spec "s" d (some init) span).run {}).2.types.Layered :=
      Analyze.Changes.layered (Analyze.Does.varDecl _ _ _ _ _ {}) .empty
    rwa [analyzed] at changed
  have defines : c.Defines a v image := ⟨{}, c, defined, .refl c, fun _ mem => mem⟩
  have contains : (e.addFunction ⟨"f", [], none, 2, is.toArray⟩).Contains (initObject a (.local 0) v.ty i)
      ⟨"f", [], none, 2, is.toArray⟩ ⟨0, is.length⟩ :=
    ⟨Array.mem_push_self, {}, is, e, code, fun _ _ known => known, (Nat.zero_add _).symm, shows_self _⟩
  have room : m.globals.size ≤ Address.reach := size ▸ by decide
  have agrees := image_agrees Analysis.Reached.start.sound group.spec word declared written analyzed correct given
    (.refl a) layered complete (slots ▸ by decide) (List.all_eq_true.mp plain) (List.all_eq_true.mp signed) constant
    rfl defines objects (.new _ _ _) linked room contains functions (.new _ _ _) linked'
  rw [slots, linkName] at agrees
  obtain ⟨object, f', place, known, fills⟩ := agrees
  cases found.symm.trans known
  have zeroed : Eval.Zeroed ⟨a.types, n.stack.size, n⟩ (.local 0) (.stack 0) 2 (n.enter f []) := by
    rw [bottom]
    exact ⟨rfl, zeros⟩
  obtain ⟨filled, evaluates, same⟩ := fills Unit none _ [] _ _ rfl (stands_enter frames f) zeroed
  exact ⟨t, d, init, span, v, a, i, image, c, names, m, e, is, names', n, object, f, filled, read, decls, analyzed,
    given, constant, defined, linked, code, linked', place, found, evaluates, same⟩

/-- The largest number without sign is read with sign for the image of a floating object, which is `-1.0` then. The
code for it leaves the nearest number to `2 ^ 64 - 1`. -/
theorem unsigned_maximum_disagrees :
    (do
      let a : Analysis := {}
      let t ← Syntax.groupOf? "double g = 18446744073709551615ul;"
      let t' ← (a.analyze t).1.toOption
      let b := (a.analyze t).2
      let u ← Syntax.groupOf? "double f() \x7b double d = 18446744073709551615ul; return d; \x7d"
      let u' ← (b.analyze u).1.toOption
      let c ← (lower b t' {}).toOption
      let c' ← (lower (b.analyze u).2 u' c).toOption
      let EStateM.Result.ok _ m := Machine.link c' {} | none
      let g ← m.objects.get? "g"
      let EStateM.Result.ok v _ := Exec.call none "f" [] (⟨m, ()⟩ : World Unit) | none
      return (m.globals[g.base]?, v)) =
      some (some (Value.float ⟨0xBFF0000000000000⟩), some (Value.float ⟨0x43F0000000000000⟩)) := by
  decide +kernel

end IncrementalC
