import IncrementalC.Proofs.Machine.Placement
import IncrementalC.Proofs.Storage.Translated
import Mathlib.Algebra.Order.BigOperators.Group.List
import Mathlib.Algebra.Order.Group.Nat

/-!
# Every object has storage of its own

Two objects of a translated unit are linked under the same name only if their names clash (`Translated.linkName_eq_iff`), and
objects whose names do not clash lie apart in a machine that the module is linked into, each with what it begins with
(`static_objects_apart`). An object whose slots can be counted in 32 bits gets as many as its type needs, or the module is
refused (`object_owns_its_memory`).

An object of a module gets a place of its size inside of the global region, and it keeps the place if no object behind it has
its name and another size (`Machine.link_gives_place`). What it begins with stays there if no object behind it has its name.
A module with an object that does not fit is refused (`Machine.link_lacks_room`). A module may have several objects of one
name: they share the place if they have the same size.
-/
namespace IncrementalC
set_option autoImplicit false

namespace Machine

variable {m m' : Machine} {strings : Array UInt64} {g : CodeGlobal} {gs : List CodeGlobal}

/-! ## Places inside of the region -/

/-- Objects lie inside of the global region, however large it is. -/
def Contained (m : Machine) : Prop :=
  ∀ name place, m.objects.get? name = some place → place.base + place.slots ≤ m.globals.size

theorem linkable_contained : Linkable Contained where
  same m m' h map := by
    unfold Contained
    rw [map.objects, map.size]
    exact h
  internString m s h := by
    have objects : (m.internString s).2.objects = m.objects := (internString_step m s).objects
    intro name place found
    rw [objects] at found
    exact Nat.le_trans (h name place found) (internString_size_le m s)
  placeObject m g h := by
    intro name place found
    have puts := placeObject_puts m g
    by_cases here : name = g.name
    · subst here
      rw [puts.objects] at found
      cases found
      obtain ⟨kept, size⟩ | ⟨-, base, size⟩ := puts.room
      · rw [size]
        exact h _ _ kept
      · rw [size, base]
    · rw [puts.others name here] at found
      exact Nat.le_trans (h name place found) puts.size_le

theorem Reached.contained (h : Reached m) : Contained m := h.keeps linkable_contained nofun

/-! ## Definitions behind the object -/

/-- An object keeps its place when it is defined anew with the same size. -/
theorem defineObject_kept {place : GlobalSlot} (h : defineObject strings g m = .ok () m')
    (found : m.objects.get? g.name = some place) (fits : g.slots = place.slots) : m'.objects.get? g.name = some place := by
  obtain ⟨base, m₁, puts, stores⟩ := defineObject_steps h
  rw [stores.map.objects, puts.objects]
  obtain ⟨kept, -⟩ | ⟨new, -⟩ := puts.room
  · exact kept.symm.trans found
  · unfold hasObject at new
    rw [found] at new
    simp [fits] at new

/-- What later definitions leave to an object that has a place. -/
structure Leaves (m m' : Machine) (gs : List CodeGlobal) (name : String) (place : GlobalSlot) : Prop where
  strings_ : m'.strings = m.strings
  size_le : m.globals.size ≤ m'.globals.size
  laid : Laid m → Laid m'
  found : m'.objects.get? name = some place
  values : Laid m → (∀ g ∈ gs, g.name ≠ name) → ∀ k, place.Has k → m'.globals[k]? = m.globals[k]?

theorem defineObjects_leave {name : String} {place : GlobalSlot} (h : each (defineObject strings) gs m = .ok PUnit.unit m')
    (found : m.objects.get? name = some place)
    (same : ∀ g ∈ gs, g.name = name → g.slots = place.slots) : Leaves m m' gs name place := by
  induction gs generalizing m with
  | nil =>
    cases h
    exact ⟨rfl, Nat.le_refl _, id, found, fun _ _ _ _ => rfl⟩
  | cons g gs ih =>
    obtain ⟨m₁, first, rest⟩ := each_cons_ok h
    have defines := defineObject_ok first
    have still : m₁.objects.get? name = some place := by
      by_cases here : g.name = name
      · subst here
        exact defineObject_kept first found (same g List.mem_cons_self rfl)
      · rw [defines.others name (Ne.symm here)]
        exact found
    have later := ih rest still fun g' member => same g' (List.mem_cons_of_mem _ member)
    refine ⟨later.strings_.trans defines.strings_, Nat.le_trans defines.size_le later.size_le,
      fun laid => later.laid (defines.laid laid), later.found, fun laid others k has => ?_⟩
    obtain ⟨place', here, -, -, kept⟩ := defines.place
    have apart : ¬ place'.Has k := by
      refine (defines.laid laid).apart (.object name) (.object g.name) place place' ?_ still here k has
      intro same
      exact others g List.mem_cons_self (Resident.object.inj same).symm
    rw [later.values (defines.laid laid) (fun g' member => others g' (List.mem_cons_of_mem _ member)) k has]
    exact kept k apart

/-- The definitions up to an object, that of the object, and those behind it. -/
theorem defineObjects_split {before after : List CodeGlobal}
    (h : each (defineObject strings) (before ++ g :: after) m = .ok PUnit.unit m') :
    ∃ m₁ m₂, (Laid m → Laid m₁) ∧ m₁.strings = m.strings ∧ m.globals.size ≤ m₁.globals.size ∧ Defines m₁ m₂ strings g ∧
      each (defineObject strings) after m₂ = .ok PUnit.unit m' := by
  induction before generalizing m with
  | nil =>
    obtain ⟨m₂, first, rest⟩ := each_cons_ok h
    exact ⟨m, m₂, id, rfl, Nat.le_refl _, defineObject_ok first, rest⟩
  | cons o before ih =>
    obtain ⟨m₀, first, rest⟩ := each_cons_ok h
    have defines := defineObject_ok first
    obtain ⟨m₁, m₂, laid, literals, size_le, defined, later⟩ := ih rest
    exact ⟨m₁, m₂, fun h => laid (defines.laid h), literals.trans defines.strings_,
      Nat.le_trans defines.size_le size_le, defined, later⟩

/-! ## Linking -/

/-- The object has a place of its size, with what it begins with in it. -/
structure Occupies (m : Machine) (c : CodeModule) (g : CodeGlobal) (place : GlobalSlot) : Prop where
  found : m.place? (.object g.name) = some place
  slots : place.slots = g.slots
  values : ∀ i < g.slots, ∃ v, m.image? c g i = some v ∧ m.globals[place.base + i]? = some v

variable {c : CodeModule} {names : List String} {before after : List CodeGlobal}

/-- An object of a linked module has a place of its size, unless one of another size takes its name later. -/
theorem link_gives_place (linked : link c m = .ok names m') (objects : c.globals.toList = before ++ g :: after)
    (same : ∀ o ∈ after, o.name = g.name → o.slots = g.slots) :
    ∃ place, m'.place? (.object g.name) = some place ∧ place.slots = g.slots ∧
      ((∀ o ∈ after, o.name ≠ g.name) → Ordered m → m'.globals.size ≤ Address.reach → Occupies m' c g place) := by
  obtain ⟨m₁, ps, table, -, orders, literals, m₂, defined, rfl⟩ := link_steps linked
  rw [objects] at defined
  obtain ⟨m₃, m₄, laid, kept, grows, defines, later⟩ := defineObjects_split defined
  obtain ⟨place, here, slots, values, -⟩ := defines.place
  have leaves : Leaves m₄ m₂ after g.name place :=
    defineObjects_leave later here fun o member named => (same o member named).trans slots.symm
  refine ⟨place, leaves.found, slots, fun alone ordered room => ⟨leaves.found, slots, fun i small => ?_⟩⟩
  have room₁ : m₁.globals.size ≤ Address.reach := by
    have room : m₂.globals.size ≤ Address.reach := room
    have behind := leaves.size_le
    have own := defines.size_le
    omega
  have laid₃ : Laid m₃ := laid (orders ordered room₁)
  have inside : place.Has (place.base + i) := ⟨Nat.le_add_right _ _, Nat.add_lt_add_left (slots ▸ small) _⟩
  have untouched : m₂.globals[place.base + i]? = m₄.globals[place.base + i]? :=
    leaves.values (defines.laid laid₃) alone _ inside
  have stored : Stored ps.toArray g.init i (some (.int 0)) m₂.globals[place.base + i]? := by
    rw [untouched]
    exact values laid₃ i small
  refine stored.image fun j p found => ?_
  obtain ⟨s, named, known⟩ := literals.addresses j p found
  refine ⟨s, named, ?_⟩
  show m₂.strings.get? s = some p
  rw [leaves.strings_, defines.strings_, kept]
  exact known

/-- A module is refused if one of its objects is new and does not fit. -/
theorem link_lacks_room (member : g ∈ c.globals) (new : m.hasObject g = false)
    (lacks : m.maxGlobals < m.globals.size + g.slots) (functions : ∀ f ∈ c.functions, m.hasFunction f.name = false) :
    ∃ requested, g.slots ≤ requested ∧ link c m = .error (.globalMemory requested m.maxGlobals) m := by
  have listed : g.slots ∈ (c.globals.toList.filter fun g => !m.hasObject g).map (·.slots) := by
    refine List.mem_map.mpr ⟨g, List.mem_filter.mpr ⟨Array.mem_toList_iff.mpr member, ?_⟩, rfl⟩
    rw [new]
    rfl
  have requested : g.slots ≤ m.requestedSlots c := Nat.le_add_left_of_le (List.le_sum_of_mem listed)
  have absent : (c.functions.find? fun f => m.hasFunction f.name) = none :=
    Array.find?_eq_none.mpr fun f mem => by rw [functions f mem]; nofun
  have full : m.maxGlobals < m.globals.size + m.requestedSlots c := by omega
  have refused : accept c m = .error (.globalMemory (m.requestedSlots c) m.maxGlobals) m := by
    unfold accept
    show EStateM.bind EStateM.get _ m = _
    unfold EStateM.bind EStateM.get
    dsimp only
    rw [absent]
    dsimp only
    rw [if_pos full]
    rfl
  refine ⟨m.requestedSlots c, requested, ?_⟩
  show EStateM.bind (accept c) _ m = _
  unfold EStateM.bind
  rw [refused]

end Machine

/-! ## Objects of a unit -/
/-- The names of two objects are put together to the same one. -/
def LastingObject.Clash (x y : LastingObject) : Prop :=
  match x.owner, y.owner with
  | none, none => x.decl.name = y.decl.name
  | some f, none => y.decl.name = linkNameIn (some f) x.decl.name
  | none, some g => x.decl.name = linkNameIn (some g) y.decl.name
  | some f, some g => SameTail f x.decl.name g y.decl.name

namespace Translated

variable {a : Analysis} {xs before after : List LastingObject} {c : CodeModule} {x y : LastingObject}

/-- Objects of a unit are linked under the same name exactly if their names clash. -/
theorem linkName_eq_iff (unit : Translated a xs c) (hx : x ∈ xs) (hy : y ∈ xs) : x.linkName = y.linkName ↔ x.Clash y := by
  rw [(unit.named x hx).1, (unit.named y hy).1]
  unfold LastingObject.Clash
  cases x.owner with
  | none =>
    cases y.owner with
    | none => exact Iff.rfl
    | some g => exact Iff.rfl
  | some f =>
    cases y.owner with
    | none => exact eq_comm
    | some g => exact linkNameIn_static

theorem exists_placed {ys : List LastingObject} {os : List CodeGlobal} (h : List.Forall₂ (Placed c) ys os) {o : CodeGlobal}
    (mem : o ∈ os) : ∃ y ∈ ys, Placed c y o := by
  induction h with
  | nil => cases mem
  | @cons y o' ys os first _ ih =>
    rcases List.mem_cons.mp mem with rfl | mem
    · exact ⟨y, List.mem_cons_self, first⟩
    · obtain ⟨z, listed, placed⟩ := ih mem
      exact ⟨z, List.mem_cons_of_mem _ listed, placed⟩

/-- The object of the module for one of the objects of the unit, and those behind it. -/
theorem split (unit : Translated a (before ++ x :: after) c) :
    ∃ os o os', c.globals.toList = os ++ o :: os' ∧ Placed c x o ∧ ∀ o' ∈ os', ∃ y ∈ after, Placed c y o' := by
  have behind := List.forall₂_drop before.length unit.objects
  rw [List.drop_left] at behind
  obtain ⟨o, os', object, later, split⟩ := List.forall₂_cons_left_iff.mp behind
  refine ⟨c.globals.toList.take before.length, o, os', ?_, object, fun o' => exists_placed later⟩
  rw [← split, List.take_append_drop]

end Translated

open Machine

variable {a : Analysis} {xs before after : List LastingObject} {c : CodeModule} {m m' : Machine} {names : List String}

/-- Every object of a linked unit has a place. -/
theorem Translated.placed (unit : Translated a xs c) (linked : link c m = .ok names m') {x : LastingObject} (mem : x ∈ xs) :
    ∃ p, m'.place? (.object x.linkName) = some p := by
  obtain ⟨before, after, rfl⟩ := List.append_of_mem mem
  obtain ⟨os, o, os', objects, object, -⟩ := unit.split
  have member : o ∈ c.globals := by
    rw [← Array.mem_toList_iff, objects]
    exact List.mem_append_right _ List.mem_cons_self
  have has : m'.Has (.object x.linkName) := link_has linked (.inl ⟨o, member, object.name⟩)
  exact Option.isSome_iff_exists.mp has

/-- Objects of a unit whose names do not clash are linked to places that share no slot, and an object with which no later one
clashes begins with what it was declared with. -/
theorem static_objects_apart (unit : Translated a xs c) (reached : m.Reached) (linked : link c m = .ok names m')
    (room : m'.globals.size ≤ Address.reach) :
    (∀ x ∈ xs, ∀ y ∈ xs, x.linkName = y.linkName ↔ x.Clash y) ∧
      (∀ x ∈ xs, ∀ y ∈ xs, ¬ x.Clash y → ∃ p q, m'.place? (.object x.linkName) = some p ∧
        m'.place? (.object y.linkName) = some q ∧ ∀ k, p.Has k → ¬ q.Has k) ∧
      ∀ before x after, xs = before ++ x :: after → (∀ y ∈ after, ¬ x.Clash y) →
        ∃ o p, c.ObjectOf x.types x.decl o ∧ m'.Occupies c o p := by
  have laid : Laid m' := by
    have ordered := (reached.linked c).ordered
    rw [linked] at ordered
    exact ordered room
  refine ⟨fun x hx y hy => unit.linkName_eq_iff hx hy, fun x hx y hy clear => ?_, fun before x after split clear => ?_⟩
  · obtain ⟨p, here⟩ := unit.placed linked hx
    obtain ⟨q, there⟩ := unit.placed linked hy
    refine ⟨p, q, here, there, laid.apart (.object x.linkName) (.object y.linkName) p q ?_ here there⟩
    intro same
    exact clear ((unit.linkName_eq_iff hx hy).mp (Resident.object.inj same))
  · subst split
    have listed (y : LastingObject) (mem : y ∈ after) : y ∈ before ++ x :: after :=
      List.mem_append_right _ (List.mem_cons_of_mem _ mem)
    obtain ⟨os, o, os', objects, object, later⟩ := unit.split
    have alone (o' : CodeGlobal) (mem : o' ∈ os') : o'.name ≠ o.name := by
      obtain ⟨y, behind, placed⟩ := later o' mem
      intro same
      have names : x.linkName = y.linkName := object.name.symm.trans (same.symm.trans placed.name)
      have own : x ∈ before ++ x :: after := List.mem_append_right _ List.mem_cons_self
      exact clear y behind ((unit.linkName_eq_iff own (listed y behind)).mp names)
    obtain ⟨p, -, -, occupies⟩ := link_gives_place linked objects fun o' mem same => absurd same (alone o' mem)
    exact ⟨o, p, object, occupies alone reached.ordered room⟩

/-- Two static objects of one function. -/
theorem two_counters_apart :
    ∃ t t' c names m, Syntax.groupOf? "int f() \x7b static int x = 1; static int y = 2; return x = x + y; \x7d" = some t ∧
      (({} : Analysis).analyze t).1 = .ok t' ∧ lower (({} : Analysis).behind t) t' {} = .ok c ∧ link c {} = .ok names m ∧
      ∃ p q, m.place? (.object "__cinder_static_f_x") = some p ∧ m.place? (.object "__cinder_static_f_y") = some q ∧
        ∀ k, p.Has k → ¬ q.Has k := by
  let a : Analysis := {}
  have outcome : (do
      let t ← Syntax.groupOf? "int f() \x7b static int x = 1; static int y = 2; return x = x + y; \x7d"
      let t' ← (a.analyze t).1.toOption
      let c ← (lower (a.behind t) t' {}).toOption
      let linked ← given? (link c {})
      let objects := t'.lasting (a.behind t).types
      return ((a.analyze t).2.synthesized.isEmpty, objects.map fun x => (x.owner, x.decl.name), linked.2.globals.size) :
        Option _) =
      some (true, [(some "f", "x"), (some "f", "y")], 2) := by
    decide +kernel
  simp only [Option.bind_eq_bind, Option.bind_eq_some_iff] at outcome
  obtain ⟨t, read, t', accepted, c, code, ⟨names, m⟩, linked, outcome⟩ := outcome
  have linked := given?_eq_some linked
  simp only [Option.pure_def, Option.some.injEq, Prod.mk.injEq] at outcome
  obtain ⟨none, objects, size⟩ := outcome
  have accepted := Syntax.toOption_eq_some accepted
  have code := Syntax.toOption_eq_some code
  have unit := Translated.single .start rfl (Syntax.groupOf?_written read) accepted (Array.isEmpty_iff.mp none) code
  obtain ⟨x, ys, listed, first, rest⟩ := List.map_eq_cons_iff.mp objects
  obtain ⟨y, zs, listed', second, -⟩ := List.map_eq_cons_iff.mp rest
  obtain ⟨ownerX, nameX⟩ := Prod.mk.inj first
  obtain ⟨ownerY, nameY⟩ := Prod.mk.inj second
  have hx : x ∈ t'.lasting (a.behind t).types := listed ▸ List.mem_cons_self
  have hy : y ∈ t'.lasting (a.behind t).types := listed ▸ List.mem_cons_of_mem x (listed' ▸ List.mem_cons_self)
  have room : m.globals.size ≤ Address.reach := size ▸ by decide
  obtain ⟨-, apart, -⟩ := static_objects_apart unit (.new _ _ _) linked room
  have clear : ¬ x.Clash y := by
    unfold LastingObject.Clash
    rw [ownerX, ownerY, nameX, nameY]
    exact fun clash => absurd (linkNameIn_static.mpr clash) (by decide)
  have places := apart x hx y hy clear
  rw [(unit.named x hx).1, (unit.named y hy).1, ownerX, ownerY, nameX, nameY] at places
  exact ⟨t, t', c, names, m, read, accepted, code, linked, places⟩

/-- Objects of one name in a block and in a block around it are linked to one place, which begins with what the inner one was
declared with. So are objects of two functions. -/
theorem shadowed_static_is_shared :
    ((compile "int f() \x7b static int x = 1; \x7b static int x = 2; x = x + 1; \x7d return x; \x7d
        int a_b() \x7b static int c = 1; return c; \x7d int a() \x7b static int b_c = 2; return b_c; \x7d" {}).toOption.bind
      fun c => match link c {} with
        | .error .. => none
        | .ok _ m =>
          let result (f : String) : Option Value := match Exec.call none f [] (⟨m, ()⟩ : World Unit) with
            | .ok v _ => v
            | .error .. => none
          some (c.globals.toList.map (·.name), ["f", "a_b", "a"].map result)) =
      some (["__cinder_static_f_x", "__cinder_static_f_x", "__cinder_static_a_b_c", "__cinder_static_a_b_c"],
        [some (.int 3), some (.int 2), some (.int 2)]) := by
    decide +kernel

/-- An object whose slots can be counted in 32 bits, and whose name no later object of another size takes, is linked to at
least the slots of its type. They are inside of the global region, and apart from those of all others. If the object is new and
the machine has not so many left, the module is refused and leaves nothing behind. -/
theorem object_owns_its_memory {x : LastingObject} (unit : Translated a (before ++ x :: after) c)
    (small : x.slots < UInt32.size) (later : ∀ y ∈ after, y.linkName = x.linkName → y.slots = x.slots) (reached : m.Reached) :
    (∀ names m', link c m = .ok names m' → ∃ p, m'.place? (.object x.linkName) = some p ∧
      x.types.slots x.decl.ty ≤ p.slots ∧ p.base + p.slots ≤ m'.globals.size ∧
      (m'.globals.size ≤ Address.reach → ∀ r q, r ≠ .object x.linkName → m'.place? r = some q →
        ∀ k, p.Has k → ¬ q.Has k)) ∧
    (m.maxGlobals < m.globals.size + x.types.slots x.decl.ty →
      (∀ p, m.place? (.object x.linkName) = some p → p.slots ≠ x.slots) →
      (∀ f ∈ c.functions, m.hasFunction f.name = false) →
      ∃ requested, x.types.slots x.decl.ty ≤ requested ∧ link c m = .error (.globalMemory requested m.maxGlobals) m) := by
  obtain ⟨os, o, os', objects, object, behind⟩ := unit.split
  have enough : x.types.slots x.decl.ty ≤ x.slots := Nat.le_max_left _ _
  have whole : o.slots = x.slots := object.slots.trans (Nat.mod_eq_of_lt small)
  refine ⟨fun names m' linked => ?_, fun lacks new functions => ?_⟩
  · have same (o' : CodeGlobal) (mem : o' ∈ os') (named : o'.name = o.name) : o'.slots = o.slots := by
      obtain ⟨y, listed, placed⟩ := behind o' mem
      have sizes : y.slots = x.slots := later y listed (placed.name.symm.trans (named.trans object.name))
      rw [placed.slots, object.slots]
      exact congrArg Lowering.slotWord sizes
    obtain ⟨p, here, slots, -⟩ := link_gives_place linked objects same
    have reached' : m'.Reached := by
      have after := reached.linked c
      rwa [linked] at after
    rw [object.name] at here
    refine ⟨p, here, ?_, reached'.contained _ p here, fun room r q other there => ?_⟩
    · rw [slots, whole]
      exact enough
    · exact (reached'.ordered room).apart (.object x.linkName) r p q other.symm here there
  · have member : o ∈ c.globals := by
      rw [← Array.mem_toList_iff, objects]
      exact List.mem_append_right _ List.mem_cons_self
    have unknown : m.hasObject o = false := by
      unfold hasObject
      rw [object.name]
      cases found : m.objects.get? x.decl.linkName with
      | none => rfl
      | some p =>
        have other : p.slots ≠ o.slots := whole ▸ new p found
        exact beq_false_of_ne other
    have full : m.maxGlobals < m.globals.size + o.slots := by omega
    obtain ⟨requested, least, refused⟩ := link_lacks_room member unknown full functions
    exact ⟨requested, by omega, refused⟩

/-- An array gets its slots, or the module is refused. -/
theorem array_fits_or_is_refused :
    ∃ t t' c names m, Syntax.groupOf? "int a[3];" = some t ∧ (({} : Analysis).analyze t).1 = .ok t' ∧
      lower (({} : Analysis).behind t) t' {} = .ok c ∧ link c {} = .ok names m ∧
      (∃ p, m.place? (.object "a") = some p ∧ 3 ≤ p.slots ∧ p.base + p.slots ≤ m.globals.size) ∧
      ∃ requested, 3 ≤ requested ∧ link c { maxGlobals := 2 } = .error (.globalMemory requested 2) { maxGlobals := 2 } := by
  let a : Analysis := {}
  have outcome : (do
      let t ← Syntax.groupOf? "int a[3];"
      let t' ← (a.analyze t).1.toOption
      let c ← (lower (a.behind t) t' {}).toOption
      let _ ← given? (link c {})
      return ((a.analyze t).2.synthesized.isEmpty,
        (t'.lasting (a.behind t).types).map fun x => (x.linkName, x.types.slots x.decl.ty)) : Option _) =
      some (true, [("a", 3)]) := by
    decide +kernel
  simp only [Option.bind_eq_bind, Option.bind_eq_some_iff] at outcome
  obtain ⟨t, read, t', accepted, c, code, ⟨names, m⟩, linked, outcome⟩ := outcome
  have linked := given?_eq_some linked
  obtain ⟨none, objects⟩ := Prod.mk.inj (Option.some.inj outcome)
  have accepted := Syntax.toOption_eq_some accepted
  have code := Syntax.toOption_eq_some code
  have unit := Translated.single .start rfl (Syntax.groupOf?_written read) accepted (Array.isEmpty_iff.mp none) code
  obtain ⟨x, ys, listed, first, rest⟩ := List.map_eq_cons_iff.mp objects
  obtain ⟨linkName, slots⟩ := Prod.mk.inj first
  rw [List.map_eq_nil_iff.mp rest] at listed
  have unit : Translated (a.behind t) ([] ++ x :: []) c := listed ▸ unit
  have small : x.slots < UInt32.size := by
    show max (x.types.slots x.decl.ty) 1 < UInt32.size
    rw [slots]
    decide
  have functions (f : CodeFunction) (mem : f ∈ c.functions) : Machine.hasFunction { maxGlobals := 2 } f.name = false := rfl
  obtain ⟨fits, -⟩ := object_owns_its_memory unit small (by rintro y ⟨⟩) (.new _ _ _)
  obtain ⟨-, refused⟩ := object_owns_its_memory unit small (by rintro y ⟨⟩) (.new 512 100000000 2)
  rw [slots, linkName] at fits refused
  obtain ⟨p, here, enough, inside, -⟩ := fits names m linked
  exact ⟨t, t', c, names, m, read, accepted, code, linked, ⟨p, here, enough, inside⟩,
    refused (by decide) (by rintro p ⟨⟩) functions⟩

/-- The slots of an object are counted in 32 bits, so an array of `2 ^ 32 + 1` numbers is linked to a single slot. -/
theorem truncated_array_is_linked :
    (do
      let a : Analysis := {}
      let t ← Syntax.groupOf? "int a[4294967297];"
      let t' ← (a.analyze t).1.toOption
      let c ← (lower (a.behind t) t' {}).toOption
      let EStateM.Result.ok _ m := link c {} | none
      let p ← m.place? (.object "a")
      return ((t'.lasting (a.behind t).types).map fun x => x.types.slots x.decl.ty, m.maxGlobals, p.base, p.slots) : Option _) =
      some ([4294967297], 16777216, 0, 1) := by
    decide +kernel

end IncrementalC
