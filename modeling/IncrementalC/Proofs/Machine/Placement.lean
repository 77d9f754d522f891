import IncrementalC.Proofs.Machine.Places

/-!
# What linking a module does

A module is refused as a whole (`Machine.link_refused`) or gets what it asks for: no more slots than
were reserved, its objects hold their initial values, and all other slots of the global region stay as they
were (`Machine.link_linkedInto`). Afterwards its functions are found by their names, and their code refers to the
literals and the objects where they lie in the machine (`Machine.link_code`).
-/
namespace IncrementalC
set_option autoImplicit false

/-- Faults for which a module is refused as a whole. -/
def Fault.isRefusal : Fault → Bool
  | .duplicateFunction _ | .globalMemory .. => true
  | _ => false

/-- The constant that a slot begins with: the last one that is given, if any. -/
def CodeGlobal.initial? (g : CodeGlobal) (i : Nat) : Option CodeConst := g.init.reverse.lookup i

namespace Machine

variable {m m' : Machine} {α β : Type}

/-- What a constant of the module `c` is worth in a machine that the module is linked into. -/
def constant? (m : Machine) (c : CodeModule) : CodeConst → Option Value
  | .int v => some (.int v)
  | .float x => some (.float x)
  | .ptr p => some (.ptr p)
  | .str i => ((c.strings[i]?).bind m.strings.get?).map .ptr

/-- What slot `i` of the object `g` begins with. -/
def image? (m : Machine) (c : CodeModule) (g : CodeGlobal) (i : Nat) : Option Value :=
  match g.initial? i with
  | some k => m.constant? c k
  | none => some (.int 0)

/-- What a module does to the global region of the machine `m` when it is linked into it. -/
structure LinkedInto (c : CodeModule) (m m' : Machine) : Prop where
  /-- Every object of the module has a place and its initial values in it. -/
  images : ∀ g ∈ c.globals, ∃ place, m'.place? (.object g.name) = some place ∧ place.slots = g.slots ∧
    ∀ i < g.slots, ∃ v, m'.image? c g i = some v ∧ m'.globals[place.base + i]? = some v
  /-- A slot that belongs neither to an object of the module nor to a new string is as before. -/
  rest : ∀ k, (∀ g ∈ c.globals, ∀ place, m'.place? (.object g.name) = some place → ¬ place.Has k) →
    (∀ s ∈ c.strings, m.strings.get? s = none → ∀ place, m'.place? (.literal s) = some place → ¬ place.Has k) →
    m'.globals[k]? = m.globals[k]?

/-! ## Refusals -/

/-- The faults of a step that keeps nothing in particular. -/
theorem Keeps.raises {Q : Fault → Prop} {l : Linking α} (h : Keeps (fun _ => True) Q l) : Raises Q l := by
  intro m f m' run
  have after : LinkedTo (fun _ => True) Q m (l m) := h m trivial
  rw [run] at after
  exact after.2

theorem defineObject_fault (strings : Array UInt64) (g : CodeGlobal) :
    Raises (fun f => f.isRefusal = false) (defineObject strings g) :=
  Keeps.raises (keeps_defineObject (fun _ _ _ => rfl) fun _ _ _ _ _ => rfl)

theorem defineFunction_fault (strings : Array UInt64) (f : CodeFunction) :
    Raises (fun f => f.isRefusal = false) (defineFunction strings f) :=
  Keeps.raises (keeps_defineFunction (fun _ _ _ => rfl) fun _ _ _ _ => trivial)

theorem accept_unchanged (c : CodeModule) (m : Machine) : finalState (accept c m) = m :=
  preserves_accept (P := fun m' => m' = m) c m rfl

/-- A module that is refused leaves nothing behind. -/
theorem link_refused {c : CodeModule} {f : Fault} (h : link c m = .error f m') (refused : f.isRefusal) : m' = m := by
  obtain first | ⟨_, m₁, -, second⟩ := Raises.bind_eq_error h
  · have same := accept_unchanged c m
    rw [first] at same
    exact same
  · have other : Raises (fun f => f.isRefusal = false) (do
        let strings ← modifyGet (·.internStrings c.strings.toList)
        let strings := strings.toArray
        for g in c.globals do
          defineObject strings g
        for f in c.functions do
          defineFunction strings f
        return c.initializers.toList : Linking (List String)) := by
      refine .bind (.modifyGet _) fun strings => ?_
      dsimp only
      rw [← Array.forIn_toList, ← Array.forIn_toList]
      refine .bind (.forIn fun g => ?_) fun _ => .bind (.forIn fun f => ?_) fun _ => .pure _
      · exact .bind (defineObject_fault _ g) fun _ => .pure _
      · exact .bind (defineFunction_fault _ f) fun _ => .pure _
    have plain : f.isRefusal = false := other m₁ f m' second
    rw [refused] at plain
    cases plain

/-! ## Strings -/

/-- The slots that strings take in addition. -/
def stringRequest (m : Machine) (ss : List String) : Nat :=
  ((ss.filter fun s => !m.strings.contains s).map stringSlots).foldr (· + ·) 0

theorem stringRequest_cons (m : Machine) (s : String) (ss : List String) :
    m.stringRequest (s :: ss) = (if m.strings.contains s then 0 else stringSlots s) + m.stringRequest ss := by
  unfold stringRequest
  cases known : m.strings.contains s with
  | true =>
    rw [List.filter_cons_of_neg (by rw [known]; nofun), if_pos rfl, Nat.zero_add]
  | false =>
    rw [List.filter_cons_of_pos (by rw [known]; rfl)]
    rfl

/-- What becomes of the strings of a module. -/
structure Interned (m m' : Machine) (ss : List String) (ps : List UInt64) : Prop where
  objects : m'.objects = m.objects
  limit : m'.maxGlobals = m.maxGlobals
  kept : ∀ k < m.globals.size, m'.globals[k]? = m.globals[k]?
  size_le : m.globals.size ≤ m'.globals.size
  strings : ∀ s p, m.strings.get? s = some p → m'.strings.get? s = some p
  addresses : ∀ (i : Nat) (p : UInt64), ps[i]? = some p → ∃ s, ss[i]? = some s ∧ m'.strings.get? s = some p
  requested : m'.globals.size ≤ m.globals.size + m.stringRequest ss
  fresh : m'.globals.size ≤ Address.reach → ∀ k, m.globals.size ≤ k → k < m'.globals.size →
    ∃ s ∈ ss, m.strings.get? s = none ∧ ∃ place, m'.place? (.literal s) = some place ∧ place.Has k

theorem internString_step (m : Machine) (s : String) :
    Interned m (m.internString s).2 [s] [(m.internString s).1] := by
  cases known : m.strings.get? s with
  | some p =>
    rw [internString_known known]
    refine ⟨rfl, rfl, fun _ _ => rfl, Nat.le_refl _, fun _ _ h => h, fun i q found => ?_, Nat.le_add_right _ _,
      fun _ k low high => absurd high (Nat.not_lt.mpr low)⟩
    cases i with
    | zero =>
      cases found
      exact ⟨s, rfl, known⟩
    | succ i => cases found
  | none =>
    have size := internString_size known
    have unfolded : (m.internString s).2.objects = m.objects ∧ (m.internString s).2.maxGlobals = m.maxGlobals ∧
        (m.internString s).2.strings = m.strings.insert s (m.internString s).1 := by
      unfold internString
      rw [known]
      exact ⟨rfl, rfl, rfl⟩
    obtain ⟨objects, limit, strings⟩ := unfolded
    have unknown : m.strings.contains s = false := by
      unfold NameMap.contains
      rw [known]
      rfl
    refine ⟨objects, limit, fun k old => ?_, internString_size_le m s, fun t p found => ?_, fun i q found => ?_, ?_,
      fun room k low high => ?_⟩
    · unfold internString
      rw [known]
      dsimp only
      rw [← Array.getElem?_toList, Array.toList_appendList, Array.toList_appendList, List.append_assoc,
        List.getElem?_append_left (by rwa [Array.length_toList]), Array.getElem?_toList]
    · rw [strings, NameMap.get?_insert, if_neg]
      · exact found
      · rintro rfl
        cases known.symm.trans found
    · cases i with
      | zero =>
        cases found
        exact ⟨s, rfl, by rw [strings, NameMap.get?_insert, if_pos rfl]⟩
      | succ i => cases found
    · rw [size, stringRequest_cons, unknown]
      exact Nat.le_refl _
    · have appends := internString_appends known room
      exact ⟨s, List.mem_singleton_self s, known, _, appends.here, low, size ▸ high⟩

/-- A string that has a place needs none later. -/
theorem Interned.request_le {ss ts : List String} {ps : List UInt64} (h : Interned m m' ts ps) :
    m'.stringRequest ss ≤ m.stringRequest ss := by
  induction ss with
  | nil => exact Nat.le_refl _
  | cons s ss ih =>
    rw [stringRequest_cons, stringRequest_cons]
    refine Nat.add_le_add ?_ ih
    cases old : m.strings.get? s with
    | none =>
      have unknown : m.strings.contains s = false := by rw [NameMap.contains, old]; rfl
      rw [unknown]
      split
      · exact Nat.zero_le _
      · exact Nat.le_refl _
    | some p =>
      have known : m'.strings.contains s = true := by rw [NameMap.contains, h.strings s p old]; rfl
      rw [known]
      exact Nat.zero_le _

theorem place?_literal_eq {s : String} {p : UInt64} (h : m.strings.get? s = some p)
    (h' : m'.strings.get? s = some p) : m'.place? (.literal s) = m.place? (.literal s) := by
  show (m'.strings.get? s).map _ = (m.strings.get? s).map _
  rw [h, h']

theorem internStrings_interned (ss : List String) (m : Machine) :
    Interned m (m.internStrings ss).2 ss (m.internStrings ss).1 := by
  induction ss generalizing m with
  | nil =>
    exact ⟨rfl, rfl, fun _ _ => rfl, Nat.le_refl _, fun _ _ h => h, nofun, Nat.le_refl _,
      fun _ k low high => absurd high (Nat.not_lt.mpr low)⟩
  | cons s ss ih =>
    have first := internString_step m s
    have others := ih (m.internString s).2
    refine ⟨others.objects.trans first.objects, others.limit.trans first.limit, fun k old => ?_,
      Nat.le_trans first.size_le others.size_le, fun t p found => others.strings t p (first.strings t p found),
      fun i q found => ?_, ?_, fun room k low high => ?_⟩
    · exact (others.kept k (Nat.lt_of_lt_of_le old first.size_le)).trans (first.kept k old)
    · cases i with
      | zero =>
        obtain ⟨t, same, known⟩ := first.addresses 0 q found
        exact ⟨t, same, others.strings t q known⟩
      | succ i => exact others.addresses i q found
    · have step := first.requested
      have rest := others.requested
      have less : _ ≤ m.stringRequest ss := first.request_le
      rw [stringRequest_cons] at step ⊢
      have none : m.stringRequest [] = 0 := rfl
      show ((m.internString s).2.internStrings ss).2.globals.size ≤ _
      omega
    · by_cases early : k < (m.internString s).2.globals.size
      · obtain ⟨t, member, new, place, found, has⟩ := first.fresh (Nat.le_trans others.size_le room) k low early
        obtain rfl := List.mem_singleton.mp member
        obtain ⟨p, known⟩ : ∃ p, (m.internString t).2.strings.get? t = some p := by
          obtain ⟨u, same, known⟩ := first.addresses 0 _ rfl
          cases same
          exact ⟨_, known⟩
        exact ⟨t, List.mem_cons_self, new, place,
          (place?_literal_eq known (others.strings t p known)).trans found, has⟩
      · obtain ⟨t, member, new, place, found, has⟩ := others.fresh room k (Nat.le_of_not_lt early) high
        refine ⟨t, List.mem_cons_of_mem _ member, ?_, place, found, has⟩
        cases old : m.strings.get? t with
        | none => rfl
        | some p => exact absurd (first.strings t p old) (by rw [new]; nofun)

/-! ## Objects -/

/-- The value `after` of slot `i`, by the constants that were stored over the value `before`. -/
def Stored (strings : Array UInt64) (init : List (Nat × CodeConst)) (i : Nat) (before after : Option Value) : Prop :=
  match init.reverse.lookup i with
  | some k => ∃ v, constValue strings k = .ok v ∧ after = some v
  | none => after = before

/-- Constants are stored in the slots from `base` on. -/
structure Stores (m m' : Machine) (strings : Array UInt64) (base slots : Nat) (init : List (Nat × CodeConst)) :
    Prop where
  map : SameMap m m'
  limit : m'.maxGlobals = m.maxGlobals
  values : ∀ i < slots, base + i < m.globals.size → Stored strings init i m.globals[base + i]? m'.globals[base + i]?
  rest : ∀ k, ¬ GlobalSlot.Has ⟨base, slots⟩ k → m'.globals[k]? = m.globals[k]?

def storeConst (strings : Array UInt64) (g : CodeGlobal) (base : Nat) (entry : Nat × CodeConst) :
    Linking (ForInStep PUnit) := do
  if g.slots ≤ entry.1 then throw (.initialValueRange g.name)
  let v ← liftFault (constValue strings entry.2)
  modify fun m => { m with globals := m.globals.set! (base + entry.1) v }
  return .yield PUnit.unit

theorem defineObject_eq (strings : Array UInt64) (g : CodeGlobal) : defineObject strings g = (do
    let base ← modifyGet (·.placeObject g)
    let _ ← ForIn.forIn g.init PUnit.unit fun entry _ => storeConst strings g base entry
    return) :=
  rfl

theorem storeConst_ok {strings : Array UInt64} {g : CodeGlobal} {base : Nat} {entry : Nat × CodeConst}
    {r : ForInStep PUnit} (h : storeConst strings g base entry m = .ok r m') :
    r = .yield PUnit.unit ∧ entry.1 < g.slots ∧ ∃ v, constValue strings entry.2 = .ok v ∧
      m' = { m with globals := m.globals.set! (base + entry.1) v } := by
  unfold storeConst at h
  by_cases outside : g.slots ≤ entry.1
  · simp only [if_pos outside] at h
    cases h
  · simp only [if_neg outside] at h
    cases constant : constValue strings entry.2 with
    | error f =>
      rw [constant] at h
      cases h
    | ok v =>
      rw [constant] at h
      cases h
      exact ⟨rfl, Nat.lt_of_not_le outside, v, rfl, rfl⟩

theorem storeConsts_ok {strings : Array UInt64} {g : CodeGlobal} {base : Nat} {init : List (Nat × CodeConst)}
    (h : (ForIn.forIn init PUnit.unit fun entry _ => storeConst strings g base entry) m = .ok PUnit.unit m') :
    Stores m m' strings base g.slots init := by
  induction init generalizing m with
  | nil =>
    cases h
    exact ⟨⟨rfl, rfl, rfl⟩, rfl, fun _ _ _ => rfl, fun _ _ => rfl⟩
  | cons entry init ih =>
    rw [List.forIn_cons] at h
    obtain ⟨r, m₁, first, rest⟩ := bind_eq_ok h
    obtain ⟨rfl, inside, v, constant, rfl⟩ := storeConst_ok first
    have later := ih rest
    have size : (m.globals.set! (base + entry.1) v).size = m.globals.size := by
      rw [Array.set!_eq_setIfInBounds, Array.size_setIfInBounds]
    refine ⟨⟨later.map.size.trans size, later.map.objects, later.map.strings⟩, later.limit, fun i small exists_ => ?_, fun k outside => ?_⟩
    · have after := later.values i small (by rw [size]; exact exists_)
      unfold Stored at after ⊢
      rw [List.reverse_cons, List.lookup_append]
      cases last : init.reverse.lookup i with
      | some k =>
        rw [last] at after
        exact after
      | none =>
        rw [last] at after
        dsimp only at after
        rw [Option.none_or, after, getElem?_set!]
        by_cases here : entry.1 = i
        · rw [here, if_pos ⟨rfl, exists_⟩, show entry = (i, entry.2) from Prod.ext here rfl, List.lookup_cons_self]
          exact ⟨v, constant, rfl⟩
        · rw [if_neg fun same => here (Nat.add_left_cancel same.1), List.lookup_cons,
            beq_false_of_ne (Ne.symm here)]
          rfl
    · rw [later.rest k outside, getElem?_set!, if_neg]
      rintro ⟨rfl, -⟩
      exact outside ⟨Nat.le_add_right _ _, Nat.add_lt_add_left inside _⟩

/-- An object gets a place, and its constants are stored there. -/
theorem defineObject_steps {strings : Array UInt64} {g : CodeGlobal} (h : defineObject strings g m = .ok () m') :
    ∃ base m₁, Puts m m₁ g base ∧ Stores m₁ m' strings base g.slots g.init := by
  rw [defineObject_eq] at h
  obtain ⟨base, m₁, placed, h⟩ := bind_eq_ok h
  obtain ⟨_, m₂, stored, h⟩ := bind_eq_ok h
  cases h
  have puts := placeObject_puts m g
  have same : m.placeObject g = (base, m₁) := by
    cases placed
    rfl
  rw [same] at puts
  exact ⟨base, m₁, puts, storeConsts_ok stored⟩

/-- What the definition of an object does. -/
structure Defines (m m' : Machine) (strings : Array UInt64) (g : CodeGlobal) : Prop where
  laid : Laid m → Laid m'
  strings_ : m'.strings = m.strings
  limit : m'.maxGlobals = m.maxGlobals
  others : ∀ name, name ≠ g.name → m'.objects.get? name = m.objects.get? name
  size_le : m.globals.size ≤ m'.globals.size
  requested : m'.globals.size ≤ m.globals.size + if m.hasObject g then 0 else g.slots
  place : ∃ place, m'.place? (.object g.name) = some place ∧ place.slots = g.slots ∧
    (Laid m → ∀ i < g.slots, Stored strings g.init i (some (.int 0)) m'.globals[place.base + i]?) ∧
    ∀ k, ¬ place.Has k → m'.globals[k]? = m.globals[k]?

theorem defineObject_ok {strings : Array UInt64} {g : CodeGlobal} (h : defineObject strings g m = .ok () m') :
    Defines m m' strings g := by
  obtain ⟨base, m₁, puts, stores⟩ := defineObject_steps h
  have here : m'.objects.get? g.name = some ⟨base, g.slots⟩ := by rw [stores.map.objects, puts.objects]
  refine ⟨fun laid => (puts.laid laid).same stores.map, stores.map.strings.trans puts.strings,
    stores.limit.trans puts.limit, fun name other => ?_, ?_, ?_, ⟨base, g.slots⟩, here, rfl, fun laid i small => ?_,
    fun k outside => (stores.rest k outside).trans (puts.rest k outside)⟩
  · rw [stores.map.objects, puts.others name other]
  · exact stores.map.size ▸ puts.size_le
  · rw [stores.map.size]
    obtain ⟨-, size⟩ | ⟨new, -, size⟩ := puts.room
    · exact size ▸ Nat.le_add_right _ _
    · rw [size, new]
      exact Nat.le_refl _
  · have inside := (puts.laid laid).inside (.object g.name) _ puts.objects
    have exists_ : base + i < m₁.globals.size := Nat.lt_of_lt_of_le (Nat.add_lt_add_left small _) inside
    have zero := puts.zeros (base + i) ⟨Nat.le_add_right _ _, Nat.add_lt_add_left small _⟩ exists_
    rw [← zero]
    exact stores.values i small exists_

/-! ## All objects of a module -/

def objectRequest (m : Machine) (gs : List CodeGlobal) : Nat :=
  ((gs.filter fun g => !m.hasObject g).map (·.slots)).foldr (· + ·) 0

theorem objectRequest_cons (m : Machine) (g : CodeGlobal) (gs : List CodeGlobal) :
    m.objectRequest (g :: gs) = (if m.hasObject g then 0 else g.slots) + m.objectRequest gs := by
  unfold objectRequest
  cases known : m.hasObject g with
  | true => rw [List.filter_cons_of_neg (by rw [known]; nofun), if_pos rfl, Nat.zero_add]
  | false =>
    rw [List.filter_cons_of_pos (by rw [known]; rfl)]
    rfl

/-- A definition changes nothing for objects of other names. -/
theorem objectRequest_congr {gs : List CodeGlobal}
    (same : ∀ g ∈ gs, m'.objects.get? g.name = m.objects.get? g.name) : m'.objectRequest gs = m.objectRequest gs := by
  induction gs with
  | nil => rfl
  | cons g gs ih =>
    have first : m'.hasObject g = m.hasObject g := by
      unfold hasObject
      rw [same g List.mem_cons_self]
    rw [objectRequest_cons, objectRequest_cons, first, ih fun g' member => same g' (List.mem_cons_of_mem _ member)]

/-- What the definitions of the objects of a module do. -/
structure DefinesAll (m m' : Machine) (strings : Array UInt64) (gs : List CodeGlobal) : Prop where
  strings_ : m'.strings = m.strings
  limit : m'.maxGlobals = m.maxGlobals
  laid : Laid m → Laid m'
  others : ∀ name, (∀ g ∈ gs, name ≠ g.name) → m'.objects.get? name = m.objects.get? name
  size_le : m.globals.size ≤ m'.globals.size
  requested : m'.globals.size ≤ m.globals.size + m.objectRequest gs
  places : ∀ g ∈ gs, ∃ place, m'.place? (.object g.name) = some place ∧ place.slots = g.slots ∧
    (Laid m → ∀ i < g.slots, Stored strings g.init i (some (.int 0)) m'.globals[place.base + i]?)
  rest : ∀ k, (∀ g ∈ gs, ∀ place, m'.place? (.object g.name) = some place → ¬ place.Has k) →
    m'.globals[k]? = m.globals[k]?

theorem defineObjects_ok {strings : Array UInt64} {gs : List CodeGlobal} (distinct : (gs.map (·.name)).Nodup)
    (h : each (defineObject strings) gs m = .ok PUnit.unit m') : DefinesAll m m' strings gs := by
  induction gs generalizing m with
  | nil =>
    cases h
    exact ⟨rfl, rfl, id, fun _ _ => rfl, Nat.le_refl _, Nat.le_refl _, nofun, fun _ _ => rfl⟩
  | cons g gs ih =>
    obtain ⟨m₁, first, rest⟩ := each_cons_ok h
    have defines := defineObject_ok first
    obtain ⟨new, distinct⟩ := List.nodup_cons.mp distinct
    have all := ih distinct rest
    have named (g' : CodeGlobal) (member : g' ∈ gs) : g'.name ≠ g.name :=
      fun same => new (List.mem_map.mpr ⟨g', member, same⟩)
    obtain ⟨place, here, slots, values, kept⟩ := defines.place
    have stays : m'.place? (.object g.name) = some place :=
      (all.others g.name fun g' member => (named g' member).symm).trans here
    refine ⟨all.strings_.trans defines.strings_, all.limit.trans defines.limit, fun laid => all.laid (defines.laid laid),
      fun name other => ?_, Nat.le_trans defines.size_le all.size_le, ?_, fun g' member => ?_, fun k outside => ?_⟩
    · rw [all.others name fun g' member => other g' (List.mem_cons_of_mem _ member),
        defines.others name (other g List.mem_cons_self)]
    · have step := defines.requested
      have later := all.requested
      rw [objectRequest_congr fun g' member => defines.others g'.name (named g' member)] at later
      rw [objectRequest_cons]
      omega
    · obtain rfl | later := List.mem_cons.mp member
      · refine ⟨place, stays, slots, fun laid i small => ?_⟩
        -- later definitions write to places of their own
        have untouched : m'.globals[place.base + i]? = m₁.globals[place.base + i]? := by
          refine all.rest _ fun g₂ member₂ place₂ found₂ has₂ => ?_
          have has : place.Has (place.base + i) := ⟨Nat.le_add_right _ _, Nat.add_lt_add_left (slots ▸ small) _⟩
          refine (all.laid (defines.laid laid)).apart (.object g'.name) (.object g₂.name) _ _ ?_ stays found₂ _ has has₂
          exact fun same => named g₂ member₂ (Resident.object.inj same).symm
        rw [untouched]
        exact values laid i small
      · obtain ⟨place', found, slots', values'⟩ := all.places g' later
        exact ⟨place', found, slots', fun laid => values' (defines.laid laid)⟩
    · rw [all.rest k fun g' member => outside g' (List.mem_cons_of_mem _ member)]
      exact kept k (outside g List.mem_cons_self place stays)

/-! ## Whole modules -/

/-- Functions take no memory. -/
theorem defineFunctions_ok {strings : Array UInt64} {fs : List CodeFunction}
    (h : each (defineFunction strings) fs m = .ok PUnit.unit m') : ∃ table, m' = { m with functions := table } := by
  induction fs generalizing m with
  | nil =>
    cases h
    exact ⟨m'.functions, rfl⟩
  | cons f fs ih =>
    obtain ⟨m₁, first, rest⟩ := each_cons_ok h
    obtain ⟨code, -, rfl⟩ := defineFunction_ok first
    obtain ⟨table, rfl⟩ := ih rest
    exact ⟨table, rfl⟩

theorem accept_ok {c : CodeModule} {u : Unit} (h : accept c m = .ok u m') :
    m' = m ∧ m.globals.size + m.requestedSlots c ≤ m.maxGlobals := by
  have same : m' = m := by
    have unchanged := accept_unchanged c m
    rwa [h] at unchanged
  subst same
  refine ⟨rfl, ?_⟩
  unfold accept at h
  obtain ⟨m₀, _, got, h⟩ := bind_eq_ok h
  cases got
  have fits (h : (if m'.maxGlobals < m'.globals.size + m'.requestedSlots c then
      throw (.globalMemory (m'.requestedSlots c) m'.maxGlobals) else pure () : Linking Unit) m' = .ok u m') :
      m'.globals.size + m'.requestedSlots c ≤ m'.maxGlobals := by
    split at h
    · cases h
    · exact Nat.le_of_not_lt ‹_›
  cases duplicate : c.functions.find? fun f => m'.hasFunction f.name with
  | some f =>
    simp only [duplicate] at h
    cases h
  | none =>
    simp only [duplicate] at h
    exact fits h

/-- What a link that goes through has placed before it defines the objects. -/
theorem link_steps {c : CodeModule} {names : List String} (h : link c m = .ok names m') :
    ∃ m₁ ps table, m.globals.size + m.requestedSlots c ≤ m.maxGlobals ∧ (Ordered m → Ordered m₁) ∧
      Interned m m₁ c.strings.toList ps ∧ ∃ m₂, each (defineObject ps.toArray) c.globals.toList m₁ = .ok PUnit.unit m₂ ∧
        m' = { m₂ with functions := table } := by
  obtain ⟨m₀, ps, m₁, m₂, accepted, interned, objects, functions, -⟩ := link_eq_ok h
  obtain ⟨rfl, room⟩ := accept_ok accepted
  obtain ⟨table, rfl⟩ := defineFunctions_ok functions
  have strings := internStrings_interned c.strings.toList m₀
  have ordered (before : Ordered m₀) := linkable_ordered.internStrings c.strings.toList before
  rw [interned] at strings ordered
  exact ⟨m₁, ps, table, room, ordered, strings, m₂, objects, rfl⟩

/-- Moreover, every object of a name of its own gets a place. -/
theorem link_ok {c : CodeModule} {names : List String} (h : link c m = .ok names m')
    (distinct : (c.globals.toList.map (·.name)).Nodup) :
    ∃ m₁ ps table, m.globals.size + m.requestedSlots c ≤ m.maxGlobals ∧ (Ordered m → Ordered m₁) ∧
      Interned m m₁ c.strings.toList ps ∧ ∃ m₂, DefinesAll m₁ m₂ ps.toArray c.globals.toList ∧ m' = { m₂ with functions := table } := by
  obtain ⟨m₁, ps, table, room, ordered, strings, m₂, objects, rfl⟩ := link_steps h
  exact ⟨m₁, ps, table, room, ordered, strings, m₂, defineObjects_ok distinct objects, rfl⟩

/-- A module whose objects have names of their own gets no more than was reserved for it. -/
theorem link_within_limit {c : CodeModule} {names : List String} (h : link c m = .ok names m')
    (distinct : (c.globals.toList.map (·.name)).Nodup) : m'.globals.size ≤ m.maxGlobals := by
  obtain ⟨m₁, ps, table, room, -, strings, m₂, objects, rfl⟩ := link_ok h distinct
  have more := objects.requested
  have less := strings.requested
  have same : m₁.objectRequest c.globals.toList = m.objectRequest c.globals.toList :=
    objectRequest_congr fun g _ => by rw [strings.objects]
  have all : m.requestedSlots c = m.stringRequest c.strings.toList + m.objectRequest c.globals.toList := rfl
  show m₂.globals.size ≤ m.maxGlobals
  omega

theorem constant?_of_constValue {c : CodeModule} {ps : List UInt64} {k : CodeConst} {v : Value}
    (addresses : ∀ (i : Nat) (p : UInt64), ps[i]? = some p →
      ∃ s, c.strings.toList[i]? = some s ∧ m'.strings.get? s = some p)
    (h : constValue ps.toArray k = .ok v) : m'.constant? c k = some v := by
  cases k with
  | int _ | float _ | ptr _ =>
    cases h
    rfl
  | str i =>
    have h : (do return Value.ptr (← stringAddress ps.toArray i)) = Except.ok v := h
    unfold stringAddress at h
    rw [List.getElem?_toArray] at h
    cases found : ps[i]? with
    | none =>
      rw [found] at h
      cases h
    | some p =>
      rw [found] at h
      cases h
      obtain ⟨s, named, known⟩ := addresses i p found
      show ((c.strings[i]?).bind m'.strings.get?).map Value.ptr = _
      rw [← Array.getElem?_toList, named, Option.bind_some, known]
      rfl

/-- A slot of zeros that the constants of an object were stored over holds what the object begins with. -/
theorem Stored.image {c : CodeModule} {ps : List UInt64} {g : CodeGlobal} {i : Nat} {here : Option Value}
    (stored : Stored ps.toArray g.init i (some (.int 0)) here)
    (addresses : ∀ (i : Nat) (p : UInt64), ps[i]? = some p →
      ∃ s, c.strings.toList[i]? = some s ∧ m'.strings.get? s = some p) :
    ∃ v, m'.image? c g i = some v ∧ here = some v := by
  unfold Stored at stored
  unfold image? CodeGlobal.initial?
  cases last : g.init.reverse.lookup i with
  | none =>
    rw [last] at stored
    exact ⟨_, rfl, stored⟩
  | some constant =>
    rw [last] at stored
    obtain ⟨v, value, at_⟩ := stored
    exact ⟨v, constant?_of_constValue addresses value, at_⟩

theorem link_linkedInto {c : CodeModule} {names : List String} (h : link c m = .ok names m')
    (distinct : (c.globals.toList.map (·.name)).Nodup) (ordered : Ordered m)
    (room : m'.globals.size ≤ Address.reach) : LinkedInto c m m' := by
  obtain ⟨m₁, ps, table, -, orders, strings, m₂, objects, rfl⟩ := link_ok h distinct
  have room : m₂.globals.size ≤ Address.reach := room
  have room₁ := Nat.le_trans objects.size_le room
  have laid₁ : Laid m₁ := orders ordered room₁
  refine ⟨fun g member => ?_, fun k notObject notString => ?_⟩
  · obtain ⟨place, found, slots, values⟩ := objects.places g (Array.mem_toList_iff.mpr member)
    refine ⟨place, found, slots, fun i small => ?_⟩
    refine (values laid₁ i small).image fun j p found => ?_
    obtain ⟨s, named, known⟩ := strings.addresses j p found
    exact ⟨s, named, objects.strings_ ▸ known⟩
  · have untouched : m₂.globals[k]? = m₁.globals[k]? :=
      objects.rest k fun g member => notObject g (Array.mem_toList_iff.mp member)
    show m₂.globals[k]? = m.globals[k]?
    rw [untouched]
    by_cases old : k < m.globals.size
    · exact strings.kept k old
    · rw [Array.getElem?_eq_none (Nat.le_of_not_lt old)]
      refine Array.getElem?_eq_none (Nat.le_of_not_lt fun new => ?_)
      obtain ⟨s, member, unknown, place, found, has⟩ := strings.fresh room₁ k (Nat.le_of_not_lt old) new
      refine notString s (Array.mem_toList_iff.mp member) unknown place ?_ has
      show m₂.place? (.literal s) = some place
      unfold place? at found ⊢
      rwa [objects.strings_]

/-- The global region stays well formed: objects and strings lie apart inside it, a refused module leaves
nothing behind, and a module that is linked gets its initial values within the limit. -/
theorem linking_keeps_memory (reached : Reached m) (room : m.globals.size ≤ Address.reach) :
    Laid m ∧ (∀ c f m', link c m = .error f m' → f.isRefusal → m' = m) ∧
      ∀ c names m', link c m = .ok names m' → (c.globals.toList.map (·.name)).Nodup →
        m'.globals.size ≤ m.maxGlobals ∧ (m'.globals.size ≤ Address.reach → LinkedInto c m m') := by
  have ordered := reached.ordered
  refine ⟨ordered room, fun c f m' run refused => link_refused run refused, fun c names m' run distinct => ?_⟩
  exact ⟨link_within_limit run distinct, link_linkedInto run distinct ordered⟩

/-- An object with a string in it, and a function. -/
def firstModule : CodeModule where
  globals := #[⟨"x", 2, [(1, .str 0)]⟩, ⟨"y", 1, [(0, .int 7)]⟩]
  functions := #[⟨"f", [], none, 0, #[.returnVoid]⟩]
  strings := #["ok"]

/-- The object anew and larger, and its string again. -/
def secondModule : CodeModule where
  globals := #[⟨"x", 3, [(0, .int 4), (0, .int 5)]⟩]
  strings := #["ok", "no"]

def firstLinked : Machine := finalState (link firstModule { maxGlobals := 12 })

def secondLinked : Machine := finalState (link secondModule firstLinked)

theorem second_module_linked : Reached firstLinked ∧ Laid firstLinked ∧
    secondLinked.globals.size ≤ firstLinked.maxGlobals ∧ LinkedInto secondModule firstLinked secondLinked := by
  have reached : Reached firstLinked := .linked firstModule (.new 512 100000000 12)
  have keeps := linking_keeps_memory reached (by decide +kernel)
  have accepted : (given? (link secondModule firstLinked)).isSome := by decide +kernel
  have room : secondLinked.globals.size ≤ Address.reach := by decide +kernel
  unfold secondLinked at room ⊢
  cases run : link secondModule firstLinked with
  | error f m' =>
    rw [run] at accepted
    cases accepted
  | ok names m' =>
    rw [run] at room
    have linked := keeps.2.2 secondModule names m' run (by decide)
    exact ⟨reached, keeps.1, linked.1, linked.2 room⟩

end Machine

end IncrementalC

namespace IncrementalC.Machine
set_option autoImplicit false

variable {m m' : Machine} {strings : Array UInt64}

/-- Instructions are linked to objects alone. -/
theorem patch_congr (objects : m'.objects = m.objects) : m'.patch strings = m.patch strings := by
  funext i
  unfold patch objectAddress?
  rw [objects]

theorem defineObjects_strings {gs : List CodeGlobal}
    (h : each (defineObject strings) gs m = .ok PUnit.unit m') : m'.strings = m.strings := by
  induction gs generalizing m with
  | nil =>
    cases h
    rfl
  | cons g gs ih =>
    obtain ⟨m₁, first, rest⟩ := each_cons_ok h
    exact (ih rest).trans (defineObject_ok first).strings_

/-- The function is found by its name, with the code that the machine gives it. -/
def FindsLinked (m : Machine) (strings : Array UInt64) (f : CodeFunction) : Prop :=
  ∃ code, f.code.mapM (m.patch strings) = .ok code ∧ m.functions.get? f.name = some { f with code }

theorem defineFunctions_finds {fs : List CodeFunction} (distinct : (fs.map (·.name)).Nodup)
    (h : each (defineFunction strings) fs m = .ok PUnit.unit m') :
    m'.objects = m.objects ∧ m'.strings = m.strings ∧ (∀ f ∈ fs, m'.FindsLinked strings f) ∧
      ∀ name, (∀ f ∈ fs, name ≠ f.name) → m'.functions.get? name = m.functions.get? name := by
  induction fs generalizing m with
  | nil =>
    cases h
    exact ⟨rfl, rfl, nofun, fun _ _ => rfl⟩
  | cons f fs ih =>
    obtain ⟨m₁, first, rest⟩ := each_cons_ok h
    obtain ⟨code, patched, rfl⟩ := defineFunction_ok first
    have apart := List.nodup_cons.mp distinct
    obtain ⟨objects, literals, finds, others⟩ := ih apart.2 rest
    refine ⟨objects, literals, List.forall_mem_cons.mpr ⟨⟨code, ?_, ?_⟩, finds⟩, fun name outside => ?_⟩
    · rw [patch_congr objects]
      exact patched
    · rw [others f.name fun f' later same => apart.1 (List.mem_map.mpr ⟨f', later, same.symm⟩)]
      exact (NameMap.get?_insert _ _ _ _).trans (if_pos rfl)
    · obtain ⟨here, later⟩ := List.forall_mem_cons.mp outside
      rw [others name later]
      exact (NameMap.get?_insert _ _ _ _).trans (if_neg here)

/-- The addresses that the literals of a module have got. -/
theorem link_code {c : CodeModule} {names : List String} (h : link c m = .ok names m')
    (distinct : (c.functions.toList.map (·.name)).Nodup) : ∃ strings : Array UInt64,
      (∀ (k : Nat) (text : String), c.strings[k]? = some text →
        ∃ p, strings[k]? = some p ∧ m'.strings.get? text = some p) ∧
      ∀ f ∈ c.functions, m'.FindsLinked strings f := by
  obtain ⟨m₀, ps, m₁, m₂, -, interned, objects, functions, -⟩ := link_eq_ok h
  obtain ⟨-, literals, finds, -⟩ := defineFunctions_finds distinct functions
  have strings := internStrings_interned c.strings.toList m₀
  have count := length_internStrings c.strings.toList m₀
  rw [interned] at strings count
  refine ⟨ps.toArray, fun k text found => ?_, fun f member => finds f (Array.mem_toList_iff.mpr member)⟩
  have found : c.strings.toList[k]? = some text := by rwa [Array.getElem?_toList]
  have inside : k < ps.length := count ▸ (List.getElem?_eq_some_iff.mp found).1
  obtain ⟨s, named, known⟩ := strings.addresses k ps[k] (List.getElem?_eq_getElem inside)
  cases named.symm.trans found
  refine ⟨ps[k], ?_, ?_⟩
  · rw [List.getElem?_toArray, List.getElem?_eq_getElem inside]
  · rw [literals, defineObjects_strings objects]
    exact known

end IncrementalC.Machine
