import IncrementalC.Machine.Value
import IncrementalC.Proofs.Machine.Preserved
import Mathlib.Algebra.Group.Nat.Defs

/-!
# Places in the global region

The index of an address has 56 bits. Up to there, packing an address into a word loses nothing
(`Address.decode_encode`), and moving it moves the index.

`Machine.place? r` says which slots of the global region the object or string literal `r` takes, and
`Machine.Laid` that all these places lie inside the region and share no slot. Linking gives away slots at
the end of the region only, so machines stay so (`Machine.Reached.ordered`).

A write changes the slot at its address and no other (`Machine.read?_put`), and the slots of an object have
different addresses (`Address.offset_inj`).
-/
namespace IncrementalC.Address
set_option autoImplicit false

/-- The number of slots of a region that have an address of their own. -/
def reach : Nat := 2 ^ 56

theorem indexMask_toNat : indexMask.toNat = 2 ^ 56 - 1 := rfl

theorem masked_toNat (n : UInt64) : (n &&& indexMask).toNat = n.toNat % reach := by
  rw [UInt64.toNat_and, indexMask_toNat, Nat.and_two_pow_sub_one_eq_mod]
  rfl

theorem masked_ofNat {n : Nat} (small : n < reach) : UInt64.ofNat n &&& indexMask = UInt64.ofNat n := by
  refine UInt64.toNat_inj.mp ?_
  have whole : n < 2 ^ 64 := Nat.lt_trans small (by decide)
  rw [masked_toNat, UInt64.toNat_ofNat', Nat.mod_eq_of_lt whole, Nat.mod_eq_of_lt small]

/-- Region and index stand side by side in the word. -/
theorem encode_toNat (a : Address) (h : a.region ≠ .raw) :
    a.encode.toNat = (tag a.region).toNat * reach + a.index.toNat % reach := by
  have high : (tag a.region <<< 56).toNat = 2 ^ 56 * (tag a.region).toNat := by
    cases region : a.region with
    | raw => exact absurd region h
    | global => rfl
    | stack => rfl
  have low := Nat.mod_lt a.index.toNat (show 0 < 2 ^ 56 by decide)
  unfold encode
  rw [UInt64.toNat_or, masked_toNat, high, show reach = 2 ^ 56 from rfl, ← Nat.two_pow_add_eq_or_of_lt low,
    Nat.mul_comm]

theorem encode_shift (a : Address) (h : a.region ≠ .raw) : a.encode >>> 56 = tag a.region := by
  refine UInt64.toNat_inj.mp ?_
  have positive : 0 < reach := by decide
  rw [UInt64.toNat_shiftRight, encode_toNat a h, Nat.shiftRight_eq_div_pow,
    show 2 ^ (UInt64.toNat 56 % 64) = reach from rfl, Nat.mul_comm, Nat.mul_add_div positive,
    Nat.div_eq_of_lt (Nat.mod_lt _ positive), Nat.add_zero]

theorem encode_masked (a : Address) (h : a.region ≠ .raw) : a.encode &&& indexMask = a.index &&& indexMask := by
  refine UInt64.toNat_inj.mp ?_
  rw [masked_toNat, masked_toNat, encode_toNat a h, Nat.mul_add_mod_self_right, Nat.mod_mod]

theorem decode_encode {a : Address} (h : a.region ≠ .raw) : decode a.encode = ⟨a.region, a.index &&& indexMask⟩ := by
  unfold decode
  rw [encode_shift a h, encode_masked a h]
  cases region : a.region with
  | raw => exact absurd region h
  | global => rfl
  | stack => rfl

/-- Steps inside of a region add up. -/
theorem offset_offset (a : Address) (i j : Int64) : (a.offset i).offset j = a.offset (i + j) := by
  have masked (x y : UInt64) : ((x &&& indexMask) + y) &&& indexMask = (x + y) &&& indexMask := by
    refine UInt64.toNat_inj.mp ?_
    have divides : reach ∣ 2 ^ 64 := ⟨2 ^ 8, rfl⟩
    rw [masked_toNat, masked_toNat, UInt64.toNat_add, UInt64.toNat_add, masked_toNat,
      Nat.mod_mod_of_dvd _ divides, Nat.mod_mod_of_dvd _ divides, Nat.mod_add_mod]
  unfold offset
  rw [masked, Int64.toUInt64_add, UInt64.add_assoc]

theorem encode_mask (r : Region) (n : UInt64) : encode ⟨r, n &&& indexMask⟩ = encode ⟨r, n⟩ := by
  unfold encode
  rw [UInt64.and_assoc, UInt64.and_self]

theorem decode_encode_raw (index : UInt64) : decode (encode ⟨.raw, index⟩) = ⟨.raw, index &&& indexMask⟩ := by
  have tag : tag .raw <<< 56 = 0 := by decide
  have word : encode ⟨.raw, index⟩ = index &&& indexMask := by
    unfold encode
    rw [tag, UInt64.zero_or]
  have high : (index &&& indexMask) >>> 56 = 0 := by
    refine UInt64.toNat_inj.mp ?_
    rw [UInt64.toNat_shiftRight, masked_toNat, Nat.shiftRight_eq_div_pow]
    exact Nat.div_eq_of_lt (Nat.mod_lt _ (by decide))
  unfold decode
  rw [word, high, if_neg (by decide), if_neg (by decide)]

theorem toUInt64_zero : (0 : Int64).toUInt64 = 0 := rfl

theorem decode_encode_eq (a : Address) : decode a.encode = a.offset 0 := by
  unfold offset
  rw [toUInt64_zero, UInt64.add_zero]
  obtain ⟨region, index⟩ := a
  cases region with
  | raw => exact decode_encode_raw index
  | global | stack => exact decode_encode nofun

/-- A word that was packed may be unpacked before it is moved. -/
theorem offset_decode (a : Address) (d : Int64) : (decode a.encode).offset d = a.offset d := by
  rw [decode_encode_eq, offset_offset, Int64.zero_add]

/-- The word of an address does not change when it is moved by nothing. -/
theorem encode_offset_zero (a : Address) : (a.offset 0).encode = a.encode := by
  unfold offset
  rw [toUInt64_zero, UInt64.add_zero, encode_mask]

theorem decode_global {n : Nat} (small : n < reach) : decode (global n).encode = global n := by
  rw [decode_encode (by nofun)]
  exact congrArg (Address.mk .global) (masked_ofNat small)

theorem index_global {n : Nat} (small : n < reach) : (global n).index.toNat = n :=
  (UInt64.toNat_ofNat' (n := n)).trans (Nat.mod_eq_of_lt (Nat.lt_trans small (by decide)))

theorem decode_stack {n : Nat} (small : n < reach) : decode (stack n).encode = stack n := by
  rw [decode_encode (by nofun)]
  exact congrArg (Address.mk .stack) (masked_ofNat small)

theorem index_stack {n : Nat} (small : n < reach) : (stack n).index.toNat = n := index_global small

end IncrementalC.Address

namespace IncrementalC
set_option autoImplicit false

/-! ## Slots of an object -/

namespace Address

variable {p : Address} {i j : Nat}

/-- The slot `k` of the object at `p`, as a word. -/
theorem decode_offset (p : Address) (d : Int64) : decode (p.offset d).encode = p.offset d := by
  rw [decode_encode_eq, offset_offset, Int64.add_zero]

theorem index_offset (p : Address) (k : Nat) :
    (p.offset (Int64.ofNat k)).index.toNat = (p.index.toNat + k) % reach := by
  have word : (Int64.ofNat k).toUInt64 = UInt64.ofNat k := rfl
  have divides : reach ∣ 2 ^ 64 := ⟨2 ^ 8, rfl⟩
  unfold offset
  rw [masked_toNat, UInt64.toNat_add, word, UInt64.toNat_ofNat', Nat.add_mod_mod, Nat.mod_mod_of_dvd _ divides]

theorem offset_inj (hi : i < reach) (hj : j < reach) (same : p.offset (Int64.ofNat i) = p.offset (Int64.ofNat j)) :
    i = j := by
  have index := congrArg (fun a : Address => a.index.toNat) same
  rw [index_offset, index_offset] at index
  unfold reach at hi hj index
  omega

end Address

namespace Machine

variable {m : Machine}

theorem read?_put {bits : UInt64} (mapped : m.isMapped bits) (v : Value) (other : UInt64) :
    (m.put bits v).read? other = if Address.decode other = Address.decode bits then some v else m.read? other := by
  have slot {memory : Array Value} {i j : UInt64} (inside : memory[i.toNat]?.isSome) :
      (memory.setIfInBounds i.toNat v)[j.toNat]? = if j = i then some v else memory[j.toNat]? := by
    obtain ⟨small, -⟩ := Array.getElem?_eq_some_iff.mp (Option.eq_some_of_isSome inside)
    rw [Array.getElem?_setIfInBounds, if_pos small]
    by_cases same : j = i
    · rw [if_pos same, if_pos (congrArg UInt64.toNat same.symm)]
    · rw [if_neg same, if_neg fun index => same (UInt64.toNat_inj.mp index.symm)]
  unfold isMapped read? at mapped
  unfold put read?
  generalize Address.decode bits = here at mapped ⊢
  generalize Address.decode other = there
  obtain ⟨region, i⟩ := here
  obtain ⟨region', j⟩ := there
  cases region with
  | raw => cases mapped
  | global | stack =>
    cases region' with
    | raw => rfl
    | global | stack => simp [slot mapped]

theorem isMapped_put {bits : UInt64} (mapped : m.isMapped bits) (v : Value) {other : UInt64} (there : m.isMapped other) :
    (m.put bits v).isMapped other := by
  unfold isMapped
  rw [read?_put mapped]
  split
  · rfl
  · exact there

end Machine

/-! ## Places -/
/-- What linking gives a place. -/
inductive Resident where
  | object (name : String)
  | literal (text : String)
deriving DecidableEq

/-- The slot is one of the place. -/
def GlobalSlot.Has (place : GlobalSlot) (k : Nat) : Prop :=
  place.base ≤ k ∧ k < place.base + place.slots

namespace Machine

/-- Where an object or a string literal lies. -/
def place? (m : Machine) : Resident → Option GlobalSlot
  | .object name => m.objects.get? name
  | .literal text => (m.strings.get? text).map fun p => ⟨(Address.decode p).index.toNat, stringSlots text⟩

/-- Objects and string literals lie in the global region, side by side. -/
structure Laid (m : Machine) : Prop where
  global : ∀ text p, m.strings.get? text = some p → (Address.decode p).region = .global
  inside : ∀ r place, m.place? r = some place → place.base + place.slots ≤ m.globals.size
  apart : ∀ r r' place place', r ≠ r' → m.place? r = some place → m.place? r' = some place' →
    ∀ k, place.Has k → ¬ place'.Has k

variable {α : Type} {m m' : Machine}

theorem Laid.empty : Laid {} := by
  refine ⟨nofun, fun r place h => ?_, fun r r' place place' _ h => ?_⟩
  · cases r <;> cases h
  · cases r <;> cases h

theorem place?_congr (map : SameMap m m') (r : Resident) : m'.place? r = m.place? r := by
  cases r with
  | object name => exact congrArg (·.get? name) map.objects
  | literal text =>
    unfold place?
    rw [map.strings]

theorem Laid.same (h : Laid m) (map : SameMap m m') : Laid m' := by
  refine ⟨fun text p found => h.global text p (map.strings ▸ found), fun r place found => ?_,
    fun r r' place place' other found found' => ?_⟩
  · rw [map.size]
    exact h.inside r place (place?_congr map r ▸ found)
  · exact h.apart r r' place place' other (place?_congr map r ▸ found) (place?_congr map r' ▸ found')

/-- `r` gets fresh slots behind all others. -/
structure Appends (m m' : Machine) (r : Resident) (n : Nat) : Prop where
  size : m'.globals.size = m.globals.size + n
  here : m'.place? r = some ⟨m.globals.size, n⟩
  others : ∀ r', r' ≠ r → m'.place? r' = m.place? r'
  global : ∀ text p, m'.strings.get? text = some p →
    m.strings.get? text = some p ∨ (Address.decode p).region = .global

theorem Laid.appended {r : Resident} {n : Nat} (h : Laid m) (new : Appends m m' r n) : Laid m' := by
  have places (r' : Resident) (place : GlobalSlot) (found : m'.place? r' = some place) :
      r' = r ∧ place = ⟨m.globals.size, n⟩ ∨ r' ≠ r ∧ m.place? r' = some place := by
    by_cases same : r' = r
    · subst same
      rw [new.here] at found
      exact .inl ⟨rfl, (Option.some.inj found).symm⟩
    · rw [new.others r' same] at found
      exact .inr ⟨same, found⟩
  -- an older place ends where the fresh slots begin
  have below {place : GlobalSlot} {r' : Resident} {k : Nat} (found : m.place? r' = some place) (has : place.Has k) :
      k < m.globals.size :=
    Nat.lt_of_lt_of_le has.2 (h.inside r' place found)
  refine ⟨fun text p found => ?_, fun r' place found => ?_, fun r₁ r₂ place₁ place₂ other found₁ found₂ k has₁ has₂ => ?_⟩
  · obtain old | global := new.global text p found
    · exact h.global text p old
    · exact global
  · rw [new.size]
    obtain ⟨rfl, rfl⟩ | ⟨_, old⟩ := places r' place found
    · exact Nat.le_refl _
    · exact Nat.le_add_right_of_le (h.inside r' place old)
  · obtain ⟨rfl, rfl⟩ | ⟨_, old₁⟩ := places r₁ place₁ found₁
    · obtain ⟨rfl, rfl⟩ | ⟨_, old₂⟩ := places r₂ place₂ found₂
      · exact other rfl
      · exact absurd (below old₂ has₂) (Nat.not_lt.mpr has₁.1)
    · obtain ⟨rfl, rfl⟩ | ⟨_, old₂⟩ := places r₂ place₂ found₂
      · exact absurd (below old₁ has₁) (Nat.not_lt.mpr has₂.1)
      · exact h.apart r₁ r₂ place₁ place₂ other old₁ old₂ k has₁ has₂

/-! ## String literals -/

theorem internString_known {s : String} {p : UInt64} (h : m.strings.get? s = some p) : m.internString s = (p, m) := by
  unfold internString
  rw [h]

theorem length_bytesFrom (b : ByteArray) (i : Nat) (read : List UInt8) :
    (ByteArray.toList.loop b i read).length = read.length + (b.size - i) := by
  induction h : b.size - i generalizing i read with
  | zero =>
    rw [ByteArray.toList.loop, if_neg (by omega), List.length_reverse, Nat.add_zero]
  | succ n ih =>
    rw [ByteArray.toList.loop, if_pos (by omega), ih (i + 1) _ (by omega), List.length_cons]
    omega

theorem length_utf8 (s : String) : s.toUTF8.toList.length = s.utf8ByteSize :=
  (length_bytesFrom _ _ _).trans (Nat.zero_add _)

theorem internString_size {s : String} (h : m.strings.get? s = none) :
    (m.internString s).2.globals.size = m.globals.size + stringSlots s := by
  unfold internString
  rw [h]
  dsimp only
  rw [← Array.length_toList, Array.toList_appendList, Array.toList_appendList, List.length_append, List.length_append,
    List.length_map, length_utf8, Array.length_toList, Nat.add_assoc]
  rfl

theorem internString_appends {s : String} (h : m.strings.get? s = none)
    (room : (m.internString s).2.globals.size ≤ Address.reach) :
    Appends m (m.internString s).2 (.literal s) (stringSlots s) := by
  have size := internString_size h
  have small : m.globals.size < Address.reach := by
    have : 0 < stringSlots s := Nat.succ_pos _
    omega
  have strings : (m.internString s).2.strings = m.strings.insert s (Address.global m.globals.size).encode := by
    unfold internString
    rw [h]
  have objects : (m.internString s).2.objects = m.objects := by
    unfold internString
    rw [h]
  refine ⟨size, ?_, fun r other => ?_, fun text p found => ?_⟩
  · show ((m.internString s).2.strings.get? s).map _ = _
    rw [strings, NameMap.get?_insert, if_pos rfl, Option.map_some, Address.decode_global small,
      Address.index_global small]
  · cases r with
    | object name => exact congrArg (·.get? name) objects
    | literal text =>
      have different : text ≠ s := fun same => other (congrArg _ same)
      show ((m.internString s).2.strings.get? text).map _ = (m.strings.get? text).map _
      rw [strings, NameMap.get?_insert, if_neg different]
  · rw [strings, NameMap.get?_insert] at found
    split at found
    · cases found
      rw [Address.decode_global small]
      exact .inr rfl
    · exact .inl found

/-! ## Objects -/

theorem getElem?_set! (mem : Array Value) (i k : Nat) (v : Value) :
    (mem.set! i v)[k]? = if i = k ∧ k < mem.size then some v else mem[k]? := by
  rw [Array.set!_eq_setIfInBounds, Array.getElem?_setIfInBounds]
  by_cases same : i = k
  · subst same
    by_cases inside : i < mem.size
    · rw [if_pos rfl, if_pos inside, if_pos ⟨rfl, inside⟩]
    · rw [if_pos rfl, if_neg inside, if_neg fun h => inside h.2,
        Array.getElem?_eq_none (Nat.le_of_not_lt inside)]
  · rw [if_neg same, if_neg fun h => same h.1]

theorem size_zeroed (base n : Nat) (mem : Array Value) :
    (n.fold (fun i _ mem => mem.set! (base + i) (Value.int 0)) mem).size = mem.size := by
  induction n with
  | zero => rfl
  | succ n ih => rw [Nat.fold_succ, Array.set!_eq_setIfInBounds, Array.size_setIfInBounds, ih]

theorem getElem?_zeroed (base n k : Nat) (mem : Array Value) :
    (n.fold (fun i _ mem => mem.set! (base + i) (Value.int 0)) mem)[k]? =
      if (base ≤ k ∧ k < base + n) ∧ k < mem.size then some (.int 0) else mem[k]? := by
  induction n with
  | zero =>
    rw [if_neg (by omega)]
    rfl
  | succ n ih =>
    rw [Nat.fold_succ, getElem?_set!, size_zeroed, ih]
    by_cases last : base + n = k ∧ k < mem.size
    · rw [if_pos last, if_pos (by omega)]
    · rw [if_neg last]
      by_cases inside : (base ≤ k ∧ k < base + n) ∧ k < mem.size
      · rw [if_pos inside, if_pos (by omega)]
      · rw [if_neg inside, if_neg (by omega)]

/-- The object `g` lies at `base`, in place or behind all others. -/
structure Puts (m m' : Machine) (g : CodeGlobal) (base : Nat) : Prop where
  strings : m'.strings = m.strings
  limit : m'.maxGlobals = m.maxGlobals
  objects : m'.objects.get? g.name = some ⟨base, g.slots⟩
  others : ∀ name, name ≠ g.name → m'.objects.get? name = m.objects.get? name
  room : m.objects.get? g.name = some ⟨base, g.slots⟩ ∧ m'.globals.size = m.globals.size ∨
    m.hasObject g = false ∧ base = m.globals.size ∧ m'.globals.size = m.globals.size + g.slots
  zeros : ∀ k, GlobalSlot.Has ⟨base, g.slots⟩ k → k < m'.globals.size → m'.globals[k]? = some (.int 0)
  rest : ∀ k, ¬ GlobalSlot.Has ⟨base, g.slots⟩ k → m'.globals[k]? = m.globals[k]?

theorem placeObject_kept {g : CodeGlobal} {place : GlobalSlot} (h : m.objects.get? g.name = some place)
    (fits : place.slots = g.slots) : Puts m (m.placeObject g).2 g (m.placeObject g).1 := by
  let zeroed : Array Value := g.slots.fold (fun i _ mem => mem.set! (place.base + i) (.int 0)) m.globals
  have eq : m.placeObject g = (place.base, { m with globals := zeroed }) := by
    unfold placeObject
    simp only [h, if_pos fits]
    rfl
  have same : place = ⟨place.base, g.slots⟩ := by rw [← fits]
  rw [eq]
  refine ⟨rfl, rfl, h.trans (congrArg some same), fun _ _ => rfl, .inl ⟨h.trans (congrArg some same), size_zeroed _ _ _⟩,
    fun k has inside => ?_, fun k hasNot => ?_⟩
  · exact (getElem?_zeroed _ _ _ _).trans (if_pos ⟨has, by rwa [size_zeroed] at inside⟩)
  · exact (getElem?_zeroed _ _ _ _).trans (if_neg fun h => hasNot h.1)

theorem placeObject_fresh {g : CodeGlobal} (h : m.hasObject g = false) :
    Puts m (m.placeObject g).2 g (m.placeObject g).1 := by
  have eq : m.placeObject g = (m.globals.size, { m with
      globals := m.globals ++ Array.replicate g.slots (.int 0)
      objects := m.objects.insert g.name ⟨m.globals.size, g.slots⟩ }) := by
    unfold hasObject at h
    unfold placeObject
    cases found : m.objects.get? g.name with
    | none => rfl
    | some place =>
      rw [found] at h
      have other : place.slots ≠ g.slots := fun same => by simp [same] at h
      simp only [if_neg other]
  rw [eq]
  have size : (m.globals ++ Array.replicate g.slots (Value.int 0)).size = m.globals.size + g.slots := by
    rw [Array.size_append, Array.size_replicate]
  refine ⟨rfl, rfl, ?_, fun name other => ?_, .inr ⟨h, rfl, size⟩, fun k has inside => ?_, fun k hasNot => ?_⟩
  · exact (NameMap.get?_insert _ _ _ _).trans (if_pos rfl)
  · exact (NameMap.get?_insert _ _ _ _).trans (if_neg other)
  · have inside' : k - m.globals.size < g.slots := by
      have := has.2
      have := has.1
      dsimp only at *
      omega
    exact (Array.getElem?_append_right has.1).trans (Array.getElem?_replicate.trans (if_pos inside'))
  · have outside : ¬ (m.globals.size ≤ k ∧ k < m.globals.size + g.slots) := hasNot
    by_cases old : k < m.globals.size
    · exact Array.getElem?_append_left old
    · rw [Array.getElem?_eq_none (Nat.le_of_not_lt old), Array.getElem?_eq_none]
      dsimp only
      omega

theorem placeObject_puts (m : Machine) (g : CodeGlobal) : Puts m (m.placeObject g).2 g (m.placeObject g).1 := by
  cases known : m.hasObject g with
  | false => exact placeObject_fresh known
  | true =>
    unfold hasObject at known
    cases found : m.objects.get? g.name with
    | none => rw [found] at known; cases known
    | some place =>
      rw [found] at known
      exact placeObject_kept found (of_decide_eq_true known)

theorem Puts.laid {g : CodeGlobal} {base : Nat} (puts : Puts m m' g base) (h : Laid m) : Laid m' := by
  have literals (text : String) : m'.place? (.literal text) = m.place? (.literal text) := by
    unfold place?
    rw [puts.strings]
  have others (r : Resident) (other : r ≠ .object g.name) : m'.place? r = m.place? r := by
    cases r with
    | literal text => exact literals text
    | object name => exact puts.others name fun same => other (congrArg _ same)
  obtain ⟨kept, size⟩ | ⟨-, rfl, size⟩ := puts.room
  · have same (r : Resident) : m'.place? r = m.place? r := by
      by_cases here : r = .object g.name
      · subst here
        exact puts.objects.trans kept.symm
      · exact others r here
    refine ⟨fun text p found => h.global text p (puts.strings ▸ found), fun r place found => ?_,
      fun r r' place place' other found found' => ?_⟩
    · rw [size]
      exact h.inside r place (same r ▸ found)
    · exact h.apart r r' place place' other (same r ▸ found) (same r' ▸ found')
  · exact h.appended (r := .object g.name) ⟨size, puts.objects, others, fun text p found => .inl (puts.strings ▸ found)⟩

theorem Puts.size_le {g : CodeGlobal} {base : Nat} (puts : Puts m m' g base) : m.globals.size ≤ m'.globals.size := by
  obtain ⟨-, size⟩ | ⟨-, -, size⟩ := puts.room
  · exact Nat.le_of_eq size.symm
  · exact size ▸ Nat.le_add_right _ _

/-! ## Linking -/

/-- As long as every slot has an address, the machine is laid out. -/
def Ordered (m : Machine) : Prop := m.globals.size ≤ Address.reach → Laid m

theorem Ordered.same (h : Ordered m) (map : SameMap m m') : Ordered m' :=
  fun room => (h (map.size ▸ room)).same map

theorem internString_size_le (m : Machine) (s : String) : m.globals.size ≤ (m.internString s).2.globals.size := by
  cases known : m.strings.get? s with
  | none => exact internString_size known ▸ Nat.le_add_right _ _
  | some p => exact Nat.le_of_eq (by rw [internString_known known])

theorem Ordered.internString (h : Ordered m) (s : String) : Ordered (m.internString s).2 := by
  intro room
  have laid := h (Nat.le_trans (internString_size_le m s) room)
  cases known : m.strings.get? s with
  | none => exact laid.appended (internString_appends known room)
  | some p =>
    rw [internString_known known]
    exact laid

theorem Ordered.placeObject (h : Ordered m) (g : CodeGlobal) : Ordered (m.placeObject g).2 := by
  intro room
  have puts := placeObject_puts m g
  exact puts.laid (h (Nat.le_trans puts.size_le room))

/-- A property of the memory map that new strings and new objects keep. -/
structure Linkable (P : Machine → Prop) : Prop where
  same : ∀ m m', P m → SameMap m m' → P m'
  internString : ∀ m s, P m → P (m.internString s).2
  placeObject : ∀ m g, P m → P (m.placeObject g).2

section Linkable

variable {P : Machine → Prop}

theorem preserves_liftFault (x : Except Fault α) : Preserves P (liftFault x : Linking α) := by
  cases x with
  | ok a => exact .pure a
  | error f => exact .throw f

theorem preserves_accept (c : CodeModule) : Preserves P (accept c) := by
  refine .get fun m => ?_
  have room : Preserves P (if m.maxGlobals < m.globals.size + m.requestedSlots c then
      throw (.globalMemory (m.requestedSlots c) m.maxGlobals) else Pure.pure () : Linking Unit) :=
    .ite (.throw _) (.pure _)
  dsimp only
  split
  · exact .bind (.throw _) fun _ => room
  · exact room

variable (linkable : Linkable P)
include linkable

theorem Linkable.internStrings (ss : List String) (h : P m) : P (m.internStrings ss).2 := by
  induction ss generalizing m with
  | nil => exact h
  | cons s ss ih => exact ih (linkable.internString m s h)

theorem preserves_defineObject (strings : Array UInt64) (g : CodeGlobal) :
    Preserves P (defineObject strings g) := by
  unfold defineObject
  refine .bind (.modifyGet fun m h => linkable.placeObject m g h) fun base =>
    .bind (.forIn fun entry _ => ?_) fun _ => .pure _
  have stored : Preserves P (do
      let v ← Machine.liftFault (constValue strings entry.2)
      modify fun m => { m with globals := m.globals.set! (base + entry.1) v }
      Pure.pure (.yield PUnit.unit) : Linking (ForInStep PUnit)) := by
    refine .bind (preserves_liftFault _) fun v => .bind (.modify fun m h => ?_) fun _ => .pure _
    exact linkable.same m _ h ⟨by rw [Array.set!_eq_setIfInBounds, Array.size_setIfInBounds], rfl, rfl⟩
  dsimp only
  split
  · exact .bind (.throw _) fun _ => stored
  · exact stored

theorem preserves_defineFunction (strings : Array UInt64) (f : CodeFunction) :
    Preserves P (defineFunction strings f) :=
  .get fun _ => .bind (preserves_liftFault _) fun _ => .modify fun m h => linkable.same m _ h ⟨rfl, rfl, rfl⟩

theorem preserves_link (c : CodeModule) : Preserves P (link c) := by
  unfold Machine.link
  refine .bind (preserves_accept c) fun _ => .bind (.modifyGet fun m h => linkable.internStrings _ h) fun strings => ?_
  dsimp only
  rw [← Array.forIn_toList, ← Array.forIn_toList]
  refine .bind (.forIn fun g _ => ?_) fun _ => .bind (.forIn fun f _ => ?_) fun _ => .pure _
  · exact .bind (preserves_defineObject linkable _ g) fun _ => .pure _
  · exact .bind (preserves_defineFunction linkable _ f) fun _ => .pure _

theorem Linkable.kept {η : Type} (host : Option (Host η)) : Exec.Kept host fun w => P w.machine where
  same w m map h := linkable.same w.machine m h map
  link w c h := preserves_link linkable c w.machine h
  compile _ _ _ _ _ _ h := h

end Linkable

/-- Machines are laid out whatever is linked into them and whatever is run. -/
theorem linkable_ordered : Linkable Ordered :=
  ⟨fun _ _ h map => h.same map, fun _ s h => h.internString s, fun _ g h => h.placeObject g⟩

/-- Every literal has an address in the global region. -/
def LiteralsPlaced (m : Machine) : Prop :=
  ∀ text p, m.strings.get? text = some p → ∃ k, p = (Address.global k).encode

theorem linkable_literalsPlaced : Linkable LiteralsPlaced where
  same m m' h map := by
    unfold LiteralsPlaced
    rw [map.strings]
    exact h
  internString m s h := by
    cases known : m.strings.get? s with
    | some p =>
      rw [internString_known known]
      exact h
    | none =>
      intro text p found
      unfold internString at found
      rw [known] at found
      dsimp only at found
      rw [NameMap.get?_insert] at found
      split at found
      · exact ⟨_, (Option.some.inj found).symm⟩
      · exact h text p found
  placeObject m g h := by
    unfold LiteralsPlaced
    rw [(placeObject_puts m g).strings]
    exact h

/-! ## Reached machines -/

/-- A machine that linking, removing functions and running programs lead to, beginning with an empty one. -/
inductive Reached : Machine → Prop where
  | new (depth instructions slots : Nat) :
    Reached { maxDepth := depth, maxInstructions := instructions, maxGlobals := slots }
  | linked {m : Machine} (c : CodeModule) (before : Reached m) : Reached (finalState (link c m))
  | removed {m : Machine} (name : String) (before : Reached m) : Reached (m.removeFunction name)
  | executed {m : Machine} {η : Type} (host : Option (Host η)) (state : η) (name : String) (args : List Value)
    (before : Reached m) : Reached (finalState (Exec.call host name args ⟨m, state⟩)).machine

/-- What holds of an empty machine and is kept by linking holds of every machine. -/
theorem Reached.keeps {P : Machine → Prop} (h : Reached m) (linkable : Linkable P) (empty : P {}) : P m := by
  induction h with
  | new depth instructions slots => exact linkable.same {} _ empty ⟨rfl, rfl, rfl⟩
  | linked c _ ih => exact preserves_link linkable c _ ih
  | removed name _ ih => exact linkable.same _ _ ih ⟨rfl, rfl, rfl⟩
  | executed host state name args _ ih => exact Exec.preserves_call (linkable.kept host) name args ⟨_, state⟩ ih

theorem Reached.ordered (h : Reached m) : Ordered m := h.keeps linkable_ordered fun _ => Laid.empty

theorem Reached.literalsPlaced (h : Reached m) : LiteralsPlaced m := h.keeps linkable_literalsPlaced fun _ _ h => nomatch h

end Machine

end IncrementalC
