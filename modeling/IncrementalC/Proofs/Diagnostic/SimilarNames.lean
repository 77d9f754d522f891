import IncrementalC.Unit.Error
import Mathlib.Order.Bounds.Basic

/-!
# The nearest names

`Similar.levenshtein` is the distance of two texts by recursion, and the number of the fewest characters to insert, delete or
replace (`isLeast_levenshtein`): one such edit changes the distance to a third text by one at most, wherever in the text it is
made. A row of the table holds the distances of one beginning of the first text to all beginnings of the second, whatever the
row it was written over held (`Rows.For.next`). Both texts are read backwards there, which is no matter for the fewest edits
(`levenshtein_reverse`).

Hints for a name are the first of all candidates that are near enough, in the order of distance and text
(`hints_are_nearest`).
-/
namespace IncrementalC.Similar
set_option autoImplicit false

/-! ## Edits -/

/-- One character is inserted, deleted or replaced. -/
inductive Edit : List Char → List Char → Prop where
  | insert (s t : List Char) (c : Char) : Edit (s ++ t) (s ++ c :: t)
  | delete (s t : List Char) (c : Char) : Edit (s ++ c :: t) (s ++ t)
  | replace (s t : List Char) (c d : Char) : Edit (s ++ c :: t) (s ++ d :: t)

/-- That many edits lead from the first text to the second. -/
inductive Edits : Nat → List Char → List Char → Prop where
  | none (s : List Char) : Edits 0 s s
  | next {n : Nat} {s t u : List Char} (first : Edit s t) (rest : Edits n t u) : Edits (n + 1) s u

theorem Edit.cons {s t : List Char} (h : Edit s t) (c : Char) : Edit (c :: s) (c :: t) := by
  cases h with
  | insert s t d => exact .insert (c :: s) t d
  | delete s t d => exact .delete (c :: s) t d
  | replace s t d e => exact .replace (c :: s) t d e

theorem Edit.reverse {s t : List Char} (h : Edit s t) : Edit s.reverse t.reverse := by
  cases h with
  | insert s t c => simpa using Edit.insert t.reverse s.reverse c
  | delete s t c => simpa using Edit.delete t.reverse s.reverse c
  | replace s t c d => simpa using Edit.replace t.reverse s.reverse c d

namespace Edits

variable {n : Nat} {s t : List Char}

theorem cons (h : Edits n s t) (c : Char) : Edits n (c :: s) (c :: t) := by
  induction h with
  | none s => exact .none _
  | next first _ ih => exact .next (first.cons c) ih

theorem reverse (h : Edits n s t) : Edits n s.reverse t.reverse := by
  induction h with
  | none s => exact .none _
  | next first _ ih => exact .next first.reverse ih

theorem insert (h : Edits n s t) (d : Char) : Edits (n + 1) s (d :: t) :=
  .next (.insert [] s d) (h.cons d)

theorem delete (h : Edits n s t) (c : Char) : Edits (n + 1) (c :: s) t :=
  .next (.delete [] s c) h

theorem replace (h : Edits n s t) (c d : Char) : Edits (n + 1) (c :: s) (d :: t) :=
  .next (.replace [] s c d) (h.cons d)

theorem min {m : Nat} (h : Edits m s t) (h' : Edits n s t) : Edits (min m n) s t := by
  rcases Nat.le_total m n with le | le
  · rwa [Nat.min_eq_left le]
  · rwa [Nat.min_eq_right le]

end Edits

/-! ## The distance by recursion -/

def levenshtein : List Char → List Char → Nat
  | [], t => t.length
  | s, [] => s.length
  | c :: s, d :: t =>
    min (min (levenshtein s t + if c = d then 0 else 1) (levenshtein s (d :: t) + 1)) (levenshtein (c :: s) t + 1)
termination_by s t => s.length + t.length

section

variable (c d : Char) (s t : List Char)

@[simp] theorem levenshtein_nil : levenshtein [] t = t.length := by rw [levenshtein]

@[simp] theorem levenshtein_nil_right : levenshtein s [] = s.length := by
  cases s with
  | nil => exact levenshtein_nil []
  | cons c s => rw [levenshtein]; exact nofun

theorem levenshtein_cons_cons : levenshtein (c :: s) (d :: t) =
    min (min (levenshtein s t + if c = d then 0 else 1) (levenshtein s (d :: t) + 1)) (levenshtein (c :: s) t + 1) := by
  rw [levenshtein]

theorem levenshtein_self : levenshtein s s = 0 := by
  induction s with
  | nil => exact levenshtein_nil []
  | cons c s ih => simp [levenshtein_cons_cons, ih]

theorem levenshtein_cons_le : levenshtein (c :: s) t ≤ levenshtein s t + 1 := by
  cases t with
  | nil => simp
  | cons d t =>
    rw [levenshtein_cons_cons]
    omega

theorem levenshtein_le_cons_right : levenshtein s (d :: t) ≤ levenshtein s t + 1 := by
  cases s with
  | nil => simp
  | cons c s =>
    rw [levenshtein_cons_cons]
    omega

theorem levenshtein_le_cons : levenshtein s t ≤ levenshtein (c :: s) t + 1 := by
  induction t with
  | nil => simp only [levenshtein_nil_right, List.length_cons]; omega
  | cons d t ih =>
    have inserted := levenshtein_le_cons_right d s t
    rw [levenshtein_cons_cons]
    omega

theorem levenshtein_replace_le : levenshtein (c :: s) t ≤ levenshtein (d :: s) t + 1 := by
  induction t with
  | nil => simp
  | cons e t ih =>
    rw [levenshtein_cons_cons, levenshtein_cons_cons]
    split <;> split <;> omega

variable {s t}

/-- A character in front keeps two texts near to each other. -/
theorem levenshtein_cons_near {u : List Char} (near : ∀ t, levenshtein s t ≤ levenshtein u t + 1) (t : List Char) :
    levenshtein (c :: s) t ≤ levenshtein (c :: u) t + 1 := by
  induction t with
  | nil => simpa using near []
  | cons d t ih =>
    have both := near t
    have left := near (d :: t)
    rw [levenshtein_cons_cons, levenshtein_cons_cons]
    omega

/-- An edit brings a text one nearer to another one at most. -/
theorem levenshtein_le_of_edit {u : List Char} (edit : Edit s u) (t : List Char) : levenshtein s t ≤ levenshtein u t + 1 := by
  -- the part in front of the edit is the same in both texts
  have behind (front : List Char) {s u : List Char} (near : ∀ t, levenshtein s t ≤ levenshtein u t + 1) :
      ∀ t, levenshtein (front ++ s) t ≤ levenshtein (front ++ u) t + 1 := by
    induction front with
    | nil => exact near
    | cons c front ih => exact levenshtein_cons_near c ih
  cases edit with
  | insert front back c => exact behind front (levenshtein_le_cons c back) t
  | delete front back c => exact behind front (levenshtein_cons_le c back) t
  | replace front back c d => exact behind front (levenshtein_replace_le c d back) t

theorem levenshtein_le_of_edits {n : Nat} (edits : Edits n s t) : levenshtein s t ≤ n := by
  induction edits with
  | none s => exact Nat.le_of_eq (levenshtein_self s)
  | next first _ ih => exact (levenshtein_le_of_edit first _).trans (Nat.succ_le_succ ih)

/-- The distance is the number of some edits. -/
theorem edits_levenshtein (s t : List Char) : Edits (levenshtein s t) s t := by
  induction s generalizing t with
  | nil =>
    rw [levenshtein_nil]
    induction t with
    | nil => exact .none []
    | cons d t ih => exact ih.insert d
  | cons c s ihs =>
    induction t with
    | nil => simpa using (ihs []).delete c
    | cons d t iht =>
      rw [levenshtein_cons_cons]
      have replaced : Edits (levenshtein s t + if c = d then 0 else 1) (c :: s) (d :: t) := by
        split
        · rename_i same
          exact same ▸ (ihs t).cons c
        · exact (ihs t).replace c d
      exact (replaced.min ((ihs (d :: t)).delete c)).min (iht.insert d)

theorem isLeast_levenshtein (s t : List Char) : IsLeast {n | Edits n s t} (levenshtein s t) :=
  ⟨edits_levenshtein s t, fun _ edits => levenshtein_le_of_edits edits⟩

theorem levenshtein_reverse (s t : List Char) : levenshtein s.reverse t.reverse = levenshtein s t := by
  refine le_antisymm (levenshtein_le_of_edits (edits_levenshtein s t).reverse) ?_
  simpa using levenshtein_le_of_edits (edits_levenshtein s.reverse t.reverse).reverse

end

/-! ## The table -/

/-- A row of the table for the text `p` is right up to entry `n`. Both texts are read backwards: entry `k` is the distance to
the first `k` characters of `b`. -/
def Filled (p b : List Char) (n : Nat) (row : Array Nat) : Prop :=
  row.size = b.length + 1 ∧ ∀ k ≤ n, row[k]? = some (levenshtein p (b.take k).reverse)

namespace Filled

variable {p b : List Char} {n : Nat} {row : Array Nat}

theorem getD (h : Filled p b n row) {k : Nat} (le : k ≤ n) : row.getD k 0 = levenshtein p (b.take k).reverse := by
  rw [Array.getD_eq_getD_getElem?, h.2 k le, Option.getD_some]

/-- One more entry is written. -/
theorem set (h : Filled p b n row) (lt : n < b.length) {x : Nat} (entry : x = levenshtein p (b.take (n + 1)).reverse) :
    Filled p b (n + 1) (row.setIfInBounds (n + 1) x) := by
  refine ⟨by rw [Array.size_setIfInBounds, h.1], fun k le => ?_⟩
  by_cases last : n + 1 = k
  · subst last
    rw [Array.getElem?_setIfInBounds_self_of_lt (by rw [h.1]; omega), entry]
  · rw [Array.getElem?_setIfInBounds_ne last]
    exact h.2 k (by omega)

end Filled

theorem filled_range (b : List Char) : Filled [] b b.length (Array.range (b.length + 1)) := by
  refine ⟨Array.size_range, fun k le => ?_⟩
  rw [Array.getElem?_range, if_pos (by omega)]
  simp [le]

/-- The first entry of a row counts the characters so far. What the row held before does not matter. -/
theorem filled_start (p b : List Char) {spare : Array Nat} (size : spare.size = b.length + 1) :
    Filled p b 0 (spare.setIfInBounds 0 p.length) := by
  refine ⟨by rw [Array.size_setIfInBounds, size], fun k le => ?_⟩
  obtain rfl := Nat.le_zero.mp le
  rw [Array.getElem?_setIfInBounds_self_of_lt (by omega)]
  simp

/-- An entry is worked out from the three next to it: above and left, above, and left. -/
theorem filled_fill {c : Char} {p b : List Char} {above : Array Nat} (rowAbove : Filled p b b.length above) {ds : List Char} :
    ∀ {j : Nat} {row : Array Nat}, Filled (c :: p) b j row → b.drop j = ds →
      Filled (c :: p) b b.length (fill c above row j ds) := by
  induction ds with
  | nil =>
    intro j row filled left
    exact ⟨filled.1, fun k le => filled.2 k (le.trans (List.drop_eq_nil_iff.mp left))⟩
  | cons d ds ih =>
    intro j row filled left
    have lt : j < b.length := by
      by_contra ge
      rw [List.drop_eq_nil_of_le (not_lt.mp ge)] at left
      cases left
    obtain ⟨here, behind⟩ : b[j] = d ∧ b.drop (j + 1) = ds := by
      rw [List.drop_eq_getElem_cons lt] at left
      exact List.cons.inj left
    have taken : (b.take (j + 1)).reverse = d :: (b.take j).reverse := by
      rw [List.take_succ_eq_append_getElem lt, here, List.reverse_concat]
    refine ih (filled.set lt ?_) behind
    rw [rowAbove.getD lt.le, rowAbove.getD lt, filled.getD le_rfl, taken, levenshtein_cons_cons]

/-- The table after the text `p`, read backwards. Of the spare row only the size is known. -/
structure Rows.For (p b : List Char) (rows : Rows) : Prop where
  last : Filled p b b.length rows.last
  spare : rows.spare.size = b.length + 1

/-- The rows change places: the new one is written over the row before the last one. -/
theorem Rows.For.next {p b : List Char} {rows : Rows} (h : rows.For p b) (c : Char) :
    (rows.next b c p.length).For (c :: p) b where
  last := filled_fill h.last (filled_start (c :: p) b h.spare) rfl
  spare := h.last.1

theorem Rows.For.foldl {b : List Char} (a : List Char) :
    ∀ {p : List Char} {rows : Rows}, rows.For p b →
      ((a.zipIdx p.length).foldl (fun rows (c, i) => rows.next b c i) rows).For (a.reverse ++ p) b := by
  induction a with
  | nil => exact fun h => h
  | cons c a ih =>
    intro p rows h
    rw [List.zipIdx_cons, List.foldl_cons, List.reverse_cons, List.append_assoc]
    exact ih (h.next c)

theorem distance_eq_levenshtein (a b : String) : distance a b = levenshtein a.toList b.toList := by
  have start : Rows.For [] b.toList ⟨Array.range (b.toList.length + 1), Array.replicate (b.toList.length + 1) 0⟩ :=
    ⟨filled_range b.toList, Array.size_replicate⟩
  have table := (start.foldl a.toList).last.getD le_rfl
  rw [List.append_nil, List.take_length, levenshtein_reverse] at table
  exact table

/-! ## Hints -/

/-- The order of hints for a name. -/
def Nearer (name x y : String) : Prop :=
  distance name x < distance name y ∨ distance name x = distance name y ∧ x ≤ y

theorem before_iff (x y : Nat × String) : before x y = true ↔ x.1 < y.1 ∨ x.1 = y.1 ∧ x.2 ≤ y.2 := by
  simp [before]

theorem before_trans (x y z : Nat × String) (h : before x y = true) (h' : before y z = true) : before x z = true := by
  rw [before_iff] at *
  rcases h with h | ⟨h, le⟩ <;> rcases h' with h' | ⟨h', le'⟩
  · exact .inl (h.trans h')
  · exact .inl (h' ▸ h)
  · exact .inl (h ▸ h')
  · exact .inr ⟨h.trans h', String.le_trans le le'⟩

theorem before_total (x y : Nat × String) : (before x y || before y x) = true := by
  rw [Bool.or_eq_true, before_iff, before_iff]
  rcases Nat.lt_trichotomy x.1 y.1 with h | h | h
  · exact .inl (.inl h)
  · exact (String.le_total x.2 y.2).imp (fun le => .inr ⟨h, le⟩) fun le => .inr ⟨h.symm, le⟩
  · exact .inr (.inl h)

/-- The candidates for a name that are near enough, with their distances. -/
def ranked (name : String) (candidates : List String) (bound : Nat) : List (Nat × String) :=
  (candidates.filter fun c => c ≠ name ∧ distance name c ≤ bound).map fun c => (distance name c, c)

theorem similar_eq (name : String) (candidates : List String) (bound : Nat) :
    similar name candidates bound = (((ranked name candidates bound).mergeSort before).take 3).map Prod.snd := by
  have kept : (candidates.filterMap fun c =>
      let d := distance name c
      if c ≠ name ∧ d ≤ bound then some (d, c) else none) = ranked name candidates bound := by
    unfold ranked
    rw [← List.filterMap_eq_map, List.filterMap_filter]
    simp
  unfold similar
  dsimp only at kept ⊢
  rw [kept]

/-- The distance that the program works out is the one by recursion, which is the number of the fewest edits. The hints for
a name are the first three of the other candidates that are near enough, in the order of distance and text. -/
theorem hints_are_nearest :
    (∀ a b : String, distance a b = levenshtein a.toList b.toList ∧
      IsLeast {n | Edits n a.toList b.toList} (distance a b)) ∧
    ∀ (name : String) (candidates : List String) (bound : Nat), ∃ sorted : List String,
      sorted.Perm (candidates.filter fun c => c ≠ name ∧ distance name c ≤ bound) ∧
      sorted.Pairwise (Nearer name) ∧ similar name candidates bound = sorted.take 3 := by
  refine ⟨fun a b => ⟨distance_eq_levenshtein a b, ?_⟩, fun name candidates bound => ?_⟩
  · rw [distance_eq_levenshtein]
    exact isLeast_levenshtein _ _
  · have perm := (ranked name candidates bound).mergeSort_perm before
    have ordered := List.pairwise_mergeSort before_trans before_total (ranked name candidates bound)
    refine ⟨((ranked name candidates bound).mergeSort before).map Prod.snd, ?_, ?_, ?_⟩
    · refine (perm.map Prod.snd).trans (.of_eq ?_)
      rw [ranked, List.map_map]
      exact List.map_id _
    · -- each entry begins with the distance of its text
      have distances : ∀ x ∈ (ranked name candidates bound).mergeSort before, x.1 = distance name x.2 := fun x mem => by
        obtain ⟨c, -, rfl⟩ := List.mem_map.mp (perm.mem_iff.mp mem)
        rfl
      refine List.pairwise_map.mpr (ordered.imp_of_mem fun {x y} hx hy before => ?_)
      have nearer := (before_iff x y).mp before
      rwa [distances x hx, distances y hy] at nearer
    · rw [similar_eq, List.map_take]

end IncrementalC.Similar
