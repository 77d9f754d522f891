/-!
# Finite maps from names

`NameMap.get?` is the view: `insert` changes it at one name.
-/
namespace IncrementalC
set_option autoImplicit false

/-- Each name stands in at most one entry. -/
structure NameMap (α : Type) where
  entries : List (String × α) := []
deriving Repr

namespace NameMap

variable {α : Type}

instance : Inhabited (NameMap α) := ⟨{}⟩

def empty : NameMap α := {}

def get? (m : NameMap α) (name : String) : Option α := m.entries.lookup name

def contains (m : NameMap α) (name : String) : Bool := (m.get? name).isSome

def erase (m : NameMap α) (name : String) : NameMap α :=
  ⟨m.entries.filter fun e => e.1 != name⟩

def insert (m : NameMap α) (name : String) (x : α) : NameMap α :=
  ⟨(name, x) :: (m.erase name).entries⟩

/-- Gives a name the value that it had, if any. -/
def restore (m : NameMap α) (name : String) : Option α → NameMap α
  | some x => m.insert name x
  | none => m.erase name

def names (m : NameMap α) : List String := m.entries.map Prod.fst

theorem lookup_filter_ne (l : List (String × α)) (name other : String) :
    (l.filter fun e => e.1 != name).lookup other
      = if other = name then none else l.lookup other := by
  induction l with
  | nil => simp
  | cons e l ih =>
    obtain ⟨k, v⟩ := e
    by_cases hk : k = name
    · subst hk
      by_cases ho : other = k
      · subst ho; simpa using ih
      · have : (other == k) = false := by simp [ho]
        simp [ih, ho, List.lookup_cons, this]
    · by_cases ho : other = k
      · subst ho; simp [hk]
      · have : (other == k) = false := by simp [ho]
        simp [hk, ih, List.lookup_cons, this]

theorem get?_erase (m : NameMap α) (name other : String) :
    (m.erase name).get? other = if other = name then none else m.get? other :=
  lookup_filter_ne m.entries name other

theorem get?_insert (m : NameMap α) (name other : String) (x : α) :
    (m.insert name x).get? other = if other = name then some x else m.get? other := by
  by_cases h : other = name
  · subst h; simp [insert, get?]
  · have hb : (other == name) = false := by simp [h]
    have := get?_erase m name other
    simp only [h, if_false, get?] at this ⊢
    simp [insert, List.lookup_cons, hb, this]

theorem get?_restore (m : NameMap α) (name other : String) (old : Option α) :
    (m.restore name old).get? other = if other = name then old else m.get? other := by
  cases old with
  | some x => exact get?_insert m name other x
  | none => exact get?_erase m name other

end NameMap

end IncrementalC
