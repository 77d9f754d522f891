import IncrementalC.Typed.Tree

/-!
# The declarations of a session

A `History` lists what the inputs declared, in order. A dump shows a part of it and moves a marker
to the end.
-/
namespace IncrementalC
set_option autoImplicit false

inductive DeclCategory where
  | variable | function | record | enum | typedef
deriving DecidableEq, Repr

def DeclCategory.name : DeclCategory → String
  | .variable => "variable"
  | .function => "function"
  | .record => "record"
  | .enum => "enum"
  | .typedef => "typedef"

def Typed.Decl.category (d : Typed.Decl) : DeclCategory :=
  match d.kind with
  | .var _ => .variable
  | .function _ => .function
  | .record .. => .record
  | .enum .. => .enum
  | .typedef .. => .typedef

structure DeclRecord where
  name : String
  category : DeclCategory
  /-- The source text of the whole group. -/
  text : String
  /-- The name of the fragment that holds it. -/
  fragment : String
deriving DecidableEq, Repr

/-- A part of the history. -/
inductive DumpRange where
  | all
  | last (n : Nat)
  | sincePrevious
deriving DecidableEq, Repr

structure History where
  decls : Array DeclRecord := #[]
  /-- Where the previous dump ended. -/
  marker : Nat := 0

namespace History

def size (h : History) : Nat := h.decls.size

def toList (h : History) : List DeclRecord := h.decls.toList

/-- Appends the declarations of one input. -/
def append (h : History) (records : List DeclRecord) : History :=
  { h with decls := h.decls ++ records }

/-- The number of the latest declaration. -/
def lastId? (h : History) : Option Nat := if h.size = 0 then none else some (h.size - 1)

/-- The number of declarations in front of a range. -/
def skipped (h : History) : DumpRange → Nat
  | .all => 0
  | .last n => h.size - n
  | .sincePrevious => min h.marker h.size

/-- The declarations of a range. The next dump of this kind begins behind them. -/
def dump (h : History) (range : DumpRange) : List DeclRecord × History :=
  (h.toList.drop (h.skipped range), { h with marker := h.size })

end History

end IncrementalC
