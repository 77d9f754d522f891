/-!
# Paths

Paths are texts with slashes between their parts. An empty path means the working directory.
-/
namespace IncrementalC.Path
set_option autoImplicit false

def isAbsolute (p : String) : Bool := p.toList.head? == some '/'

/-- The pieces between slashes. -/
def pieces (p : String) : List String := (p.toList.splitOn '/').map String.ofList

/-- `name` as seen from the directory `dir`. -/
def join (dir name : String) : String :=
  if dir.isEmpty || isAbsolute name then name
  else if dir.toList.getLast? == some '/' then dir ++ name
  else s!"{dir}/{name}"

/-- The steps of a path. Pieces that name nothing are no steps, but a dot in front is one. -/
def steps (p : String) : List String :=
  match pieces p with
  | [] => []
  | first :: rest =>
    (if first.isEmpty then [] else [first]) ++ rest.filter fun s => !s.isEmpty && s != "."

/-- Two paths of the same steps from the same start. -/
def isSame (p q : String) : Bool := isAbsolute p == isAbsolute q && steps p == steps q

/-- Pieces, last one first, without those at the end that name nothing. A dot counts in front. -/
def dropBlank : List String → List String
  | [] => []
  | [first] => [first]
  | piece :: rest => if piece.isEmpty || piece = "." then dropBlank rest else piece :: rest

/-- The directory that holds the last part, unless the path is empty or the root. -/
def parent? (p : String) : Option String :=
  match dropBlank (pieces p).reverse with
  | [] => none
  | [only] => if only.isEmpty then none else some ""
  | _ :: rest =>
    match dropBlank rest with
    | [""] => some "/"
    | rest => some ("/".intercalate rest.reverse)

/-- A path and the directories above it, at most `n` of them. -/
def chainWithin : Nat → String → List String
  | 0, p => [p]
  | n + 1, p =>
    match parent? p with
    | some dir => p :: chainWithin n dir
    | none => [p]

/-- A path and all directories above it, innermost first. -/
def chain (p : String) : List String := chainWithin p.length p

/-- What stands before the last part, whatever it is, as the path of a directory. -/
def above (p : String) : String :=
  String.ofList ((p.toList.reverse.dropWhile (· == '/')).dropWhile (· != '/')).reverse ++ "."

/-- The last part, unless it is a step up. -/
def fileName? (p : String) : Option String :=
  match dropBlank (pieces p).reverse with
  | last :: _ => if last.isEmpty || last = "." || last = ".." then none else some last
  | [] => none

/-- The place of the dot that begins the extension of a file name. A dot in front begins none. -/
def extensionDot? (name : String) : Option Nat :=
  let chars := name.toList
  match chars.reverse.idxOf? '.' with
  | some i => if i + 1 = chars.length then none else some (chars.length - 1 - i)
  | none => none

/-- The file name without its extension. -/
def stem? (p : String) : Option String := do
  let name ← fileName? p
  return match extensionDot? name with
    | some i => String.ofList (name.toList.take i)
    | none => name

def extension? (p : String) : Option String := do
  let name ← fileName? p
  return String.ofList (name.toList.drop ((← extensionDot? name) + 1))

end IncrementalC.Path
