import IncrementalC.Unit.Error

/-!
# Included files

`expand` puts the tokens of the named file in the place of each `#include`. A file is included once.
The headers of the standard library are built in and stand for nothing.
-/
namespace IncrementalC.Include
set_option autoImplicit false

/-- Headers whose declarations are always there. -/
def systemHeaders : List String :=
  ["stdio.h", "stdlib.h", "math.h", "string.h", "stdbool.h", "stddef.h", "cstdio", "cstdlib",
   "cmath", "cstring", "iostream"]

/-- Where files are looked for. -/
structure Search where
  files : FileTree
  /-- Directories to look in, in order. -/
  paths : List String
  /-- Files that are part of the program already. -/
  included : List String

/-- The source text read so far, and the files that it came from. -/
structure State where
  sources : SourceMap
  staged : List String

/-- What was read before an error stays in the state. -/
abbrev Expand := ExceptT CompileError (StateM State)

/-- The path of the file that a directive means. Names in quotes are looked for first in the
directory of the file that includes them. -/
def Search.find? (s : Search) (name : String) (angled : Bool) (dir : String) : Option String :=
  if Path.isAbsolute name then some name |>.filter s.files.isFile
  else
    let dirs := if angled then s.paths else dir :: s.paths
    (dirs.map (Path.join · name)).find? s.files.isFile

/-- Adds a piece of text and returns its tokens. -/
def addText (name text : String) : Expand (List Token) := do
  match (← get).sources.add name text with
  | .error e => throw (.buffer e)
  | .ok (sources, id) =>
    modify ({ · with sources })
    let (file, start) := match sources.fragment? id with
      | some f => (f.file, f.start)
      | none => (0, 0)
    match tokenize text file start with
    | .ok tokens => return tokens.toList
    | .error e => throw (.lexical e)

/-- The tokens of a file in which nothing is expanded yet. -/
def readFile (s : Search) (path : String) : Expand (List Token) := do
  match s.files.readText path with
  | .error e => throw (.unreadable path e)
  | .ok text => return (← addText path text).filter (!·.kind.isEof)

/-- Expands the directives in a list of tokens; `inner` expands those of a file in a directory. -/
def expandWith (s : Search) (dir : String) (inner : String → List Token → Expand (List Token)) :
    List Token → Expand (List Token)
  | [] => return []
  | token :: rest => do
    match token.kind with
    | .directive (.include name angled) =>
      match s.find? name angled dir with
      | none =>
        if angled && systemHeaders.contains name then expandWith s dir inner rest
        else throw (.missingInclude name token.span)
      | some path =>
        let key := s.files.canonical path
        if s.included.contains key || (← get).staged.contains key then
          expandWith s dir inner rest
        else
          modify fun st => { st with staged := key :: st.staged }
          let tokens ← inner ((Path.parent? path).getD ".") (← readFile s path)
          return tokens ++ (← expandWith s dir inner rest)
    | _ => return token :: (← expandWith s dir inner rest)

/-- Expands directives that nest at most `depth` deep. -/
def expandTo (s : Search) : Nat → String → List Token → Expand (List Token)
  | 0, _, tokens => return tokens
  | depth + 1, dir, tokens => expandWith s dir (expandTo s depth) tokens

/-- Expands all directives. Each level of nesting stages another file, so levels cannot outnumber
the files. -/
def expand (s : Search) (tokens : List Token) : Expand (List Token) :=
  expandTo s (s.files.files.length + 1) "." tokens

end IncrementalC.Include
