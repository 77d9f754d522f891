import IncrementalC.Files.Path

/-!
# Files

A `FileTree` holds the files that a program can see, and its working directory. Directories exist as
far as files lie in them. There are no links, so that one path without dots leads to each file, and no
access rights: what is there can be read.
-/
namespace IncrementalC
set_option autoImplicit false

inductive FileError where
  | notFound | notDirectory | isDirectory | nameTooLong
  /-- The content is no text. -/
  | notText
deriving DecidableEq, Repr

def FileError.message : FileError → String
  | .notFound => "No such file or directory (os error 2)"
  | .notDirectory => "Not a directory (os error 20)"
  | .isDirectory => "Is a directory (os error 21)"
  | .nameTooLong => "File name too long (os error 36)"
  | .notText => "stream did not contain valid UTF-8"

/-- Files by their only path from the root, all of them readable. -/
structure FileTree where
  /-- The parts of the path from the root, and the content. -/
  files : List (List String × ByteArray) := []
  /-- Directories that exist even if no file lies in them. -/
  directories : List (List String) := []
  /-- The parts of the working directory. -/
  here : List String := []

namespace FileTree

inductive Entry where
  | file (content : ByteArray)
  | directory

def entry? (t : FileTree) (parts : List String) : Option Entry :=
  match t.files.lookup parts with
  | some content => some (.file content)
  | none =>
    let isAbove (path : List String) := parts.isPrefixOf path
    if isAbove t.here || t.files.any (fun f => isAbove f.1) || t.directories.any isAbove then
      some .directory
    else none

/-- The most bytes of the name of a file. -/
def maxName : Nat := 255

/-- The most bytes of a path. -/
def maxPath : Nat := 4095

/-- Follows pieces of a path from a directory and returns the parts of where they lead. -/
def follow (t : FileTree) (here : List String) : List String → Except FileError (List String)
  | [] => .ok here
  | piece :: rest =>
    match t.entry? here with
    | none => .error .notFound
    | some (.file _) => .error .notDirectory
    | some .directory =>
      if piece.isEmpty || piece = "." then t.follow here rest
      else if piece = ".." then t.follow here.dropLast rest
      else if maxName < piece.utf8ByteSize then .error .nameTooLong
      else t.follow (here ++ [piece]) rest

/-- The parts of the directory that a path starts from. -/
def start (t : FileTree) (path : String) : Except FileError (List String) :=
  if path.isEmpty then .error .notFound
  else if maxPath < path.utf8ByteSize then .error .nameTooLong
  else .ok (if Path.isAbsolute path then [] else t.here)

/-- The parts of a path without steps up or dots. The last one need not exist. -/
def resolve (t : FileTree) (path : String) : Except FileError (List String) := do
  t.follow (← t.start path) (Path.pieces path)

/-- The parts of a path, whether it leads anywhere or not. -/
def place (t : FileTree) (path : String) : List String :=
  let start := if Path.isAbsolute path then [] else t.here
  (Path.pieces path).foldl (fun parts piece =>
    if piece.isEmpty || piece = "." then parts
    else if piece = ".." then parts.dropLast
    else parts ++ [piece]) start

def lookup (t : FileTree) (path : String) : Except FileError Entry := do
  match t.entry? (← t.resolve path) with
  | some e => .ok e
  | none => .error .notFound

def isFile (t : FileTree) (path : String) : Bool :=
  match t.lookup path with
  | .ok (.file _) => true
  | _ => false

/-- One name for all paths that lead to the same place. -/
def canonical (t : FileTree) (path : String) : String :=
  match t.resolve path with
  | .ok parts => "/" ++ "/".intercalate parts
  | .error _ => path

def readText (t : FileTree) (path : String) : Except FileError String := do
  match ← t.lookup path with
  | .directory => .error .isDirectory
  | .file content =>
    match String.fromUTF8? content with
    | some text => .ok text
    | none => .error .notText

/-- Creates or replaces a file in a directory that exists. A path that ends in a slash asks for a
directory, which cannot be written whether it exists or not. -/
def writeText (t : FileTree) (path text : String) : Except FileError FileTree := do
  if path.endsWith "/" then
    let _ ← t.follow (← t.start path) (Path.pieces (Path.above path))
    throw .isDirectory
  let parts ← t.resolve path
  match t.entry? parts with
  | some .directory => .error .isDirectory
  | some (.file _) =>
    .ok { t with files := t.files.map fun f => if f.1 = parts then (parts, text.toUTF8) else f }
  | none => .ok { t with files := t.files ++ [(parts, text.toUTF8)] }

def addFile (t : FileTree) (path : String) (content : ByteArray) : FileTree :=
  { t with files := (t.place path, content) :: t.files }

def addDirectory (t : FileTree) (path : String) : FileTree :=
  { t with directories := t.place path :: t.directories }

/-- Something is known to lie at a path. -/
def knows (t : FileTree) (path : String) : Bool :=
  let parts := t.place path
  t.directories.contains parts || (t.files.lookup parts).isSome

end FileTree

end IncrementalC
