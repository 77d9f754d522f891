import IncrementalC.Proofs.Token.Lexemes
import IncrementalC.Session.Basic
import Mathlib.Data.List.DropRight

/-!
# The file that is loaded

A file is looked for and then compiled by an include directive for its path. `Search.loaded?` is what the look finds.

A directive is read up to the end of its line, without a comment behind it and without unescaping (`scanDirective_complete`,
`scanDirective_sound`), while `includeText` puts a backslash in front of quotes and backslashes. So the directive names the
path that was to be loaded exactly if no quote, no backslash and no line break is in the path (`Plain`). An escaped path never
begins as the path itself with a quote behind it (`plain_of_begins`), so that no cut elsewhere, as at `//`, can mend this.
-/
namespace IncrementalC
set_option autoImplicit false

/-- Neither is it escaped in an include directive, nor does it end one. -/
def Plain (path : List Char) : Prop := ∀ c ∈ path, c ≠ '"' ∧ c ≠ '\\' ∧ c ≠ '\n'

instance (path : List Char) : Decidable (Plain path) :=
  decidable_of_iff (path.all fun c => c ≠ '"' ∧ c ≠ '\\' ∧ c ≠ '\n') <| by
    simp only [List.all_eq_true, decide_eq_true_eq, Plain]

/-! ## Reading a directive -/

namespace Lexer
open Text

theorem stripLineComment_go_keeps (before s : List Char) :
    ∃ kept, stripLineComment.go before s = before.reverse ++ kept ∧ kept <+: s := by
  fun_induction stripLineComment.go before s with
  | case1 before r even => exact ⟨[], by simp, List.nil_prefix⟩
  | case2 before r odd => exact ⟨'/' :: '/' :: r, rfl, List.prefix_rfl⟩
  | case3 before c r _ ih =>
    obtain ⟨kept, same, begins⟩ := ih
    exact ⟨c :: kept, by simp [same], List.cons_prefix_cons.mpr ⟨rfl, begins⟩⟩
  | case4 before => exact ⟨[], by simp, List.prefix_rfl⟩

/-- Between an open quote and the last one of a line, no comment begins. -/
theorem stripLineComment_go_quoted {before path : List Char} (opened : before.count '"' % 2 = 1) (quoted : '"' ∉ path) :
    stripLineComment.go before (path ++ ['"']) = before.reverse ++ (path ++ ['"']) := by
  induction path generalizing before with
  | nil => simp [stripLineComment.go]
  | cons c path ih =>
    rw [List.mem_cons, not_or] at quoted
    have still : (c :: before).count '"' % 2 = 1 := by rwa [List.count_cons_of_ne (Ne.symm quoted.1)]
    have next := ih still quoted.2
    rw [List.cons_append, stripLineComment.go.eq_def]
    split
    · rename_i slashes
      rw [if_neg (by omega), ← slashes]
    · rename_i cons
      cases cons
      rw [next]
      simp
    · rename_i nil
      cases nil

theorem trim_quoted (l : List Char) : trim (' ' :: '"' :: l) = ('"' :: l).rdropWhile isBlank := by
  rw [trim, List.dropWhile_cons_of_pos (by decide), List.dropWhile_cons_of_neg (by decide)]
  rfl

/-- What is kept of the rest of a line that begins with a blank and a quote. -/
theorem trim_stripLineComment (l : List Char) :
    ∃ kept, trim (stripLineComment (' ' :: '"' :: l)) = '"' :: kept ∧ kept <+: l := by
  obtain ⟨cut, same, begins⟩ := stripLineComment_go_keeps ['"', ' '] l
  have stripped : stripLineComment (' ' :: '"' :: l) = ' ' :: '"' :: cut := same
  rw [stripped, trim_quoted]
  have kept := List.rdropWhile_prefix isBlank ('"' :: cut)
  cases trimmed : ('"' :: cut).rdropWhile isBlank with
  | nil => exact absurd (List.rdropWhile_eq_nil_iff.mp trimmed '"' List.mem_cons_self) (by decide)
  | cons c kept' =>
    rw [trimmed] at kept
    obtain ⟨rfl, begins'⟩ := List.cons_prefix_cons.mp kept
    exact ⟨kept', rfl, begins'.trans begins⟩

/-- An include directive with a quote behind its name. -/
theorem scanDirective_include {l : List Char} (oneLine : '\n' ∉ l) (rest : List Char) :
    scanDirective ("include \"".toList ++ (l ++ '\n' :: rest)) =
      match between? '"' '"' (trim (stripLineComment (' ' :: '"' :: l))) with
      | some (c :: p) => .ok (some (.directive (.include (String.ofList (c :: p)) false)), l.length + 9)
      | _ => .error ⟨.malformedInclude, 0, l.length + 10⟩ := by
  have line : ("include \"".toList ++ (l ++ '\n' :: rest)).takeWhile (· != '\n') = "include \"".toList ++ l := by
    have inside : ∀ c ∈ "include \"".toList ++ l, (c != '\n') = true := fun c mem => by
      rcases List.mem_append.mp mem with head | mem
      · have word : "include \"".toList.all (· != '\n') = true := rfl
        exact List.all_eq_true.mp word c head
      · exact bne_iff_ne.mpr fun same => oneLine (same ▸ mem)
    rw [← List.append_assoc, List.takeWhile_append_of_pos inside, List.takeWhile_cons_of_neg (by decide), List.append_nil]
  have body : ("include \"".toList ++ l).dropWhile (fun c => c == ' ' || c == '\t') = "include \"".toList ++ l := rfl
  have name : ("include \"".toList ++ l).takeWhile isWordChar = "include".toList := rfl
  have behind : ("include \"".toList ++ l).dropWhile isWordChar = ' ' :: '"' :: l := rfl
  have length : ("include \"".toList ++ l).length = l.length + 9 := List.length_append.trans (Nat.add_comm _ _)
  obtain ⟨kept, trimmed, -⟩ := trim_stripLineComment l
  unfold scanDirective
  dsimp only
  rw [lineLength, line, body, name, behind, length, String.ofList_toList, trimmed]
  have angled : between? '<' '>' ('"' :: kept) = none := rfl
  rw [angled]
  cases between? '"' '"' ('"' :: kept) with
  | none => rfl
  | some p => cases p <;> rfl

/-- A path is read back if nothing in it ends it or its line. -/
theorem scanDirective_complete {path : List Char} (full : path ≠ []) (plain : Plain path) (rest : List Char) :
    scanDirective ("include \"".toList ++ (path ++ ['"'] ++ '\n' :: rest)) =
      .ok (some (.directive (.include (String.ofList path) false)), path.length + 10) := by
  have quoted : '"' ∉ path := fun mem => (plain _ mem).1 rfl
  have oneLine : '\n' ∉ path ++ ['"'] := fun mem => by
    rcases List.mem_append.mp mem with mem | mem
    · exact (plain _ mem).2.2 rfl
    · exact absurd mem (by decide)
  have opened : ['"', ' '].count '"' % 2 = 1 := rfl
  have stripped : stripLineComment (' ' :: '"' :: (path ++ ['"'])) = ' ' :: '"' :: (path ++ ['"']) :=
    stripLineComment_go_quoted opened quoted
  have trimmed : ('"' :: (path ++ ['"'])).rdropWhile isBlank = '"' :: (path ++ ['"']) :=
    ('"' :: path).rdropWhile_concat_neg isBlank '"' (by decide)
  have inside : between? '"' '"' ('"' :: (path ++ ['"'])) = some path := by
    simp [between?]
  rw [scanDirective_include oneLine, stripped, trim_quoted, trimmed, inside]
  obtain ⟨c, p, rfl⟩ := List.exists_cons_of_ne_nil full
  simp

/-- What is read is an include directive, whose path stands in the line with a quote behind it. -/
theorem scanDirective_sound {l : List Char} (oneLine : '\n' ∉ l) {rest : List Char} {kind? : Option TokenKind} {n : Nat}
    (read : scanDirective ("include \"".toList ++ (l ++ '\n' :: rest)) = .ok (kind?, n)) :
    ∃ path, kind? = some (.directive (.include (String.ofList path) false)) ∧ path ++ ['"'] <+: l := by
  rw [scanDirective_include oneLine] at read
  obtain ⟨kept, trimmed, begins⟩ := trim_stripLineComment l
  rw [trimmed] at read
  split at read
  · rename_i c p found
    cases read
    refine ⟨c :: p, rfl, ?_⟩
    change (if _ then _ else _) = _ at found
    split at found
    · rename_i quotes
      rw [Bool.and_eq_true] at quotes
      have last : kept.getLast? = some '"' := beq_iff_eq.mp quotes.2
      rw [← Option.some.inj found, List.dropLast_append_getLast? '"' last]
      exact begins
    · cases found
  · cases read

end Lexer

/-! ## Writing a directive -/

/-- A backslash stands in front of quotes and backslashes. -/
def escapedPath (path : List Char) : List Char := path.flatMap fun c => if c = '\\' ∨ c = '"' then ['\\', c] else [c]

theorem escapedPath_plain {path : List Char} (plain : Plain path) : escapedPath path = path := by
  induction path with
  | nil => rfl
  | cons c path ih =>
    have here := plain c List.mem_cons_self
    have behind := ih fun d mem => plain d (List.mem_cons_of_mem c mem)
    show (if _ then _ else _) ++ escapedPath path = _
    rw [if_neg (by simp [here.1, here.2.1]), behind]
    rfl

/-- Behind backslashes that have not been matched, an escaped path does not begin as the path with a quote behind it. -/
theorem not_begins_escapedPath {path : List Char} (n : Nat) :
    ¬path ++ ['"'] <+: List.replicate (n + 1) '\\' ++ (escapedPath path ++ ['"']) := by
  induction path generalizing n with
  | nil =>
    intro begins
    rw [List.replicate_succ] at begins
    exact absurd (List.cons_prefix_cons.mp begins).1 (by decide)
  | cons c path ih =>
    intro begins
    rw [List.replicate_succ] at begins
    obtain ⟨rfl, begins⟩ := List.cons_prefix_cons.mp begins
    refine ih (n + 1) ?_
    have more : List.replicate (n + 2) '\\' ++ (escapedPath path ++ ['"']) =
        List.replicate n '\\' ++ (escapedPath ('\\' :: path) ++ ['"']) := by
      rw [List.replicate_add, List.append_assoc]
      rfl
    rwa [more]

/-- Nothing that is escaped is in a path that an escaped one begins with, up to a quote. -/
theorem plain_of_begins {path : List Char} (begins : path ++ ['"'] <+: escapedPath path ++ ['"']) :
    ∀ c ∈ path, c ≠ '"' ∧ c ≠ '\\' := by
  induction path with
  | nil => nofun
  | cons c path ih =>
    by_cases special : c = '\\' ∨ c = '"'
    · have escaped : escapedPath (c :: path) = '\\' :: c :: escapedPath path := by
        show (if _ then _ else _) ++ escapedPath path = _
        rw [if_pos special]
        rfl
      rw [escaped] at begins
      obtain ⟨rfl, begins⟩ := List.cons_prefix_cons.mp begins
      exact (not_begins_escapedPath 0 begins).elim
    · have kept : escapedPath (c :: path) = c :: escapedPath path := by
        show (if _ then _ else _) ++ escapedPath path = _
        rw [if_neg special]
        rfl
      rw [kept] at begins
      rw [not_or] at special
      exact List.forall_mem_cons.mpr ⟨⟨special.2, special.1⟩, ih (List.cons_prefix_cons.mp begins).2⟩

theorem includeText_toList (path : String) : (Session.includeText path).toList =
    '#' :: ("include \"".toList ++ (escapedPath path.toList ++ ['"'] ++ ['\n'])) := by
  show ("#include \"" ++ String.ofList (escapedPath path.toList) ++ "\"\n").toList = _
  simp

section

open Lexer

variable {file base : Nat}

theorem scan_hash (r : List Char) : scan true '#' r = scanDirective r :=
  scan_lexeme (by decide) (by decide) fun slash => absurd slash (by decide)

/-- A text of one line that is a directive. -/
theorem tokenize_directive {text : String} {r : List Char} (same : text.toList = '#' :: (r ++ ['\n'])) {d : Directive}
    (read : scanDirective (r ++ ['\n']) = .ok (some (.directive d), r.length)) :
    ∃ a b, tokenize text file base = .ok #[⟨.directive d, a⟩, ⟨.eof, b⟩] := by
  have lineEnd (lineStart : Bool) : scan lineStart '\n' [] = .ok (none, 0) := rfl
  rw [tokenize, same, tokensFrom, scan_hash, read]
  dsimp only
  rw [List.drop_left, tokensFrom, lineEnd]
  dsimp only
  rw [List.drop_nil, tokensFrom]
  exact ⟨_, _, rfl⟩

/-- The text that loads a file is read as one directive for its path if and only if the path is plain. -/
theorem tokenize_includeText {path : String} (full : path ≠ "") :
    (∃ a b, tokenize (Session.includeText path) file base = .ok #[⟨.directive (.include path false), a⟩, ⟨.eof, b⟩]) ↔
      Plain path.toList := by
  constructor
  · rintro ⟨a, b, read⟩
    -- the line that the directive is read from
    obtain ⟨l, rest, text, oneLine⟩ : ∃ l rest, escapedPath path.toList ++ ['"'] ++ ['\n'] = l ++ '\n' :: rest ∧ '\n' ∉ l :=
      List.eq_append_cons_of_mem (List.mem_append_right _ List.mem_cons_self)
    have inLine : l <+: escapedPath path.toList ++ ['"'] := by
      have begins : l <+: escapedPath path.toList ++ ['"'] ++ ['\n'] := text ▸ List.prefix_append l _
      refine (List.prefix_concat_iff.mp begins).resolve_left fun same => oneLine ?_
      rw [same]
      exact List.mem_append_right _ List.mem_cons_self
    rw [tokenize, includeText_toList, text, tokensFrom, scan_hash] at read
    cases found : scanDirective ("include \"".toList ++ (l ++ '\n' :: rest)) with
    | error e =>
      rw [found] at read
      cases read
    | ok r =>
      obtain ⟨p, kind, begins⟩ := scanDirective_sound oneLine found
      obtain ⟨kind?, n⟩ := r
      obtain rfl : kind? = _ := kind
      rw [found] at read
      obtain ⟨behind, tokens⟩ := tokensFrom_prefix (by simp [push]) List.prefix_rfl read
      cases tokens
      have noBreak : '\n' ∉ p := fun mem => oneLine (begins.mem (List.mem_append_left _ mem))
      rw [String.toList_ofList] at inLine ⊢
      have special := plain_of_begins (begins.trans inLine)
      exact fun c mem => ⟨(special c mem).1, (special c mem).2, fun same => noBreak (same ▸ mem)⟩
  · intro plain
    have full : path.toList ≠ [] := fun nil => full (String.toList_eq_nil_iff.mp nil)
    have length : path.toList.length + 10 = ("include \"".toList ++ (path.toList ++ ['"'])).length := by simp
    have read := scanDirective_complete full plain []
    rw [← List.append_assoc, String.ofList_toList, length] at read
    refine tokenize_directive ?_ read
    rw [includeText_toList, escapedPath_plain plain, List.append_assoc "include \"".toList]

end

/-! ## The working directory -/

section

variable {path : String}

theorem Path.pieces_dot (path : String) : Path.pieces ("./" ++ path) = "." :: Path.pieces path := by
  have split : ('.' :: '/' :: path.toList).splitOn '/' = ['.'] :: path.toList.splitOn '/' := by
    rw [List.splitOn, List.splitOnP_cons_eq_if_modifyHead, List.splitOnP_cons_eq_if_modifyHead]
    rfl
  rw [Path.pieces, String.toList_append]
  show List.map String.ofList (('.' :: '/' :: path.toList).splitOn '/') = _
  rw [split]
  rfl

theorem Path.join_dot (relative : Path.isAbsolute path = false) : Path.join "." path = "./" ++ path := by
  have inDot : (".".isEmpty || Path.isAbsolute path) = false := by rw [relative]; rfl
  rw [Path.join, inDot]
  rfl

namespace FileTree

variable {t : FileTree}

/-- A dot in front leads nowhere else. -/
theorem follow_dot (here : List String) (piece : String) (rest : List String) :
    t.follow here ("." :: piece :: rest) = t.follow here (piece :: rest) := by
  rw [follow]
  cases entry : t.entry? here with
  | none => simp [follow, entry]
  | some e =>
    cases e with
    | file content => simp [follow, entry]
    | directory => simp

theorem start_relative (full : path ≠ "") (relative : Path.isAbsolute path = false) (fits : path.utf8ByteSize ≤ maxPath) :
    t.start path = .ok t.here := by
  have some : ¬path.isEmpty = true := fun empty => full (String.isEmpty_iff.mp empty)
  rw [start, if_neg some, if_neg (by omega), relative]
  rfl

theorem isAbsolute_dot (path : String) : Path.isAbsolute ("./" ++ path) = false := by
  rw [Path.isAbsolute, String.toList_append]
  rfl

theorem utf8ByteSize_dot (path : String) : ("./" ++ path).utf8ByteSize = path.utf8ByteSize + 2 := by
  rw [String.utf8ByteSize_append, Nat.add_comm]
  rfl

/-- From the working directory a path leads to the same place with a dot in front, unless it gets too long by it. -/
theorem resolve_dot (full : path ≠ "") (relative : Path.isAbsolute path = false) (fits : path.utf8ByteSize + 2 ≤ maxPath) :
    t.resolve ("./" ++ path) = t.resolve path := by
  have dotted : "./" ++ path ≠ "" := fun empty => full (String.append_eq_empty_iff.mp empty).2
  have size := utf8ByteSize_dot path
  rw [resolve, resolve, start_relative dotted (isAbsolute_dot path) (by omega), start_relative full relative (by omega),
    Path.pieces_dot]
  cases pieces : Path.pieces path with
  | nil => exact absurd (List.map_eq_nil_iff.mp pieces) (List.splitOnP_ne_nil _ _)
  | cons piece rest => exact follow_dot t.here piece rest

theorem isFile_congr {path' : String} (same : t.resolve path' = t.resolve path) : t.isFile path' = t.isFile path := by
  rw [isFile, isFile, lookup, lookup, same]

theorem isFile_dot (full : path ≠ "") (relative : Path.isAbsolute path = false) (found : t.isFile ("./" ++ path) = true) :
    t.isFile path = true := by
  by_cases fits : path.utf8ByteSize + 2 ≤ maxPath
  · rwa [isFile_congr (resolve_dot full relative fits)] at found
  · -- a path that is too long leads nowhere
    have size := utf8ByteSize_dot path
    have long : t.start ("./" ++ path) = .error .nameTooLong := by
      rw [start, if_neg (fun empty => full (String.append_eq_empty_iff.mp (String.isEmpty_iff.mp empty)).2), if_pos (by omega)]
    rw [isFile, lookup, resolve, long] at found
    cases found

end FileTree

end

/-! ## Looking for the file -/

namespace Include.Search

/-- The file that is looked for before a path is loaded: at the path itself, or in the directories of the search. -/
def loaded? (s : Search) (path : String) : Option String :=
  if s.files.isFile path then some path
  else if Path.isAbsolute path then none
  else (s.paths.map (Path.join · path)).find? s.files.isFile

theorem isSome_loaded? (s : Search) (path : String) : (s.loaded? path).isSome =
    (s.files.isFile path || !Path.isAbsolute path && s.paths.any fun dir => s.files.isFile (Path.join dir path)) := by
  unfold loaded?
  cases s.files.isFile path with
  | true => rfl
  | false =>
    cases Path.isAbsolute path with
    | true => rfl
    | false =>
      show ((s.paths.map (Path.join · path)).find? s.files.isFile).isSome = s.paths.any _
      rw [Bool.eq_iff_iff, List.find?_isSome, List.any_eq_true]
      simp

/-- The directive for the path means the same file, unless a path from the working directory is so long that there is no
room for a dot in front of it. -/
theorem find?_of_loaded {s : Search} {path found : String} (full : path ≠ "") (loaded : s.loaded? path = some found)
    (fits : Path.isAbsolute path = true ∨ s.files.isFile path = false ∨ path.utf8ByteSize + 2 ≤ FileTree.maxPath) :
    ∃ path', s.find? path false "." = some path' ∧ s.files.resolve path' = s.files.resolve found := by
  unfold loaded? at loaded
  unfold find?
  cases absolute : Path.isAbsolute path with
  | true =>
    rw [absolute, if_pos rfl] at loaded
    split at loaded
    · rename_i isFile
      cases loaded
      exact ⟨path, by simp [isFile], rfl⟩
    · cases loaded
  | false =>
    rw [absolute, if_neg Bool.false_ne_true] at loaded
    simp only [Bool.false_eq_true, if_false, List.map_cons, Path.join_dot absolute, List.find?_cons]
    split at loaded
    · rename_i isFile
      cases loaded
      have fits : path.utf8ByteSize + 2 ≤ FileTree.maxPath := by
        rcases fits with h | h | h
        · exact absurd (absolute.symm.trans h) Bool.false_ne_true
        · exact absurd (isFile.symm.trans h) (Ne.symm Bool.false_ne_true)
        · exact h
      have same := FileTree.resolve_dot (t := s.files) full absolute fits
      rw [FileTree.isFile_congr same, isFile]
      exact ⟨_, rfl, same⟩
    · rename_i isNoFile
      have notHere : s.files.isFile ("./" ++ path) = false :=
        Bool.eq_false_iff.mpr fun isFile => isNoFile (FileTree.isFile_dot full absolute isFile)
      rw [notHere]
      exact ⟨found, loaded, rfl⟩

end Include.Search

namespace Session

/-- Where a session looks for files. -/
def search (s : Session) : Include.Search where
  files := s.evaluator.files
  paths := s.evaluator.unit.includePaths
  included := s.evaluator.unit.included

theorem loadPath_eq (path : String) (s : Session) : loadPath path s =
    if isSharedLibrary path then .error (.load path .sharedLibrary) s
    else match s.search.loaded? path with
      | some _ => compileText (includeText path) s
      | none => .error (.load path .notFound) s := by
  have found := s.search.isSome_loaded? path
  unfold loadPath
  by_cases shared : isSharedLibrary path
  · rw [if_pos shared, if_pos shared]
    rfl
  · rw [if_neg shared, if_neg shared]
    show (if (s.search.files.isFile path || !Path.isAbsolute path &&
      s.search.paths.any fun dir => s.search.files.isFile (Path.join dir path)) = true then compileText (includeText path)
      else throw (.load path .notFound)) s = _
    rw [← found]
    cases s.search.loaded? path <;> rfl

/-- A path that is no shared library is loaded if and only if a file is found for it. Its text is read as the one include
directive for the path exactly if the path is plain. That directive means the file that was found, if a dot in front of a path
from the working directory does not make it too long. -/
theorem loaded_file_is_included {path : String} (full : path ≠ "") :
    (∀ s : Session, loadPath path s =
      if isSharedLibrary path then .error (.load path .sharedLibrary) s
      else match s.search.loaded? path with
        | some _ => compileText (includeText path) s
        | none => .error (.load path .notFound) s) ∧
    (∀ file base, (∃ a b, tokenize (includeText path) file base =
        .ok #[⟨.directive (.include path false), a⟩, ⟨.eof, b⟩]) ↔ Plain path.toList) ∧
    ∀ (s : Include.Search) (found : String), s.loaded? path = some found →
      Path.isAbsolute path = true ∨ s.files.isFile path = false ∨ path.utf8ByteSize + 2 ≤ FileTree.maxPath →
      ∃ path', s.find? path false "." = some path' ∧ s.files.resolve path' = s.files.resolve found :=
  ⟨loadPath_eq path, fun _ _ => tokenize_includeText full, fun _ _ loaded fits => Include.Search.find?_of_loaded full loaded fits⟩

/-- Slashes and blanks in a path do no harm. -/
theorem spaced_file_is_included :
    let files : FileTree := { files := [(["inc", "sub", "a b.h"], "int x;".toUTF8)] }
    let s : Include.Search := { files, paths := ["inc"], included := [] }
    "sub//a b.h" ≠ "" ∧ s.loaded? "sub//a b.h" = some "inc/sub//a b.h" ∧
      (∃ a b, tokenize (includeText "sub//a b.h") 0 0 = .ok #[⟨.directive (.include "sub//a b.h" false), a⟩, ⟨.eof, b⟩]) ∧
      ∃ path', s.find? "sub//a b.h" false "." = some path' ∧ s.files.resolve path' = s.files.resolve "inc/sub//a b.h" := by
  intro files s
  have full : "sub//a b.h" ≠ "" := by decide
  have loaded : s.loaded? "sub//a b.h" = some "inc/sub//a b.h" := by decide +kernel
  have included := loaded_file_is_included full
  exact ⟨full, loaded, (included.2.1 0 0).mpr (by decide +kernel),
    included.2.2 s _ loaded (.inr (.inr (by decide +kernel)))⟩

/-- A file with a quote in its name is found, but its directive is for another one, which is not there. -/
theorem quoted_file_is_lost :
    let files : FileTree := { files := [(["q\"q.c"], "int qq = 1;".toUTF8)] }
    let s : Include.Search := { files, paths := [], included := [] }
    s.loaded? "q\"q.c" = some "q\"q.c" ∧
      (∃ a b, tokenize (includeText "q\"q.c") 0 0 = .ok #[⟨.directive (.include "q\\\"q.c" false), a⟩, ⟨.eof, b⟩]) ∧
      s.find? "q\\\"q.c" false "." = none :=
  ⟨by decide +kernel, tokenize_directive (r := "include \"q\\\"q.c\"".toList) (by decide) rfl, by decide +kernel⟩

end Session

end IncrementalC
