import IncrementalC.Proofs.Source.CommittedText
import IncrementalC.Unit.Include

/-!
# Each file is included once

`Expands` says what the expansion of a list of tokens is, without a bound on how deep files nest:
each directive gives way to the expansion of its file, or to nothing. The bound of `expand` never
ends an expansion: each level stages one more of the finitely many files, so that the number of
files not staged yet measures how deep an expansion can go from there.
-/
namespace IncrementalC.Include
set_option autoImplicit false

open Source

/-- The file and the directory that a token asks for. -/
def request? (t : Token) : Option (String × Bool) :=
  match t.kind with
  | .directive (.include name angled) => some (name, angled)
  | _ => none

theorem request?_eq_some {t : Token} {name : String} {angled : Bool} :
    request? t = some (name, angled) ↔ t.kind = .directive (.include name angled) := by
  unfold request?
  split
  · rename_i same
    rw [same]
    simp
  · rename_i other
    simpa using other name angled

/-- The tokens of the file at `path` without the one that ends them, or what prevents reading it.
The text is added to the source first. -/
inductive FileRead (s : Search) (path : String) (m : SourceMap) :
    Except CompileError (List Token) → SourceMap → Prop where
  | unreadable {e : FileError} (reads : s.files.readText path = .error e) :
      FileRead s path m (.error (.unreadable path e)) m
  | malformed {text : String} {m' : SourceMap} {id : Nat} {f : Fragment} {e : LexError}
      (reads : s.files.readText path = .ok text) (added : m.add path text = .ok (m', id))
      (place : m'.fragment? id = some f) (lexed : tokenize text f.file f.start = .error e) :
      FileRead s path m (.error (.lexical e)) m'
  | whole {text : String} {m' : SourceMap} {id : Nat} {f : Fragment} {tokens : Array Token}
      (reads : s.files.readText path = .ok text) (added : m.add path text = .ok (m', id))
      (place : m'.fragment? id = some f) (lexed : tokenize text f.file f.start = .ok tokens) :
      FileRead s path m (.ok (tokens.toList.filter (!·.kind.isEof))) m'

/-- `Expands s dir st tokens r keys st'`: in the directory `dir` and the state `st` the tokens
expand to `r`, which leaves the state `st'` and takes up the files `keys`, in this order. -/
inductive Expands (s : Search) : String → State → List Token → Except CompileError (List Token) →
    List String → State → Prop where
  | nil {dir : String} {st : State} : Expands s dir st [] (.ok []) [] st
  | keep {dir : String} {st st' : State} {t : Token} {rest : List Token}
      {r : Except CompileError (List Token)} {keys : List String} (plain : request? t = none)
      (after : Expands s dir st rest r keys st') :
      Expands s dir st (t :: rest) (r.map (t :: ·)) keys st'
  /-- A header of the standard library that no file stands for. -/
  | header {dir : String} {st st' : State} {t : Token} {name : String} {rest : List Token}
      {r : Except CompileError (List Token)} {keys : List String}
      (asks : request? t = some (name, true)) (nowhere : s.find? name true dir = none)
      (known : name ∈ systemHeaders) (after : Expands s dir st rest r keys st') :
      Expands s dir st (t :: rest) r keys st'
  | missing {dir : String} {st : State} {t : Token} {name : String} {angled : Bool}
      {rest : List Token} (asks : request? t = some (name, angled))
      (nowhere : s.find? name angled dir = none)
      (unknown : angled = true → name ∉ systemHeaders) :
      Expands s dir st (t :: rest) (.error (.missingInclude name t.span)) [] st
  | again {dir : String} {st st' : State} {t : Token} {name path : String} {angled : Bool}
      {rest : List Token} {r : Except CompileError (List Token)} {keys : List String}
      (asks : request? t = some (name, angled)) (found : s.find? name angled dir = some path)
      (seen : s.files.canonical path ∈ s.included ∨ s.files.canonical path ∈ st.staged)
      (after : Expands s dir st rest r keys st') :
      Expands s dir st (t :: rest) r keys st'
  | unread {dir : String} {st : State} {t : Token} {name path : String} {angled : Bool}
      {rest : List Token} {m : SourceMap} {e : CompileError}
      (asks : request? t = some (name, angled)) (found : s.find? name angled dir = some path)
      (fresh : s.files.canonical path ∉ s.included ∧ s.files.canonical path ∉ st.staged)
      (read : FileRead s path st.sources (.error e) m) :
      Expands s dir st (t :: rest) (.error e) [s.files.canonical path]
        ⟨m, s.files.canonical path :: st.staged⟩
  | broken {dir : String} {st st' : State} {t : Token} {name path : String} {angled : Bool}
      {rest tokens : List Token} {m : SourceMap} {e : CompileError} {keys : List String}
      (asks : request? t = some (name, angled)) (found : s.find? name angled dir = some path)
      (fresh : s.files.canonical path ∉ s.included ∧ s.files.canonical path ∉ st.staged)
      (read : FileRead s path st.sources (.ok tokens) m)
      (inner : Expands s ((Path.parent? path).getD ".")
        ⟨m, s.files.canonical path :: st.staged⟩ tokens (.error e) keys st') :
      Expands s dir st (t :: rest) (.error e) (s.files.canonical path :: keys) st'
  | file {dir : String} {st st₁ st' : State} {t : Token} {name path : String} {angled : Bool}
      {rest tokens out : List Token} {m : SourceMap} {r : Except CompileError (List Token)}
      {keys more : List String}
      (asks : request? t = some (name, angled)) (found : s.find? name angled dir = some path)
      (fresh : s.files.canonical path ∉ s.included ∧ s.files.canonical path ∉ st.staged)
      (read : FileRead s path st.sources (.ok tokens) m)
      (inner : Expands s ((Path.parent? path).getD ".")
        ⟨m, s.files.canonical path :: st.staged⟩ tokens (.ok out) keys st₁)
      (after : Expands s dir st₁ rest r more st') :
      Expands s dir st (t :: rest) (r.map (out ++ ·))
        (s.files.canonical path :: (keys ++ more)) st'

variable {s : Search} {dir : String} {st st' : State} {tokens : List Token}
  {r : Except CompileError (List Token)} {keys : List String}

/-! ## What an expansion takes up -/

theorem Expands.staged (h : Expands s dir st tokens r keys st') :
    st'.staged = keys.reverse ++ st.staged := by
  induction h with
  | nil => rfl
  | keep _ _ ih => exact ih
  | header _ _ _ _ ih => exact ih
  | missing => rfl
  | again _ _ _ _ ih => exact ih
  | unread => rfl
  | broken _ _ _ _ _ ih => simpa using ih
  | file _ _ _ _ _ _ inner rest => simp [rest, inner]

/-- No file is taken up twice, and none that was part of the program before. -/
theorem Expands.once (h : Expands s dir st tokens r keys st') :
    keys.Nodup ∧ ∀ k ∈ keys, k ∉ s.included ∧ k ∉ st.staged := by
  induction h with
  | nil => simp
  | keep _ _ ih => exact ih
  | header _ _ _ _ ih => exact ih
  | missing => simp
  | again _ _ _ _ ih => exact ih
  | unread _ _ fresh => simpa using fresh
  | broken _ _ fresh _ _ ih =>
    refine ⟨List.nodup_cons.mpr ⟨fun later => (ih.2 _ later).2 List.mem_cons_self, ih.1⟩, ?_⟩
    intro k hk
    rcases List.mem_cons.mp hk with rfl | later
    · exact fresh
    · exact ⟨(ih.2 k later).1, fun old => (ih.2 k later).2 (List.mem_cons_of_mem _ old)⟩
  | @file dir st st₁ st' t name path angled rest tokens out m r keys more asks found fresh read
      inner after ihInner ihRest =>
    have grown := inner.staged
    -- the tokens behind the directive see what its file has staged
    have behind : ∀ k ∈ more, k ∉ s.included ∧ k ∉ keys ∧ k ≠ s.files.canonical path ∧
        k ∉ st.staged := by
      intro k hk
      obtain ⟨notIncluded, notStaged⟩ := ihRest.2 k hk
      simpa [grown, notIncluded] using notStaged
    refine ⟨List.nodup_cons.mpr ⟨?_, ?_⟩, ?_⟩
    · intro later
      rcases List.mem_append.mp later with within | after
      · exact (ihInner.2 _ within).2 List.mem_cons_self
      · exact (behind _ after).2.2.1 rfl
    · exact List.nodup_append.mpr
        ⟨ihInner.1, ihRest.1, fun a ha b hb same => (behind b hb).2.1 (same ▸ ha)⟩
    · intro k hk
      rcases List.mem_cons.mp hk with rfl | later
      · exact fresh
      · rcases List.mem_append.mp later with within | after
        · exact ⟨(ihInner.2 k within).1,
            fun old => (ihInner.2 k within).2 (List.mem_cons_of_mem _ old)⟩
        · exact ⟨(behind k after).1, (behind k after).2.2.2⟩

theorem map_eq_ok {α β ε : Type} {r : Except ε α} {f : α → β} {y : β} (h : r.map f = .ok y) :
    ∃ x, r = .ok x ∧ f x = y := by
  cases r with
  | error e => cases h
  | ok x => exact ⟨x, rfl, Except.ok.inj h⟩

/-- No directive is left. -/
theorem Expands.plain (h : Expands s dir st tokens r keys st') :
    ∀ out, r = .ok out → ∀ t ∈ out, request? t = none := by
  induction h with
  | nil => rintro _ ⟨⟩ t ht; cases ht
  | keep plain _ ih =>
    intro out same t ht
    obtain ⟨more, ok, rfl⟩ := map_eq_ok same
    rcases List.mem_cons.mp ht with rfl | later
    · exact plain
    · exact ih more ok t later
  | header _ _ _ _ ih => exact ih
  | missing => rintro _ ⟨⟩
  | again _ _ _ _ ih => exact ih
  | unread => rintro _ ⟨⟩
  | broken => rintro _ ⟨⟩
  | file _ _ _ _ _ _ ihInner ihRest =>
    intro out same t ht
    obtain ⟨more, ok, rfl⟩ := map_eq_ok same
    rcases List.mem_append.mp ht with within | after
    · exact ihInner _ rfl t within
    · exact ihRest more ok t after

/-! ## The expansion that is run -/

/-- The outcome of a step and the state behind it. -/
def outcome {α : Type} (m : Expand α) (st : State) : Except CompileError α × State := m.run.run st

theorem outcome_bind {α β : Type} (m : Expand α) (f : α → Expand β) (st : State) :
    outcome (m >>= f) st = match outcome m st with
      | (.ok x, st') => outcome (f x) st'
      | (.error e, st') => (.error e, st') := by
  show (ExceptT.bindCont f (m.run.run st).1).run (m.run.run st).2 = _
  unfold outcome
  cases m.run.run st with
  | mk r st' => cases r <;> rfl

theorem outcome_get {β : Type} (f : State → Expand β) (st : State) :
    outcome (get >>= f) st = outcome (f st) st :=
  rfl

theorem outcome_map {α β : Type} (m : Expand α) (f : α → β) (st : State) :
    outcome (m >>= fun x => pure (f x)) st = ((outcome m st).1.map f, (outcome m st).2) := by
  rw [outcome_bind]
  match outcome m st with
  | (.ok _, _) => rfl
  | (.error _, _) => rfl

theorem outcome_addText {m m' : SourceMap} {name text : String} {id : Nat} {f : Fragment}
    (added : m.add name text = .ok (m', id)) (place : m'.fragment? id = some f)
    (staged : List String) :
    outcome (addText name text) ⟨m, staged⟩ =
      match tokenize text f.file f.start with
      | .ok tokens => (.ok tokens.toList, ⟨m', staged⟩)
      | .error e => (.error (.lexical e), ⟨m', staged⟩) := by
  unfold addText
  simp only [outcome_get, added, place]
  rw [outcome_bind]
  cases tokenize text f.file f.start <;> rfl

theorem FileRead.outcome {path : String} {m m' : SourceMap} {r : Except CompileError (List Token)}
    (h : FileRead s path m r m') (staged : List String) :
    outcome (readFile s path) ⟨m, staged⟩ = (r, ⟨m', staged⟩) := by
  unfold readFile
  cases h with
  | unreadable reads => simp only [reads]; rfl
  | malformed reads added place lexed =>
    simp only [reads]
    rw [outcome_bind, outcome_addText added place, lexed]
  | whole reads added place lexed =>
    simp only [reads]
    rw [outcome_bind, outcome_addText added place, lexed]
    rfl

section

variable {inner : String → List Token → Expand (List Token)} {t : Token} {rest : List Token}
  {name path : String} {angled : Bool}

theorem outcome_keep (plain : request? t = none) :
    outcome (expandWith s dir inner (t :: rest)) st =
      ((outcome (expandWith s dir inner rest) st).1.map (t :: ·),
        (outcome (expandWith s dir inner rest) st).2) := by
  rw [← outcome_map, expandWith]
  unfold request? at plain
  split
  · rename_i same
    simp [same] at plain
  · rfl

theorem outcome_nowhere (asks : request? t = some (name, angled))
    (nowhere : s.find? name angled dir = none) :
    outcome (expandWith s dir inner (t :: rest)) st =
      if angled = true ∧ name ∈ systemHeaders then outcome (expandWith s dir inner rest) st
      else (.error (.missingInclude name t.span), st) := by
  rw [expandWith, request?_eq_some.mp asks]
  simp only [nowhere, Bool.and_eq_true, List.contains_iff_mem]
  split
  · rfl
  · rfl

theorem outcome_found (asks : request? t = some (name, angled))
    (found : s.find? name angled dir = some path) :
    outcome (expandWith s dir inner (t :: rest)) st =
      if s.files.canonical path ∈ s.included ∨ s.files.canonical path ∈ st.staged then
        outcome (expandWith s dir inner rest) st
      else
        match outcome (readFile s path) ⟨st.sources, s.files.canonical path :: st.staged⟩ with
        | (.error e, st₁) => (.error e, st₁)
        | (.ok tokens, st₁) =>
          match outcome (inner ((Path.parent? path).getD ".") tokens) st₁ with
          | (.error e, st₂) => (.error e, st₂)
          | (.ok out, st₂) =>
            ((outcome (expandWith s dir inner rest) st₂).1.map (out ++ ·),
              (outcome (expandWith s dir inner rest) st₂).2) := by
  rw [expandWith, request?_eq_some.mp asks]
  simp only [found]
  rw [outcome_bind]
  change outcome (if _ then _ else _) st = _
  simp only [Bool.or_eq_true, List.contains_iff_mem]
  split
  · rfl
  · rw [outcome_bind]
    change outcome (readFile s path >>= _) _ = _
    rw [outcome_bind]
    split
    · simp only [*]
      rw [outcome_bind]
      split
      · simp only [*]
        exact outcome_map ..
      · simp only [*]
    · simp only [*]

end

/-! ## How deep files nest -/

/-- The names of the files that are not staged yet. -/
def unstaged (s : Search) (st : State) : List String :=
  (s.files.files.map fun f => "/" ++ "/".intercalate f.1).filter (· ∉ st.staged)

theorem unstaged_length_le (s : Search) (st : State) :
    (unstaged s st).length ≤ s.files.files.length := by
  simpa [unstaged] using List.length_filter_le (· ∉ st.staged)
    (s.files.files.map fun f => "/" ++ "/".intercalate f.1)

theorem isFile_of_find? {name path : String} {angled : Bool}
    (found : s.find? name angled dir = some path) : s.files.isFile path = true := by
  unfold Search.find? at found
  split at found
  · exact (Option.filter_eq_some_iff.mp found).2
  · exact List.find?_some found

theorem mem_files_of_found {t : FileTree} {parts : List String} {content : ByteArray}
    (h : t.entry? parts = some (.file content)) : (parts, content) ∈ t.files := by
  unfold FileTree.entry? at h
  split at h
  · rename_i held
    cases h
    obtain ⟨before, behind, same, -⟩ := List.lookup_eq_some_iff.mp held
    simp [same]
  · dsimp only at h
    split at h <;> cases h

theorem canonical_mem_files {t : FileTree} {path : String} (h : t.isFile path = true) :
    t.canonical path ∈ t.files.map fun f => "/" ++ "/".intercalate f.1 := by
  unfold FileTree.isFile FileTree.lookup at h
  unfold FileTree.canonical
  cases leads : t.resolve path with
  | error e => simp [leads, bind, Except.bind] at h
  | ok parts =>
    simp only [leads, bind, Except.bind] at h
    cases held : t.entry? parts with
    | none => simp [held] at h
    | some e =>
      cases e with
      | directory => simp [held] at h
      | file content => exact List.mem_map_of_mem (mem_files_of_found held)

/-- A file that is taken up is staged, so that fewer are left for the files in it. -/
theorem unstaged_lt {name path : String} {angled : Bool}
    (found : s.find? name angled dir = some path)
    (fresh : s.files.canonical path ∉ st.staged) (m : SourceMap) :
    (unstaged s ⟨m, s.files.canonical path :: st.staged⟩).length < (unstaged s st).length := by
  have kept : unstaged s ⟨m, s.files.canonical path :: st.staged⟩ =
      (unstaged s st).filter (· ≠ s.files.canonical path) := by
    simp [unstaged, List.filter_filter, List.mem_cons, not_or]
  rw [kept]
  exact List.length_filter_lt_length_iff_exists.mpr
    ⟨s.files.canonical path,
      List.mem_filter.mpr ⟨canonical_mem_files (isFile_of_find? found), by simpa using fresh⟩,
      by simp⟩

theorem Expands.unstaged_le (h : Expands s dir st tokens r keys st') :
    (unstaged s st').length ≤ (unstaged s st).length := by
  unfold unstaged
  rw [← List.countP_eq_length_filter, ← List.countP_eq_length_filter]
  refine List.countP_mono_left fun k _ later => ?_
  rw [h.staged] at later
  simp only [decide_eq_true_eq, List.mem_append, not_or] at later ⊢
  exact later.2

/-! ## Every expansion ends -/

theorem exists_added (m : SourceMap) (name text : String) :
    ∃ m' id f, m.add name text = .ok (m', id) ∧ m'.fragment? id = some f := by
  obtain ⟨rest, b, -, added⟩ := m.add_eq name text
  obtain ⟨_, _, target, -⟩ := m.target_cases text.utf8ByteSize
  refine ⟨_, _, ⟨name, rest.size, b.size, b.size + text.utf8ByteSize⟩, added, ?_⟩
  simp [SourceMap.fragment?, SourceMap.withPiece, target]

theorem exists_fileRead (s : Search) (path : String) (m : SourceMap) :
    ∃ r m', FileRead s path m r m' := by
  cases reads : s.files.readText path with
  | error e => exact ⟨_, _, .unreadable reads⟩
  | ok text =>
    obtain ⟨m', id, f, added, place⟩ := exists_added m path text
    cases lexed : tokenize text f.file f.start with
    | error e => exact ⟨_, _, .malformed reads added place lexed⟩
    | ok tokens => exact ⟨_, _, .whole reads added place lexed⟩

/-- One token: a file in it is expanded with fewer left to stage, and the tokens behind it with no
more than before. -/
theorem exists_expands_cons {t : Token} {rest : List Token}
    (nested : ∀ dir' st₁ tokens, (unstaged s st₁).length < (unstaged s st).length →
      ∃ r keys st', Expands s dir' st₁ tokens r keys st')
    (behind : ∀ st₁, (unstaged s st₁).length ≤ (unstaged s st).length →
      ∃ r keys st', Expands s dir st₁ rest r keys st') :
    ∃ r keys st', Expands s dir st (t :: rest) r keys st' := by
  obtain ⟨r, keys, st', after⟩ := behind st (Nat.le_refl _)
  match asks : request? t with
  | none => exact ⟨_, _, _, .keep asks after⟩
  | some (name, angled) =>
    match found : s.find? name angled dir with
    | none =>
      by_cases known : angled = true ∧ name ∈ systemHeaders
      · obtain ⟨rfl, known⟩ := known
        exact ⟨_, _, _, .header asks found known after⟩
      · exact ⟨_, _, _, .missing asks found fun a k => known ⟨a, k⟩⟩
    | some path =>
      by_cases seen : s.files.canonical path ∈ s.included ∨ s.files.canonical path ∈ st.staged
      · exact ⟨_, _, _, .again asks found seen after⟩
      have fresh := not_or.mp seen
      obtain ⟨read, m, reads⟩ := exists_fileRead s path st.sources
      match read with
      | .error e => exact ⟨_, _, _, .unread asks found fresh reads⟩
      | .ok tokens =>
        have fewer := unstaged_lt found fresh.2 m
        obtain ⟨inside, keys, st₁, inner⟩ := nested ((Path.parent? path).getD ".") _ tokens fewer
        match inside with
        | .error e => exact ⟨_, _, _, .broken asks found fresh reads inner⟩
        | .ok out =>
          have grown := inner.unstaged_le
          obtain ⟨r, more, st', after⟩ := behind st₁ (by omega)
          exact ⟨_, _, _, .file asks found fresh reads inner after⟩

theorem exists_expands (s : Search) (dir : String) (st : State) (tokens : List Token) :
    ∃ r keys st', Expands s dir st tokens r keys st' := by
  induction bound : (unstaged s st).length using Nat.strongRecOn generalizing dir st tokens with
  | ind left nested =>
    replace bound := Nat.le_of_eq bound
    induction tokens generalizing st with
    | nil => exact ⟨_, _, _, .nil⟩
    | cons t rest behind =>
      exact exists_expands_cons
        (fun dir' st₁ tokens fewer => nested _ (by omega) dir' st₁ tokens rfl)
        (fun st₁ grown => behind st₁ (by omega))

/-! ## The bound on the depth ends none -/

theorem Expands.outcome (h : Expands s dir st tokens r keys st') (depth : Nat)
    (deep : (unstaged s st).length < depth) :
    outcome (expandTo s depth dir tokens) st = (r, st') := by
  obtain ⟨depth, rfl⟩ : ∃ n, depth = n + 1 := ⟨depth - 1, by omega⟩
  induction h generalizing depth with
  | nil => rfl
  | keep plain _ ih =>
    have after := ih depth deep
    rw [expandTo] at after ⊢
    rw [outcome_keep plain, after]
  | header asks nowhere known _ ih =>
    have after := ih depth deep
    rw [expandTo] at after ⊢
    rw [outcome_nowhere asks nowhere, if_pos ⟨rfl, known⟩, after]
  | missing asks nowhere unknown =>
    rw [expandTo, outcome_nowhere asks nowhere, if_neg fun h => unknown h.1 h.2]
  | again asks found seen _ ih =>
    have after := ih depth deep
    rw [expandTo] at after ⊢
    rw [outcome_found asks found, if_pos seen, after]
  | unread asks found fresh read =>
    rw [expandTo, outcome_found asks found, if_neg (not_or.mpr fresh), read.outcome]
  | @broken _ _ _ _ _ _ _ _ _ m _ _ asks found fresh read _ ih =>
    have fewer := unstaged_lt found fresh.2 m
    obtain ⟨depth, rfl⟩ : ∃ n, depth = n + 1 := ⟨depth - 1, by omega⟩
    rw [expandTo, outcome_found asks found, if_neg (not_or.mpr fresh), read.outcome]
    simp only [ih depth (by omega)]
  | @file _ _ _ _ _ _ _ _ _ _ _ m _ _ _ asks found fresh read inner _ ihInner ihRest =>
    have fewer := unstaged_lt found fresh.2 m
    have grown := inner.unstaged_le
    obtain ⟨depth, rfl⟩ : ∃ n, depth = n + 1 := ⟨depth - 1, by omega⟩
    have after := ihRest (depth + 1) (by omega)
    rw [expandTo] at after ⊢
    rw [outcome_found asks found, if_neg (not_or.mpr fresh), read.outcome]
    simp only [ihInner depth (by omega), after]

/-- An expansion has one result. -/
theorem Expands.unique {r' : Except CompileError (List Token)} {keys' : List String} {st'' : State}
    (h : Expands s dir st tokens r keys st') (h' : Expands s dir st tokens r' keys' st'') :
    r' = r ∧ keys' = keys ∧ st'' = st' := by
  have same := (h'.outcome _ (Nat.lt_succ_self _)).symm.trans (h.outcome _ (Nat.lt_succ_self _))
  obtain ⟨rfl, rfl⟩ := Prod.mk.inj same
  refine ⟨rfl, ?_, rfl⟩
  have staged := h'.staged.symm.trans h.staged
  exact List.reverse_inj.mp (List.append_cancel_right staged)

/-- Whatever files include each other, the expansion ends; it puts the expansion of its file in the
place of each directive or nothing, and takes up each file once. -/
theorem expansion_ends_with_each_file_once (s : Search) (tokens : List Token) (st : State) :
    ∃ r keys st', outcome (expand s tokens) st = (r, st') ∧
      Expands s "." st tokens r keys st' ∧
      (∀ r' keys' st'', Expands s "." st tokens r' keys' st'' →
        r' = r ∧ keys' = keys ∧ st'' = st') ∧
      st'.staged = keys.reverse ++ st.staged ∧ keys.Nodup ∧
      (∀ k ∈ keys, k ∉ s.included ∧ k ∉ st.staged) ∧
      ∀ out, r = .ok out → ∀ t ∈ out, request? t = none := by
  obtain ⟨r, keys, st', h⟩ := exists_expands s "." st tokens
  have within := unstaged_length_le s st
  exact ⟨r, keys, st', h.outcome _ (by omega), h, fun _ _ _ h' => h.unique h', h.staged, h.once.1,
    h.once.2, h.plain⟩

end IncrementalC.Include
