import IncrementalC.Proofs.Token.Word
import Mathlib.Data.List.TakeWhile

/-!
# Where tokens stand

A token's span says which characters of the text the token was read from. `Accounts` divides a text
into tokens and the trivia between them; `tokensFrom_accounts` proves that the lexer yields such a
division. What the spans say then follows from the division alone.
-/
namespace IncrementalC
set_option autoImplicit false
open Text

/-! ## How tokens are written -/

namespace Keyword

/-- The words that are read as the keyword. -/
def spellings : Keyword → List String
  | .bool => ["bool", "_Bool"]
  | .nullptr => ["nullptr", "NULL"]
  | k => [k.spelling]

theorem mem_spellings_of_ofWord? {w : String} {k : Keyword} (h : ofWord? w = some k) :
    w ∈ k.spellings := by
  have first (k : Keyword) : k.spelling ∈ k.spellings := by
    cases k <;> simp [spellings, spelling]
  unfold ofWord? at h
  split at h
  · cases h
    simp_all [spellings]
  · split at h
    · cases h
      simp_all [spellings]
    · have same := List.find?_some h
      rw [beq_iff_eq] at same
      exact same ▸ first k

end Keyword

theorem Punct.take_of_scan? {s : List Char} {p : Punct} {n : Nat} (h : scan? s = some (p, n)) :
    s.take (n + 1) = p.spelling.toList := by
  unfold scan? at h
  split at h
  case h_23 =>
    obtain ⟨q, found, same⟩ := Option.map_eq_some_iff.mp h
    cases same
    unfold scan?.single? at found
    split at found <;> cases found <;> rfl
  case h_24 => cases h
  all_goals cases h; rfl

/-- The characters `cs` are read as the token; of literals and directives nothing is asked. -/
def TokenKind.Spells : TokenKind → List Char → Prop
  | .ident name, cs => cs = name.toList
  | .keyword k, cs => String.ofList cs ∈ k.spellings
  | .punct p, cs => cs = p.spelling.toList
  | .eof, cs => cs = []
  | _, _ => True

/-! ## Trivia -/

namespace Lexer

/-- White space, comments and spliced lines with `rest` behind them. A line comment reaches to the end
of its line. -/
inductive Trivia (rest : List Char) : List Char → Prop where
  | nil : Trivia rest []
  | blank {c : Char} {r : List Char} : isBlank c → Trivia rest r → Trivia rest (c :: r)
  | splice {r : List Char} : Trivia rest r → Trivia rest ('\\' :: '\n' :: r)
  | lineComment {body r : List Char} : '\n' ∉ body → (∀ c ∈ (r ++ rest).head?, c = '\n') → Trivia rest r →
      Trivia rest ('/' :: '/' :: (body ++ r))
  | blockComment {body r : List Char} : ¬['*', '/'] <:+: body → Trivia rest r →
      Trivia rest ('/' :: '*' :: (body ++ '*' :: '/' :: r))

theorem Trivia.append {rest x gap : List Char} (h : Trivia (x ++ rest) gap) (more : Trivia rest x) :
    Trivia rest (gap ++ x) := by
  induction h with
  | nil => exact more
  | blank white _ ih => exact .blank white ih
  | splice _ ih => exact .splice ih
  | @lineComment body r inside stops _ ih =>
    rw [List.cons_append, List.cons_append, List.append_assoc]
    refine .lineComment inside ?_ ih
    rwa [List.append_assoc]
  | @blockComment body r inside _ ih =>
    rw [List.cons_append, List.cons_append, List.append_assoc, List.cons_append, List.cons_append]
    exact .blockComment inside ih

/-- The text up to the end of the line, and the rest. -/
theorem lineLength_split (r : List Char) : ∃ line rest, r = line ++ rest ∧ lineLength r = line.length ∧
    '\n' ∉ line ∧ ∀ c ∈ rest.head?, c = '\n' := by
  refine ⟨r.takeWhile (· != '\n'), r.dropWhile (· != '\n'), by simp, rfl, fun mem => ?_, fun c first => ?_⟩
  · simpa using List.mem_takeWhile_imp mem
  · have stop := List.head?_dropWhile_not (· != '\n') r
    rw [Option.mem_def.mp first] at stop
    simpa using stop

/-! ## One lexeme -/

/-- The lexeme is a token that may be written in many ways. -/
def Free (kind? : Option TokenKind) : Prop := ∃ k, kind? = some k ∧ ∀ cs, k.Spells cs

theorem scanNumber_free {s : List Char} {kind? : Option TokenKind} {n : Nat}
    (h : scanNumber s = .ok (kind?, n)) : Free kind? := by
  unfold scanNumber at h
  dsimp only at h
  split at h
  · rename_i k found
    cases h
    refine ⟨k, rfl, fun cs => ?_⟩
    unfold numberKind? at found
    split at found
    · obtain ⟨x, -, found⟩ := Option.bind_eq_some_iff.mp found
      obtain ⟨single, -, found⟩ := Option.bind_eq_some_iff.mp found
      cases found
      trivial
    · obtain ⟨v, -, found⟩ := Option.bind_eq_some_iff.mp found
      obtain ⟨suffix, -, found⟩ := Option.bind_eq_some_iff.mp found
      cases found
      trivial
  · cases h

theorem scanString_free {r : List Char} {kind? : Option TokenKind} {n : Nat}
    (h : scanString r = .ok (kind?, n)) : Free kind? := by
  unfold scanString at h
  obtain ⟨x, -, h⟩ := bind_ok h
  cases h
  exact ⟨_, rfl, fun _ => trivial⟩

theorem scanChar_free {r : List Char} {kind? : Option TokenKind} {n : Nat}
    (h : scanChar r = .ok (kind?, n)) : Free kind? := by
  unfold scanChar at h
  obtain ⟨x, -, h⟩ := bind_ok h
  dsimp only at h
  split at h
  · cases h
    exact ⟨_, rfl, fun _ => trivial⟩
  · cases h

theorem scanDirective_free {r : List Char} {kind? : Option TokenKind} {n : Nat}
    (h : scanDirective r = .ok (kind?, n)) : Free kind? := by
  unfold scanDirective at h
  dsimp only at h
  split at h
  · split at h
    · cases h
      exact ⟨_, rfl, fun _ => trivial⟩
    · cases h
  · cases h
    exact ⟨_, rfl, fun _ => trivial⟩
  · cases h

theorem take_length_takeWhile (p : Char → Bool) (s : List Char) :
    s.take (s.takeWhile p).length = s.takeWhile p :=
  (List.prefix_iff_eq_take.mp (List.takeWhile_prefix p)).symm

variable {c : Char} {r : List Char}

theorem scanWord_spells (letter : isLetter c || c == '_') :
    ∃ k, (scanWord (c :: r)).1 = some k ∧ k.Spells (c :: r.take (scanWord (c :: r)).2) := by
  have word : isWordChar c := by
    unfold isWordChar
    cases first : isLetter c
    · simp_all
    · rfl
  have read : c :: r.take (scanWord (c :: r)).2 = (c :: r).takeWhile isWordChar := by
    rw [← take_length_takeWhile, scanWord, List.takeWhile_cons, if_pos word]
    rfl
  rw [read]
  cases found : Keyword.ofWord? (String.ofList ((c :: r).takeWhile isWordChar)) with
  | none => exact ⟨.ident _, by simp [scanWord, found], String.toList_ofList.symm⟩
  | some k => exact ⟨.keyword k, by simp [scanWord, found], Keyword.mem_spellings_of_ofWord? found⟩

/-- What a lexeme of the text is: trivia, or the token that its characters spell. -/
theorem scan_reads {lineStart : Bool} {kind? : Option TokenKind} {n : Nat}
    (h : scan lineStart c r = .ok (kind?, n)) :
    (kind? = none ∧ Trivia (r.drop n) (c :: r.take n)) ∨
      ∃ k, kind? = some k ∧ k.Spells (c :: r.take n) := by
  have free (found : Free kind?) : ∃ k, kind? = some k ∧ k.Spells (c :: r.take n) := by
    obtain ⟨k, same, spells⟩ := found
    exact ⟨k, same, spells _⟩
  unfold scan at h
  split at h
  · rename_i white
    cases h
    exact .inl ⟨rfl, .blank white .nil⟩
  split at h
  · cases h
    exact .inl ⟨rfl, .splice .nil⟩
  · cases h
    rename_i r _
    obtain ⟨line, rest, rfl, count, inside, stop⟩ := lineLength_split r
    have comment : Trivia rest ('/' :: '/' :: (line ++ [])) := .lineComment inside stop .nil
    have length : lineLength ('/' :: (line ++ rest)) = line.length + 1 := by
      rw [← count]
      rfl
    exact .inl ⟨rfl, by simpa [length] using comment⟩
  · rename_i r _
    split at h
    · rename_i m found
      cases h
      obtain ⟨body, same, open_⟩ := take_of_commentLength? found
      rw [List.take_succ_cons, same]
      exact .inl ⟨rfl, .blockComment open_ .nil⟩
    · cases h
  · right
    split at h
    · exact free (scanDirective_free h)
    split at h
    · exact free (scanNumber_free h)
    split at h
    · rename_i letter
      have word := scanWord_spells (r := r) letter
      rw [Except.ok.inj h] at word
      exact word
    split at h
    · exact free (scanString_free h)
    split at h
    · exact free (scanChar_free h)
    split at h
    · rename_i p m found
      cases h
      exact ⟨.punct p, rfl, Punct.take_of_scan? found⟩
    · cases h

/-! ## Places -/

/-- The size of the characters in UTF-8. -/
def byteSize (cs : List Char) : Nat := (String.ofList cs).utf8ByteSize

theorem byteSize_append (cs ds : List Char) : byteSize (cs ++ ds) = byteSize cs + byteSize ds := by
  simp [byteSize, String.ofList_append]

theorem byteSize_singleton (c : Char) : byteSize [c] = c.utf8Size := by
  simp [byteSize]

/-- The span of `inside` behind `before`, in a text that begins at `base` of buffer `file`. -/
def spanBehind (file base : Nat) (before inside : List Char) : Span where
  file := file
  start := base + byteSize before
  stop := base + byteSize (before ++ inside)
  line := before.count '\n' + 1
  col := (before.reverse.takeWhile (· != '\n')).length + 1

/-- The lexer has read `before`. -/
structure Place.Behind (p : Place) (before : List Char) : Prop where
  offset : p.offset = byteSize before
  line : p.line = before.count '\n' + 1
  col : p.col = (before.reverse.takeWhile (· != '\n')).length + 1

theorem Place.behind_nil : Place.Behind {} [] := ⟨rfl, rfl, rfl⟩

theorem Place.Behind.step {p : Place} {before : List Char} (h : p.Behind before) (c : Char) :
    (p.step c).Behind (before ++ [c]) := by
  obtain ⟨offset, line, col⟩ := h
  unfold Place.step
  by_cases newline : c = '\n'
  · constructor <;> simp [newline, offset, line, byteSize_append, byteSize_singleton]
  · constructor <;> simp [newline, offset, line, col, byteSize_append, byteSize_singleton]

theorem Place.Behind.advance {p : Place} {before : List Char} (h : p.Behind before) (cs : List Char) :
    (p.advance cs).Behind (before ++ cs) := by
  induction cs generalizing p before with
  | nil => simpa [Place.advance] using h
  | cons c cs ih =>
    have next := ih (h.step c)
    rwa [List.append_assoc] at next

theorem Place.Behind.spanTo {p q : Place} {before inside : List Char} (h : p.Behind before)
    (h' : q.Behind (before ++ inside)) (file base : Nat) :
    p.spanTo q file base = spanBehind file base before inside := by
  simp [Place.spanTo, spanBehind, h.offset, h.line, h.col, h'.offset]

/-- String literals that become one token cover what stands between them. -/
theorem merge_spanBehind {file : Nat} (real : file ≠ Span.noFile) (base : Nat) (before inside gap more : List Char) :
    (spanBehind file base before inside).merge (spanBehind file base (before ++ inside ++ gap) more) =
      spanBehind file base before (inside ++ gap ++ more) := by
  have sizes := byteSize_append
  simp [Span.merge, Span.isNone, spanBehind, real, sizes]

variable {file base : Nat} {before : List Char}

theorem push_cases (acc : Array Token) (t : Token) :
    (∃ (done : Array Token) (x y : String) (span : Span), acc = done.push ⟨.str x, span⟩ ∧ t.kind = .str y ∧
      push acc t = done.push ⟨.str (x ++ y), span.merge t.span⟩) ∨
    push acc t = acc.push t ∧ ∀ s ∈ acc.back?, ∀ x y, s.kind = .str x → t.kind ≠ .str y := by
  unfold push
  split
  · rename_i x span y last isStr
    obtain ⟨done, rfl⟩ := Array.back?_eq_some_iff.mp last
    exact .inl ⟨done, x, y, span, rfl, isStr, by simp⟩
  · rename_i apart
    refine .inr ⟨rfl, fun s last x y first second => ?_⟩
    obtain ⟨kind, span⟩ := s
    cases first
    exact apart x span y last second

/-! ## What a span covers -/

/-- The token's span covers characters of the text that spell it. -/
def Covers (file base : Nat) (text : List Char) (t : Token) : Prop :=
  ∃ before inside after, text = before ++ inside ++ after ∧ t.span = spanBehind file base before inside ∧
    t.kind.Spells inside ∧ (inside = [] → t.kind = .eof)

theorem Covers.range {text : List Char} {t : Token} (h : Covers file base text t) :
    base ≤ t.span.start ∧ t.span.start ≤ t.span.stop ∧ t.span.stop ≤ base + byteSize text := by
  obtain ⟨before, inside, after, rfl, span, -, -⟩ := h
  simp only [span, spanBehind, byteSize_append]
  omega

theorem Covers.append {text : List Char} {t : Token} (h : Covers file base text t) (more : List Char) :
    Covers file base (text ++ more) t := by
  obtain ⟨before, inside, after, rfl, span, spells, full⟩ := h
  exact ⟨before, inside, after ++ more, by simp, span, spells, full⟩

theorem push_covers {acc : Array Token} (h : ∀ t ∈ acc, Covers file base before t) {k : TokenKind} {inside : List Char}
    (full : inside ≠ []) (spells : k.Spells inside) :
    ∀ t ∈ push acc ⟨k, spanBehind file base before inside⟩, Covers file base (before ++ inside) t := by
  have token (k : TokenKind) (spells : k.Spells inside) :
      Covers file base (before ++ inside) ⟨k, spanBehind file base before inside⟩ :=
    ⟨before, inside, [], by simp, rfl, spells, fun empty => absurd empty full⟩
  rcases push_cases acc ⟨k, spanBehind file base before inside⟩ with ⟨done, x, y, span, rfl, -, pushed⟩ | ⟨pushed, -⟩
  · rw [pushed]
    intro t mem
    rcases Array.mem_push.mp mem with old | rfl
    · exact (h t (Array.mem_push_of_mem _ old)).append inside
    · obtain ⟨before₁, inside₁, gap, rfl, same, -, -⟩ := h _ (Array.mem_push_self ..)
      obtain rfl : span = spanBehind file base before₁ inside₁ := same
      by_cases missing : file = Span.noFile
      · -- of two spans in the missing file the second one is left
        have merged : (spanBehind file base before₁ inside₁).merge
            (spanBehind file base (before₁ ++ inside₁ ++ gap) inside) =
              spanBehind file base (before₁ ++ inside₁ ++ gap) inside := if_pos (by simp [Span.isNone, spanBehind, missing])
        rw [merged]
        exact token _ True.intro
      · rw [merge_spanBehind missing]
        exact ⟨before₁, inside₁ ++ gap ++ inside, [], by simp, rfl, True.intro, by simp [full]⟩
  · rw [pushed]
    intro t mem
    rcases Array.mem_push.mp mem with old | rfl
    · exact (h t old).append inside
    · exact token k spells

theorem tokensFrom_covers {p : Place} {s : List Char} {acc tokens : Array Token} (h : ∀ t ∈ acc, Covers file base before t)
    (place : p.Behind before) (read : tokensFrom file base acc p s = .ok tokens) :
    ∀ t ∈ tokens, Covers file base (before ++ s) t := by
  fun_induction tokensFrom file base acc p s generalizing before with
  | case1 acc p =>
    cases read
    intro t mem
    rw [List.append_nil]
    rcases Array.mem_push.mp mem with old | rfl
    · exact h t old
    · exact ⟨before, [], [], by simp, place.spanTo (by simpa using place) file base, rfl, fun _ => rfl⟩
  | case2 => cases read
  | case3 acc p c r n q found =>
    rename_i ih
    have rest := ih (fun t mem => (h t mem).append (c :: r.take n)) (place.advance _) read
    simpa using rest
  | case4 acc p c r n q k found =>
    rename_i ih
    rcases scan_reads found with ⟨same, -⟩ | ⟨k, same, spells⟩
    · cases same
    · cases same
      have next : q.Behind (before ++ (c :: r.take n)) := place.advance _
      rw [place.spanTo next] at read ih
      have rest := ih (push_covers h (List.cons_ne_nil c _) spells) ⟨next.offset, next.line, next.col⟩ read
      simpa using rest

/-- Each token's span covers the characters of the text that the token was read from. -/
theorem tokenize_covers {text : String} {tokens : Array Token} (h : tokenize text file base = .ok tokens) :
    ∀ t ∈ tokens, Covers file base text.toList t :=
  tokensFrom_covers (by simp) Place.behind_nil h

/-! ## Dividing the text -/

/-- Behind `before`, the tokens account for the text: each is spelled by the characters that its span covers,
between them stands trivia, and the last one marks the end. -/
inductive Accounts (file base : Nat) : List Char → List Char → List Token → Prop where
  | eof {before gap : List Char} : Trivia [] gap →
      Accounts file base before gap [⟨.eof, spanBehind file base (before ++ gap) []⟩]
  | token {before gap inside rest : List Char} {k : TokenKind} {ts : List Token} : Trivia (inside ++ rest) gap →
      inside ≠ [] → k.Spells inside → Accounts file base (before ++ gap ++ inside) rest ts →
      Accounts file base before (gap ++ (inside ++ rest)) (⟨k, spanBehind file base (before ++ gap) inside⟩ :: ts)

variable {rest : List Char} {ts : List Token}

theorem Accounts.skip {gap : List Char} (h : Accounts file base (before ++ gap) rest ts) (trivia : Trivia rest gap) :
    Accounts file base before (gap ++ rest) ts := by
  cases h with
  | eof more =>
    rw [List.append_assoc]
    exact .eof (Trivia.append (by simpa using trivia) more)
  | @token _ more inside rest k ts between full spells others =>
    rw [← List.append_assoc, List.append_assoc before]
    refine .token (trivia.append between) full spells ?_
    rwa [← List.append_assoc before]

/-- The lexer has read `before ++ read`, and `rest` is left. The tokens in `done` are settled and account for
`before`; a string literal behind them may still be joined by another one. -/
inductive Pending (file base : Nat) (rest : List Char) : Array Token → Array Token → List Char → List Char → Prop where
  | nothing {acc : Array Token} {before gap : List Char} : (∀ t ∈ acc.back?, ∀ x, t.kind ≠ .str x) →
      Trivia rest gap → Pending file base rest acc acc before gap
  | str {done : Array Token} {before inside gap : List Char} {x : String} : inside ≠ [] → Trivia rest gap →
      Pending file base rest (done.push ⟨.str x, spanBehind file base before inside⟩) done before (inside ++ gap)

namespace Pending

variable {acc done : Array Token} {read inside : List Char}

theorem trivia {gap : List Char} (h : Pending file base (gap ++ rest) acc done before read) (more : Trivia rest gap) :
    Pending file base rest acc done before (read ++ gap) := by
  cases h with
  | nothing solid gap => exact .nothing solid (gap.append more)
  | str full gap =>
    rw [List.append_assoc]
    exact .str full (gap.append more)

/-- If no string literal follows, all tokens are settled. -/
theorem settle (h : Pending file base rest acc done before read) (others : Accounts file base (before ++ read) rest ts) :
    ∃ ts', acc.toList ++ ts = done.toList ++ ts' ∧ Accounts file base before (read ++ rest) ts' := by
  cases h with
  | nothing solid gap => exact ⟨ts, rfl, others.skip gap⟩
  | @str done before inside gap x full trivia =>
    rw [← List.append_assoc] at others
    have first : Accounts file base before ([] ++ (inside ++ (gap ++ rest))) (⟨.str x, _⟩ :: ts) :=
      .token .nil full True.intro (by simpa using others.skip trivia)
    rw [List.append_nil] at first
    exact ⟨⟨.str x, spanBehind file base before inside⟩ :: ts, by simp, by simpa using first⟩

/-- One token more. What accounts for the rest of the text then makes up what accounts for all of it. -/
theorem token (h : Pending file base (inside ++ rest) acc done before read) (real : file ≠ Span.noFile) {k : TokenKind}
    (full : inside ≠ []) (spells : k.Spells inside) :
    ∃ done' before' read', before' ++ read' = before ++ read ++ inside ∧
      Pending file base rest (push acc ⟨k, spanBehind file base (before ++ read) inside⟩) done' before' read' ∧
      ∀ ts, Accounts file base before' (read' ++ rest) ts →
        ∃ ts', done'.toList ++ ts = done.toList ++ ts' ∧ Accounts file base before (read ++ (inside ++ rest)) ts' := by
  have settled (ts : List Token) (others : Accounts file base (before ++ read) (inside ++ rest) ts) :=
    h.settle others
  rcases push_cases acc ⟨k, spanBehind file base (before ++ read) inside⟩ with
    ⟨done₁, x, y, span, same, isStr, pushed⟩ | ⟨pushed, apart⟩
  · -- the token lengthens the string literal in front of it
    rw [pushed]
    cases h with
    | nothing solid =>
      rw [same] at solid
      exact absurd rfl (solid _ (Array.back?_push ..) x)
    | @str _ _ inside₁ gap x₁ full₁ trivia =>
      obtain ⟨token, rfl⟩ := Array.push_eq_push.mp same
      cases token
      refine ⟨done, before, inside₁ ++ gap ++ inside ++ [], by simp, ?_, fun ts others => ⟨ts, rfl, by simpa using others⟩⟩
      rw [← List.append_assoc before, merge_spanBehind real]
      exact .str (by simp [full]) .nil
  · rw [pushed]
    cases k with
    | str y =>
      refine ⟨acc, before ++ read, inside ++ [], by simp, .str full .nil, fun ts others => settled ts ?_⟩
      simpa using others
    | _ =>
      refine ⟨_, before ++ read ++ inside, [], by simp, .nothing (by simp) .nil, fun ts others => ?_⟩
      have first : Accounts file base (before ++ read) ([] ++ (inside ++ rest)) (_ :: ts) :=
        .token .nil full spells (by simpa using others)
      obtain ⟨ts', all, accounts⟩ := settled _ first
      exact ⟨ts', by simpa using all, accounts⟩

end Pending

variable {p : Place} {s : List Char} {acc tokens : Array Token}

/-- What the lexer reads in one step is trivia or a token, and the rest of the text lies behind it. -/
theorem tokensFrom_pending (real : file ≠ Span.noFile) {done : Array Token} {read : List Char}
    (pending : Pending file base s acc done before read) (place : p.Behind (before ++ read))
    (h : tokensFrom file base acc p s = .ok tokens) :
    ∃ ts, tokens.toList = done.toList ++ ts ∧ Accounts file base before (read ++ s) ts := by
  fun_induction tokensFrom file base acc p s generalizing done before read with
  | case1 acc p =>
    cases h
    have eof : Accounts file base (before ++ read) ([] : List Char)
        [⟨.eof, spanBehind file base (before ++ read ++ []) []⟩] := .eof .nil
    obtain ⟨ts, same, accounts⟩ := pending.settle eof
    rw [place.spanTo (show p.Behind (before ++ read ++ []) by simpa using place)]
    exact ⟨ts, by simpa using same, accounts⟩
  | case2 => cases h
  | case3 acc p c r n q found =>
    rename_i ih
    rcases scan_reads found with ⟨-, trivia⟩ | ⟨k, same, -⟩
    · have text : c :: r = c :: r.take n ++ r.drop n := by simp
      rw [text] at pending ⊢
      rw [← List.append_assoc]
      exact ih (pending.trivia trivia) (by simpa using place.advance (c :: r.take n)) h
    · cases same
  | case4 acc p c r n q k found =>
    rename_i ih
    rcases scan_reads found with ⟨same, -⟩ | ⟨k, same, spells⟩
    · cases same
    · cases same
      have text : c :: r = c :: r.take n ++ r.drop n := by simp
      have next : q.Behind (before ++ read ++ (c :: r.take n)) := place.advance _
      rw [text] at pending ⊢
      rw [place.spanTo next] at h ih
      obtain ⟨done', before', read', whole, pending, closes⟩ := pending.token real (List.cons_ne_nil c _) spells
      obtain ⟨ts, all, accounts⟩ := ih pending (by rw [whole]; exact ⟨next.offset, next.line, next.col⟩) h
      obtain ⟨ts', same, accounts⟩ := closes ts accounts
      exact ⟨ts', all.trans same, accounts⟩

/-! ## What the spans say -/

theorem byteSize_pos {cs : List Char} (full : cs ≠ []) : 0 < byteSize cs := by
  obtain ⟨c, cs, rfl⟩ := List.exists_cons_of_ne_nil full
  have first := Char.utf8Size_pos c
  rw [← List.singleton_append, byteSize_append, byteSize_singleton]
  omega

namespace Accounts

theorem start_le (h : Accounts file base before rest ts) : ∀ t ∈ ts, base + byteSize before ≤ t.span.start := by
  induction h with
  | eof _ =>
    intro t mem
    obtain rfl := List.mem_singleton.mp mem
    simp only [spanBehind, byteSize_append]
    omega
  | token _ _ _ _ ih =>
    intro t mem
    rcases List.mem_cons.mp mem with rfl | later
    · simp only [spanBehind, byteSize_append]
      omega
    · have behind := ih t later
      simp only [byteSize_append] at behind
      omega

theorem ordered (h : Accounts file base before rest ts) :
    ts.Pairwise fun t u => t.span.start < t.span.stop ∧ t.span.stop ≤ u.span.start := by
  induction h with
  | eof _ => exact List.pairwise_singleton ..
  | token _ full _ others ih =>
    refine .cons (fun u later => ?_) ih
    have behind := others.start_le u later
    have size := byteSize_pos full
    simp only [spanBehind, byteSize_append] at behind ⊢
    omega

theorem ends (h : Accounts file base before rest ts) :
    ∃ us, ts = us ++ [⟨.eof, spanBehind file base (before ++ rest) []⟩] ∧ ∀ t ∈ us, t.kind ≠ .eof := by
  induction h with
  | eof _ => exact ⟨[], rfl, by simp⟩
  | @token before gap inside rest k ts _ full spells _ ih =>
    obtain ⟨us, rfl, inner⟩ := ih
    refine ⟨⟨k, spanBehind file base (before ++ gap) inside⟩ :: us, by simp, fun t mem => ?_⟩
    rcases List.mem_cons.mp mem with rfl | later
    · rintro rfl
      exact full spells
    · exact inner t later

end Accounts

/-- The positions of the tokens account for the whole text. -/
structure Positioned (text : String) (file base : Nat) (tokens : List Token) : Prop where
  /-- The text falls into the tokens and the trivia in front of, between and behind them. -/
  accounts : Accounts file base [] text.toList tokens
  covers : ∀ t ∈ tokens, Covers file base text.toList t
  range : ∀ t ∈ tokens, base ≤ t.span.start ∧ t.span.start ≤ t.span.stop ∧ t.span.stop ≤ base + text.utf8ByteSize
  ordered : tokens.Pairwise fun t u => t.span.start < t.span.stop ∧ t.span.stop ≤ u.span.start
  /-- The last token, and no other, is the end mark, with an empty span at the end of the text. -/
  ends : ∃ us, tokens = us ++ [⟨.eof, spanBehind file base text.toList []⟩] ∧ ∀ t ∈ us, t.kind ≠ .eof

end Lexer

open Lexer in
/-- Whatever text the lexer reads, its tokens and the trivia between them make up the text. The number of the file that
missing spans carry is left out, since a string literal of that file would not be joined in its span. -/
theorem tokenize_positioned {text : String} {file base : Nat} (real : file ≠ Span.noFile) {tokens : Array Token}
    (h : tokenize text file base = .ok tokens) : Positioned text file base tokens.toList := by
  have nothing : Pending file base text.toList #[] #[] [] [] := .nothing (by simp) .nil
  obtain ⟨ts, same, accounts⟩ := tokensFrom_pending real nothing Place.behind_nil h
  obtain rfl : tokens.toList = ts := same
  refine ⟨accounts, fun t mem => tokenize_covers h t (Array.mem_toList_iff.mp mem), fun t mem => ?_, accounts.ordered,
    accounts.ends⟩
  have range := (tokenize_covers h t (Array.mem_toList_iff.mp mem)).range
  simpa [byteSize] using range

open Lexer in
theorem tokenize_positioned_declaration : 3 ≠ Span.noFile ∧ ∃ tokens,
    tokenize "x /* é */ = \"a\"\n  \"b\"; // end" 3 7 = .ok tokens ∧
      Positioned "x /* é */ = \"a\"\n  \"b\"; // end" 3 7 tokens.toList ∧
      tokens.toList.map (·.span.start) = [7, 18, 20, 29, 37] := by
  have real : 3 ≠ Span.noFile := by decide
  have starts : (tokenize "x /* é */ = \"a\"\n  \"b\"; // end" 3 7).toOption.map (·.toList.map (·.span.start)) =
      some [7, 18, 20, 29, 37] := by decide +kernel
  cases lexed : tokenize "x /* é */ = \"a\"\n  \"b\"; // end" 3 7 with
  | error e =>
    rw [lexed] at starts
    cases starts
  | ok tokens =>
    rw [lexed] at starts
    exact ⟨real, tokens, rfl, tokenize_positioned real lexed, Option.some.inj starts⟩

open Lexer in
/-- The second spelling of a keyword is not the one that messages name it by. In the file of missing spans a string
literal in front of another one is lost between the spans. -/
theorem positions_of_other_spelling_and_missing_file :
    ((tokenize "NULL" 0 0).toOption.map (·.toList) =
        some [⟨.keyword .nullptr, spanBehind 0 0 [] "NULL".toList⟩, ⟨.eof, spanBehind 0 0 "NULL".toList []⟩] ∧
      "NULL" ≠ Keyword.nullptr.spelling) ∧
    ((tokenize "\"a\" \"b\"" Span.noFile 0).toOption.map (·.toList) =
        some [⟨.str "ab", spanBehind Span.noFile 0 "\"a\" ".toList "\"b\"".toList⟩,
          ⟨.eof, spanBehind Span.noFile 0 "\"a\" \"b\"".toList []⟩] ∧
      ∀ rest, ¬Trivia rest "\"a\" ".toList) := by
  refine ⟨⟨by decide +kernel, by decide⟩, by decide +kernel, fun rest trivia => ?_⟩
  have text : "\"a\" ".toList = '"' :: ['a', '"', ' '] := rfl
  rw [text] at trivia
  cases trivia with
  | blank white _ => exact absurd white (by decide)

end IncrementalC
