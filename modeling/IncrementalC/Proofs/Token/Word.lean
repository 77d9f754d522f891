import IncrementalC.Token.Lexer

/-!
# What tokens carry

Identifiers are words and numbers fit 64 bits. `tokenize_written` says so of every token that the
lexer yields; the parser and the analysis hand these facts on.
-/
namespace IncrementalC
set_option autoImplicit false
open Text

/-- The characters of a name: a letter or an underscore, then letters, numerals and underscores. -/
def IsName (s : List Char) : Prop :=
  ∃ c r, s = c :: r ∧ (isLetter c || c == '_') ∧ (c :: r).all isWordChar

/-- A name that is no keyword. -/
structure IsWord (w : String) : Prop where
  name : IsName w.toList
  free : Keyword.ofWord? w = none

/-- What the lexer promises of a token. -/
def TokenKind.Written : TokenKind → Prop
  | .ident name => IsWord name
  | .int value _ => value < UInt64.size
  | _ => True

namespace Lexer

/-! ## Comments -/

/-- A block comment reaches to the first closing mark. -/
theorem take_of_commentLength? {s : List Char} {n : Nat} (h : commentLength? s = some n) :
    ∃ body, s.take n = body ++ ['*', '/'] ∧ ¬['*', '/'] <:+: body := by
  fun_induction commentLength? s generalizing n with
  | case1 r =>
    cases h
    exact ⟨[], rfl, by simp⟩
  | case2 c r unclosed ih =>
    obtain ⟨m, inner, rfl⟩ := Option.map_eq_some_iff.mp h
    obtain ⟨body, same, free⟩ := ih inner
    refine ⟨c :: body, by simp [same], fun closed => ?_⟩
    rcases List.infix_cons_iff.mp closed with ⟨tail, first⟩ | later
    · obtain ⟨rfl, second⟩ := List.cons.inj first
      have slash : r.take m = '/' :: (tail ++ ['*', '/']) := by
        rw [same, ← second]
        rfl
      have split := List.take_append_drop m r
      rw [slash] at split
      exact unclosed _ rfl split.symm
    · exact free later
  | case3 => cases h

/-! ## One lexeme -/

theorem bind_ok {ε α β : Type} {m : Except ε α} {f : α → Except ε β} {y : β}
    (h : (m >>= f) = .ok y) : ∃ x, m = .ok x ∧ f x = .ok y := by
  cases m with
  | error e => cases h
  | ok x => exact ⟨x, rfl, h⟩

theorem scanWord_written {c : Char} {r : List Char} (hc : isLetter c || c == '_') :
    ∀ k, (scanWord (c :: r)).1 = some k → k.Written := by
  intro k hk
  have hword : isWordChar c := by
    unfold isWordChar
    cases h : isLetter c
    · rw [h, Bool.false_or] at hc
      rw [hc, Bool.or_true]
    · rfl
  have hname : IsName ((c :: r).takeWhile isWordChar) := by
    rw [List.takeWhile_cons, if_pos hword]
    refine ⟨c, r.takeWhile isWordChar, rfl, hc, ?_⟩
    rw [List.all_cons, hword, Bool.true_and]
    exact List.all_takeWhile
  replace hk : some ((Keyword.ofWord? (String.ofList ((c :: r).takeWhile isWordChar))).elim
      (.ident (String.ofList ((c :: r).takeWhile isWordChar))) .keyword) = some k := hk
  cases hkey : Keyword.ofWord? (String.ofList ((c :: r).takeWhile isWordChar)) with
  | some key =>
    rw [hkey] at hk
    cases hk
    trivial
  | none =>
    rw [hkey] at hk
    cases hk
    refine ⟨?_, hkey⟩
    rw [String.toList_ofList]
    exact hname

theorem digitsIn?_lt {base : Nat} {isDigit : Char → Bool} {ds : List Char} {v : Nat}
    (h : digitsIn? base isDigit ds = some v) : v < UInt64.size := by
  unfold digitsIn? at h
  split at h
  · cases h
  · dsimp only at h
    split at h
    · rename_i small
      cases h
      exact small
    · cases h

theorem integerValue?_lt {isHex : Bool} {text : List Char} {v : Nat}
    (h : integerValue? isHex text = some v) : v < UInt64.size := by
  unfold integerValue? at h
  split at h
  · exact digitsIn?_lt h
  · split at h
    · exact digitsIn?_lt h
    · exact digitsIn?_lt h

theorem scanNumber_written {s : List Char} {k : TokenKind} {n : Nat}
    (h : scanNumber s = .ok (some k, n)) : k.Written := by
  unfold scanNumber at h
  dsimp only at h
  split at h
  · rename_i kind hkind
    cases h
    unfold numberKind? at hkind
    split at hkind
    · obtain ⟨x, -, hkind⟩ := Option.bind_eq_some_iff.mp hkind
      obtain ⟨single, -, hkind⟩ := Option.bind_eq_some_iff.mp hkind
      cases hkind
      trivial
    · obtain ⟨v, hv, hkind⟩ := Option.bind_eq_some_iff.mp hkind
      obtain ⟨suffix, -, hkind⟩ := Option.bind_eq_some_iff.mp hkind
      cases hkind
      exact integerValue?_lt hv
  · cases h

theorem scanString_written {r : List Char} {k : TokenKind} {n : Nat}
    (h : scanString r = .ok (some k, n)) : k.Written := by
  unfold scanString at h
  cases hs : scanStringFrom 1 0 [] r with
  | error e => rw [hs] at h; cases h
  | ok x => rw [hs] at h; cases h; trivial

theorem scanChar_written {r : List Char} {k : TokenKind} {n : Nat}
    (h : scanChar r = .ok (some k, n)) : k.Written := by
  unfold scanChar at h
  obtain ⟨⟨c, m⟩, -, h⟩ := bind_ok h
  dsimp only at h
  split at h
  · cases h
    trivial
  · cases h

theorem scanDirective_written {r : List Char} {k : TokenKind} {n : Nat}
    (h : scanDirective r = .ok (some k, n)) : k.Written := by
  unfold scanDirective at h
  dsimp only at h
  split at h
  · split at h
    · cases h
      trivial
    · cases h
  · cases h
    trivial
  · cases h

theorem scan_written {lineStart : Bool} {c : Char} {r : List Char} {k : TokenKind} {n : Nat}
    (h : scan lineStart c r = .ok (some k, n)) : k.Written := by
  unfold scan at h
  split at h
  · cases h
  split at h
  · cases h
  · cases h
  · split at h <;> cases h
  split at h
  · exact scanDirective_written h
  split at h
  · exact scanNumber_written h
  split at h
  · rename_i hc
    exact scanWord_written hc k (congrArg Prod.fst (Except.ok.inj h))
  split at h
  · exact scanString_written h
  split at h
  · exact scanChar_written h
  split at h
  · cases h
    trivial
  · cases h

/-! ## All tokens -/

theorem push_written {acc : Array Token} {t : Token} (hacc : ∀ t ∈ acc, t.kind.Written)
    (ht : t.kind.Written) : ∀ t' ∈ push acc t, t'.kind.Written := by
  intro t' h
  unfold push at h
  split at h
  · rw [Array.mem_push] at h
    cases h with
    | inl h =>
      refine hacc t' (Array.mem_toList_iff.mp (List.dropLast_subset _ ?_))
      rw [← Array.toList_pop]
      exact Array.mem_toList_iff.mpr h
    | inr h => rw [h]; trivial
  · rw [Array.mem_push] at h
    cases h with
    | inl h => exact hacc t' h
    | inr h => rw [h]; exact ht

theorem tokensFrom_written {file base : Nat} {acc : Array Token} {p : Place} {s : List Char}
    {tokens : Array Token} (hacc : ∀ t ∈ acc, t.kind.Written)
    (h : tokensFrom file base acc p s = .ok tokens) : ∀ t ∈ tokens, t.kind.Written := by
  fun_induction tokensFrom file base acc p s with
  | case1 acc p =>
    cases h
    intro t ht
    rw [Array.mem_push] at ht
    cases ht with
    | inl ht => exact hacc t ht
    | inr ht => rw [ht]; trivial
  | case2 => cases h
  | case3 acc p c r n _ q ih => exact ih hacc h
  | case4 acc p c r n q kind found ih => exact ih (push_written hacc (scan_written found)) h

end Lexer

theorem tokenize_written {text : String} {file base : Nat} {tokens : Array Token}
    (h : tokenize text file base = .ok tokens) : ∀ t ∈ tokens, t.kind.Written :=
  Lexer.tokensFrom_written (fun _ h => absurd h (Array.not_mem_empty _)) h

end IncrementalC
