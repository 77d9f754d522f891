import IncrementalC.Proofs.Token.Word
import IncrementalC.Text.Literal
import IncrementalC.Typed.Printer
import Mathlib.Data.List.Basic

/-!
# Printed literals are read back

What the printer writes for a number, a character or a string is what the lexer reads as one, whatever stands
behind it that does not go on with a number (`scanNumber_eq`, `scanString_eq`, `scanChar_eq`).
-/
namespace IncrementalC
set_option autoImplicit false
open Text

/-! ## Numbers -/

namespace Text

theorem numeralValue_toDigits {b : Nat} (hb : 1 < b) (hb' : b ≤ 10) (n : Nat) :
    numeralValue b Lexer.hexValue (Nat.toDigits b n) = n := by
  have digit (c : Char) (mem : c ∈ Nat.toDigits b n) : Lexer.hexValue c = c.toNat - '0'.toNat := by
    unfold Lexer.hexValue
    rw [if_pos (Nat.isDigit_of_mem_toDigits (by omega) hb' mem)]
  have value : (Nat.toDigits b n).foldl (fun v c => b * v + Lexer.hexValue c) 0 = Nat.ofDigitChars b (Nat.toDigits b n) 0 := by
    rw [Nat.ofDigitChars_eq_foldl]
    exact List.foldl_ext _ _ _ fun v c mem => by rw [digit c mem]
  rw [numeralValue_eq_foldl, value, Nat.ofDigitChars_toDigits hb hb']

theorem toDigits_head {n : Nat} (positive : 0 < n) : ∀ c ∈ (Nat.toDigits 10 n).head?, c ≠ '0' := by
  induction n using Nat.strongRecOn with
  | ind n ih =>
    by_cases small : n < 10
    · rw [Nat.toDigits_of_lt_base small]
      intro c same
      cases same
      have all : ∀ k < 10, 0 < k → k.digitChar ≠ '0' := by decide
      exact all n small positive
    · rw [Nat.toDigits_of_base_le (by decide) (by omega)]
      intro c same
      obtain ⟨d, ds, digits⟩ := List.exists_cons_of_ne_nil (Nat.toDigits_ne_nil (n := n / 10) (b := 10))
      rw [digits] at same
      cases same
      exact ih (n / 10) (by omega) (by omega) c (by rw [digits]; rfl)

end Text

namespace Lexer

theorem digitsIn?_toDigits {n : Nat} (small : n < UInt64.size) :
    digitsIn? 10 Char.isDigit (Nat.toDigits 10 n) = some n := by
  have digits : (Nat.toDigits 10 n).all Char.isDigit :=
    List.all_eq_true.mpr fun _ mem => Nat.isDigit_of_mem_toDigits (by decide) (by decide) mem
  unfold digitsIn?
  rw [digits, List.isEmpty_eq_false_iff.mpr Nat.toDigits_ne_nil]
  simp [numeralValue_toDigits, small]

theorem integerValue?_toDigits {n : Nat} (small : n < UInt64.size) :
    integerValue? false (Nat.toDigits 10 n) = some n := by
  have value := digitsIn?_toDigits small
  unfold integerValue?
  rw [if_neg (by decide)]
  split
  · rename_i d ds digits
    -- a leading zero stands alone
    obtain rfl | positive := Nat.eq_zero_or_pos n
    · cases digits
    · exact (toDigits_head positive '0' (by rw [digits]; rfl) rfl).elim
  · exact value

/-- What ends a numeral. -/
def endsNumber (c : Char) : Bool := !c.isAlpha && !c.isDigit && c != '.' && c != '\''

theorem decimalChars_digits {last : Char} {ds r : List Char} (digits : ∀ c ∈ ds, c.isDigit)
    (notMark : last ≠ 'e' ∧ last ≠ 'E')
    (stops : ∀ c ∈ r.head?, !c.isDigit && c != '.' && c != 'e' && c != 'E' && c != '\'') :
    decimalChars last (ds ++ r) = (ds, ds.length) := by
  induction ds generalizing last with
  | nil =>
    cases r with
    | nil => rfl
    | cons c r =>
      have stop := stops c rfl
      simp only [Bool.and_eq_true, Bool.not_eq_true', bne_iff_ne, ne_eq] at stop
      obtain ⟨⟨⟨⟨digit, point⟩, low⟩, high⟩, mark⟩ := stop
      rw [List.nil_append, decimalChars]
      simp [digit, point, low, high, mark, notMark]
  | cons d ds ih =>
    obtain ⟨first, rest⟩ := List.forall_mem_cons.mp digits
    have next : d ≠ 'e' ∧ d ≠ 'E' := by
      refine ⟨?_, ?_⟩ <;> rintro rfl <;> cases first
    rw [List.cons_append, decimalChars]
    simp [first, ih rest next]

theorem isAlpha_suffix (s : IntSuffix) : ∀ c ∈ (Typed.suffixText s).toList, c.isAlpha := by
  refine List.all_eq_true.mp ?_
  cases s <;> decide

/-- What cannot belong to the digits of a numeral, nor to its mark. -/
def endsDigits (c : Char) : Bool := !c.isDigit && c != '.' && c != 'e' && c != 'E' && c != '\'' && c != 'x' && c != 'X'

theorem endsDigits_of_endsNumber {c : Char} (h : endsNumber c) : endsDigits c := by
  unfold endsNumber at h
  simp only [Bool.and_eq_true, Bool.not_eq_true', bne_iff_ne, ne_eq] at h
  obtain ⟨⟨⟨alpha, digit⟩, point⟩, mark⟩ := h
  have letter {d : Char} (isLetter : d.isAlpha) : c ≠ d := by
    rintro rfl
    rw [alpha] at isLetter
    cases isLetter
  simp [endsDigits, digit, point, mark, letter (d := 'e') rfl, letter (d := 'E') rfl, letter (d := 'x') rfl,
    letter (d := 'X') rfl]

variable {v : Nat} {s : IntSuffix} {r : List Char}

theorem endsDigits_suffix (stops : ∀ c ∈ r.head?, endsNumber c) :
    ∀ c ∈ ((Typed.suffixText s).toList ++ r).head?, endsDigits c := by
  intro c mem
  cases s with
  | none => exact endsDigits_of_endsNumber (stops c mem)
  | _ =>
    cases mem
    rfl

theorem isHexNumeral_digits (follow : ∀ c ∈ r.head?, endsDigits c) :
    isHexNumeral (Nat.toDigits 10 v ++ r) = false := by
  have digits : ∀ c ∈ Nat.toDigits 10 v, c.isDigit := fun _ mem => Nat.isDigit_of_mem_toDigits (by decide) (by decide) mem
  obtain ⟨d, ds, text⟩ := List.exists_cons_of_ne_nil (Nat.toDigits_ne_nil (n := v) (b := 10))
  rw [text] at digits ⊢
  unfold isHexNumeral
  split
  · rename_i same
    cases ds with
    | nil =>
      cases same
      cases follow 'x' rfl
    | cons c ds =>
      cases same
      cases digits 'x' (by simp)
  · rename_i same
    cases ds with
    | nil =>
      cases same
      cases follow 'X' rfl
    | cons c ds =>
      cases same
      cases digits 'X' (by simp)
  · rfl

theorem numberKind?_digits (small : v < UInt64.size) :
    numberKind? false (Nat.toDigits 10 v) (String.ofList ((Typed.suffixText s).toList.map Char.toLower)) =
      some (.int v s) := by
  have plain : ((Nat.toDigits 10 v).any fun c => c == '.' || c == 'e' || c == 'E') = false := by
    refine List.any_eq_false.mpr fun c mem => ?_
    have digit : c.isDigit := Nat.isDigit_of_mem_toDigits (by decide) (by decide) mem
    have other {d : Char} (notDigit : d.isDigit = false) : c ≠ d := by
      rintro rfl
      rw [notDigit] at digit
      cases digit
    simp [other (d := '.') rfl, other (d := 'e') rfl, other (d := 'E') rfl]
  have suffix : intSuffix? (String.ofList ((Typed.suffixText s).toList.map Char.toLower)) = some s := by
    cases s <;> decide
  unfold numberKind?
  rw [plain, integerValue?_toDigits small, suffix]
  rfl

theorem scanNumber_eq (small : v < UInt64.size) (stops : ∀ c ∈ r.head?, endsNumber c) :
    scanNumber (Nat.toDigits 10 v ++ ((Typed.suffixText s).toList ++ r)) =
      .ok (some (.int v s), (Nat.toDigits 10 v).length + (Typed.suffixText s).toList.length - 1) := by
  have digits : ∀ c ∈ Nat.toDigits 10 v, c.isDigit := fun _ mem => Nat.isDigit_of_mem_toDigits (by decide) (by decide) mem
  have follow : ∀ c ∈ ((Typed.suffixText s).toList ++ r).head?, endsDigits c := endsDigits_suffix stops
  have notHex := isHexNumeral_digits (v := v) follow
  have numeral : numeralChars (Nat.toDigits 10 v ++ ((Typed.suffixText s).toList ++ r)) =
      (Nat.toDigits 10 v, (Nat.toDigits 10 v).length) := by
    unfold numeralChars
    rw [notHex]
    refine decimalChars_digits digits (by decide) fun c mem => ?_
    have ends := follow c mem
    unfold endsDigits at ends
    simp only [Bool.and_eq_true] at ends ⊢
    exact ends.1.1
  have letters : ((Typed.suffixText s).toList ++ r).takeWhile Char.isAlpha = (Typed.suffixText s).toList := by
    rw [List.takeWhile_append_of_pos (isAlpha_suffix s)]
    cases r with
    | nil => simp
    | cons c r =>
      have stop : c.isAlpha = false := by
        have ends := stops c rfl
        unfold endsNumber at ends
        simp only [Bool.and_eq_true, Bool.not_eq_true'] at ends
        exact ends.1.1.1
      rw [List.takeWhile_cons, stop]
      simp
  unfold scanNumber
  rw [numeral]
  dsimp only
  rw [List.drop_left, letters, notHex, numberKind?_digits small]

/-! ## Strings and characters -/

/-- Three octal digits behind the backslash write the number. -/
def writesOctal (n : Nat) : List Char → Bool
  | ['\\', a, b, c] =>
    isOctalDigit a && isOctalDigit b && isOctalDigit c && 8 * (8 * hexValue a + hexValue b) + hexValue c == n
  | _ => false

theorem writesOctal_octalEscape : ∀ n < 256, writesOctal n (octalEscape n) := by decide +kernel

theorem scanEscape_octal {n : Nat} (small : n < 256) : ∃ es, octalEscape n = '\\' :: es ∧
    ∀ i r, scanEscape i (es ++ r) = .ok (Char.ofNat n, es.length) := by
  have writes := writesOctal_octalEscape n small
  unfold writesOctal at writes
  split at writes
  · rename_i a b c text
    simp only [Bool.and_eq_true, beq_iff_eq] at writes
    obtain ⟨⟨⟨ha, hb⟩, hc⟩, value⟩ := writes
    refine ⟨[a, b, c], text, fun i r => ?_⟩
    have plain : a ≠ 'n' ∧ a ≠ 't' ∧ a ≠ 'r' ∧ a ≠ 'a' ∧ a ≠ 'b' ∧ a ≠ 'f' ∧ a ≠ 'v' ∧ a ≠ 'x' := by
      refine ⟨?_, ?_, ?_, ?_, ?_, ?_, ?_, ?_⟩ <;> rintro rfl <;> cases ha
    simp [scanEscape, plain, ha, hb, hc, value]
  · cases writes

/-- A character in a literal stands for itself or is escaped. -/
theorem escape_cases {quote : Char} (isQuote : quote = '"' ∨ quote = '\'') (c : Char) :
    (escape quote c = [c] ∧ c ≠ '\n' ∧ c ≠ '\\' ∧ c ≠ quote) ∨
      ∃ es, escape quote c = '\\' :: es ∧ ∀ i r, scanEscape i (es ++ r) = .ok (c, es.length) := by
  unfold escape
  split
  · rename_i same
    subst same
    exact .inr ⟨_, rfl, fun _ _ => rfl⟩
  split
  · rename_i same
    subst same
    exact .inr ⟨_, rfl, fun _ _ => rfl⟩
  split
  · rename_i same
    subst same
    exact .inr ⟨_, rfl, fun _ _ => rfl⟩
  split
  · rename_i same
    subst same
    exact .inr ⟨_, rfl, fun _ _ => rfl⟩
  split
  · rename_i same
    subst same
    obtain rfl | rfl := isQuote <;> exact .inr ⟨_, rfl, fun _ _ => rfl⟩
  split
  · rename_i control
    obtain ⟨es, text, reads⟩ := scanEscape_octal (n := c.toNat) (by omega)
    rw [Char.ofNat_toNat] at reads
    exact .inr ⟨es, text, reads⟩
  · exact .inl ⟨rfl, ‹_›, ‹_›, ‹_›⟩

theorem scanStringFrom_skip (i : Nat) (acc xs r : List Char) :
    scanStringFrom i xs.length acc (xs ++ r) = scanStringFrom (i + xs.length) 0 acc r := by
  induction xs generalizing i with
  | nil => rfl
  | cons x xs ih =>
    rw [List.cons_append, List.length_cons, scanStringFrom]
    rw [ih, Nat.add_right_comm, Nat.add_assoc]

theorem scanStringFrom_escaped {i : Nat} {acc cs r : List Char} :
    scanStringFrom i 0 acc (cs.flatMap (escape '"') ++ '"' :: r) =
      .ok (String.ofList (acc.reverse ++ cs), i + (cs.flatMap (escape '"')).length + 1) := by
  induction cs generalizing i acc with
  | nil =>
    rw [List.flatMap_nil, List.nil_append, scanStringFrom]
    simp
  | cons c cs ih =>
    rw [List.flatMap_cons, List.append_assoc]
    obtain ⟨text, line, back, quote⟩ | ⟨es, text, reads⟩ := escape_cases (.inl rfl) c
    · rw [text, List.singleton_append, scanStringFrom]
      simp [line, back, quote, ih]
      omega
    · rw [text, List.cons_append, scanStringFrom]
      simp [reads, scanStringFrom_skip, ih]
      omega

theorem scanString_eq (text : String) (r : List Char) :
    scanString (text.toList.flatMap (escape '"') ++ '"' :: r) =
      .ok (some (.str text), (text.toList.flatMap (escape '"')).length + 1) := by
  unfold scanString
  rw [scanStringFrom_escaped]
  show Except.ok _ = _
  simp
  omega

/-- The inside of a character literal. -/
def charInside (code : Nat) : List Char :=
  if code < 0x80 then escape '\'' (Char.ofNat code) else octalEscape code

theorem charLiteral_eq {code : Nat} (small : code < 256) :
    (charLiteral (Int64.ofNat code)).toList = '\'' :: (charInside code ++ ['\'']) := by
  have byte : ((Int64.ofNat code).toUInt64 &&& 0xFF).toNat = code := by
    have low : ∀ n < 256, ((Int64.ofNat n).toUInt64 &&& 0xFF).toNat = n := by decide +kernel
    exact low code small
  unfold charLiteral charInside
  rw [String.toList_ofList, byte]

theorem scanCharInside_eq {code : Nat} (small : code < 256) (r : List Char) :
    scanCharInside (charInside code ++ '\'' :: r) = .ok (Char.ofNat code, (charInside code).length) := by
  have escaped {es : List Char} (reads : ∀ i r, scanEscape i (es ++ r) = .ok (Char.ofNat code, es.length)) :
      scanCharInside ('\\' :: es ++ '\'' :: r) = .ok (Char.ofNat code, ('\\' :: es).length) := by
    show (do
      let read ← scanEscape 2 (es ++ '\'' :: r)
      return (read.1, read.2 + 1) : Except ScanFault (Char × Nat)) = _
    rw [reads]
    rfl
  unfold charInside
  split
  · obtain ⟨text, line, back, quote⟩ | ⟨es, text, reads⟩ := escape_cases (.inr rfl) (Char.ofNat code)
    · rw [text, List.singleton_append]
      unfold scanCharInside
      split <;> simp_all
    · rw [text]
      exact escaped reads
  · obtain ⟨es, text, reads⟩ := scanEscape_octal small
    rw [text]
    exact escaped reads

theorem scanChar_eq {code : Nat} (small : code < 256) (r : List Char) :
    scanChar (charInside code ++ '\'' :: r) = .ok (some (.char code), (charInside code).length + 1) := by
  have value : (Char.ofNat code).toNat = code := by
    have low : ∀ n < 256, (Char.ofNat n).toNat = n := by decide +kernel
    exact low code small
  unfold scanChar
  rw [scanCharInside_eq small]
  simp only [bind, Except.bind]
  rw [List.drop_left, value]
  rfl

end Lexer

end IncrementalC
