import IncrementalC.Proofs.Analysis.Sound
import IncrementalC.Proofs.Token.Word
import IncrementalC.Session.Template
import IncrementalC.Text.Literal

/-!
# Substitution, piece by piece

* `marks`: how many addresses a text asks for; with fewer the substitution fails.
* `Filled t as o`: the addresses `as` turn the piece of code `t` into `o`, whatever stands behind it.
  Pieces are put together by `Filled.append`; plain text and literals stay as they are.

Outside of literals the printer writes words, numbers, operators and brackets. None of these holds a mark for an
address or begins a literal (`PlainText`).
-/
namespace IncrementalC
set_option autoImplicit false
/-! ## Scanning -/

variable {p q : TemplatePlace} {t s o : List Char} {as bs : List UInt64}

theorem substituteFrom_cons (p : TemplatePlace) (as : List UInt64) (c : Char) (s : List Char) :
    substituteFrom p as (c :: s) =
      if p = .code ∧ c = '@' then
        match as with
        | [] => .error .tooFew
        | a :: as => ((hexText a).toList ++ ·) <$> substituteFrom .code as s
      else (c :: ·) <$> substituteFrom (p.next c) as s := by
  cases as <;> rfl

/-- The number of addresses that a text asks for. -/
def marks (p : TemplatePlace) : List Char → Nat
  | [] => 0
  | c :: s => if p = .code ∧ c = '@' then marks .code s + 1 else marks (p.next c) s

theorem length_eq_marks (h : substituteFrom p as t = .ok o) : as.length = marks p t := by
  induction t generalizing p as o with
  | nil =>
    cases as with
    | nil => rfl
    | cons a as => cases h
  | cons c t ih =>
    rw [substituteFrom_cons] at h
    unfold marks
    split at h
    · rename_i mark
      rw [if_pos mark]
      cases as with
      | nil => cases h
      | cons a as =>
        dsimp only at h
        cases rest : substituteFrom .code as t with
        | error e => rw [rest] at h; cases h
        | ok o' => rw [List.length_cons, ih rest]
    · rename_i mark
      rw [if_neg mark]
      cases rest : substituteFrom (p.next c) as t with
      | error e => rw [rest] at h; cases h
      | ok o' => exact ih rest

theorem substituteFrom_tooFew (h : as.length < marks p t) : substituteFrom p as t = .error .tooFew := by
  induction t generalizing p as with
  | nil => cases h
  | cons c t ih =>
    rw [substituteFrom_cons]
    unfold marks at h
    split at h
    · rename_i mark
      rw [if_pos mark]
      cases as with
      | nil => rfl
      | cons a as =>
        dsimp only
        rw [ih (Nat.lt_of_succ_lt_succ h)]
        rfl
    · rename_i mark
      rw [if_neg mark, ih h]
      rfl

/-! ## Pieces -/

def Filled (t : List Char) (as : List UInt64) (o : List Char) : Prop :=
  ∀ rest bs, substituteFrom .code (as ++ bs) (t ++ rest) = (o ++ ·) <$> substituteFrom .code bs rest

/-- The text leads from the place `p` to the place `q` and holds no mark. -/
def Passes (p : TemplatePlace) (t : List Char) (q : TemplatePlace) : Prop :=
  ∀ rest bs, substituteFrom p bs (t ++ rest) = (t ++ ·) <$> substituteFrom q bs rest

theorem map_append_map (x : Except SubstitutionFault (List Char)) (o r : List Char) :
    (o ++ ·) <$> ((r ++ ·) <$> x) = ((o ++ r) ++ ·) <$> x := by
  cases x with
  | error e => rfl
  | ok y => exact congrArg Except.ok (List.append_assoc o r y).symm

theorem Passes.append {r : TemplatePlace} (h : Passes p t q) (h' : Passes q s r) :
    Passes p (t ++ s) r := by
  intro rest bs
  rw [List.append_assoc, h, h', map_append_map]

theorem Passes.nil : Passes p [] p := by
  intro rest bs
  rw [List.nil_append]
  cases substituteFrom p bs rest <;> rfl

theorem Passes.char {c : Char} (h : ¬(p = .code ∧ c = '@')) : Passes p [c] (p.next c) := by
  intro rest bs
  rw [List.singleton_append, substituteFrom_cons, if_neg h]
  rfl

theorem Passes.filled (h : Passes .code t .code) : Filled t [] t := h

theorem Filled.append {r : List Char} (h : Filled t as o) (h' : Filled s bs r) :
    Filled (t ++ s) (as ++ bs) (o ++ r) := by
  intro rest cs
  rw [List.append_assoc, List.append_assoc, h, h', map_append_map]

theorem Filled.mark (a : UInt64) : Filled ['@'] [a] (hexText a).toList := by
  intro rest bs
  rw [List.singleton_append, List.singleton_append, substituteFrom_cons, if_pos ⟨rfl, rfl⟩]

theorem Filled.substituteFrom (h : Filled t as o) : substituteFrom .code as t = .ok o := by
  have whole := h [] []
  rw [List.append_nil, List.append_nil] at whole
  rw [whole]
  exact congrArg Except.ok (List.append_nil o)

/-! ## Plain text -/

/-- The character neither marks an address nor begins a literal. -/
def IsPlain (c : Char) : Prop := c ≠ '@' ∧ c ≠ '"' ∧ c ≠ '\''

instance (c : Char) : Decidable (IsPlain c) := inferInstanceAs (Decidable (_ ∧ _))

theorem Filled.plain (h : ∀ c ∈ t, IsPlain c) : Filled t [] t := by
  refine Passes.filled ?_
  induction t with
  | nil => exact Passes.nil
  | cons c t ih =>
    obtain ⟨notMark, notString, notChar⟩ := h c List.mem_cons_self
    have step : Passes .code [c] .code := by
      have char := Passes.char (p := .code) (c := c) fun mark => notMark mark.2
      rwa [TemplatePlace.next, if_neg (by rintro (h | h) <;> contradiction)] at char
    exact step.append (ih fun c hc => h c (List.mem_cons_of_mem _ hc))

theorem isPlain_of_isWordChar {c : Char} (h : Text.isWordChar c) : IsPlain c := by
  refine ⟨?_, ?_, ?_⟩ <;> rintro rfl <;> revert h <;> decide

theorem isPlain_of_isDigit {c : Char} (h : c.isDigit) : IsPlain c := by
  refine ⟨?_, ?_, ?_⟩ <;> rintro rfl <;> revert h <;> decide

theorem isPlain_toDigits {n b : Nat} (hb : b ≤ 10) (hb' : 1 < b) :
    ∀ c ∈ Nat.toDigits b n, IsPlain c :=
  fun _ hc => isPlain_of_isDigit (Nat.isDigit_of_mem_toDigits (by omega) hb hc)

/-! ## Literals -/

theorem Passes.literalChar {quote c : Char} (h : c ≠ '\\') (h' : c ≠ quote) :
    Passes (.literal quote) [c] (.literal quote) := by
  have char := Passes.char (p := .literal quote) (c := c) fun mark => by cases mark.1
  rwa [TemplatePlace.next, if_neg h, if_neg h'] at char

/-- A backslash takes the next character along. -/
theorem Passes.escaped {quote c : Char} :
    Passes (.literal quote) ['\\', c] (.literal quote) := by
  have first := Passes.char (p := .literal quote) (c := '\\') fun mark => by cases mark.1
  have second := Passes.char (p := .escaped quote) (c := c) fun mark => by cases mark.1
  exact first.append second

theorem Passes.literalDigits {quote : Char} (hquote : quote = '"' ∨ quote = '\'')
    (h : ∀ c ∈ t, c.isDigit) : Passes (.literal quote) t (.literal quote) := by
  induction t with
  | nil => exact Passes.nil
  | cons c t ih =>
    have digit := h c List.mem_cons_self
    have step : Passes (.literal quote) [c] (.literal quote) := by
      refine Passes.literalChar ?_ ?_
      · rintro rfl
        exact absurd digit (by decide)
      · rintro rfl
        rcases hquote with rfl | rfl <;> exact absurd digit (by decide)
    exact step.append (ih fun c hc => h c (List.mem_cons_of_mem _ hc))

theorem Passes.octalEscape {quote : Char} (hquote : quote = '"' ∨ quote = '\'') (n : Nat) :
    Passes (.literal quote) (Text.octalEscape n) (.literal quote) := by
  have digits : ∀ c ∈ List.replicate (3 - (Nat.toDigits 8 n).length) '0' ++ Nat.toDigits 8 n,
      c.isDigit := by
    intro c hc
    rcases List.mem_append.mp hc with hc | hc
    · rw [List.eq_of_mem_replicate hc]
      rfl
    · exact Nat.isDigit_of_mem_toDigits (by omega) (by omega) hc
  unfold Text.octalEscape
  dsimp only
  cases hds : List.replicate (3 - (Nat.toDigits 8 n).length) '0' ++ Nat.toDigits 8 n with
  | nil =>
    have long := congrArg List.length hds
    rw [List.length_append, List.length_replicate, List.length_nil] at long
    omega
  | cons c ds =>
    rw [hds] at digits
    have rest := Passes.literalDigits hquote fun c hc => digits c (List.mem_cons_of_mem _ hc)
    exact Passes.escaped.append rest

theorem Passes.escape {quote : Char} (hquote : quote = '"' ∨ quote = '\'') (c : Char) :
    Passes (.literal quote) (Text.escape quote c) (.literal quote) := by
  unfold Text.escape
  split
  · exact Passes.escaped
  split
  · exact Passes.escaped
  split
  · exact Passes.escaped
  split
  · exact Passes.escaped
  split
  · exact Passes.escaped
  split
  · exact Passes.octalEscape hquote _
  · exact Passes.literalChar ‹_› ‹_›

/-- A literal is passed over. -/
theorem Filled.quoted {quote : Char} (hquote : quote = '"' ∨ quote = '\'')
    (h : Passes (.literal quote) t (.literal quote)) :
    Filled (quote :: (t ++ [quote])) [] (quote :: (t ++ [quote])) := by
  have opens : Passes .code [quote] (.literal quote) := by
    have char := Passes.char (p := .code) (c := quote) fun mark => by
      rcases hquote with rfl | rfl <;> exact absurd mark.2 (by decide)
    rwa [TemplatePlace.next, if_pos hquote] at char
  have closes : Passes (.literal quote) [quote] .code := by
    have char := Passes.char (p := .literal quote) (c := quote) fun mark => by cases mark.1
    rwa [TemplatePlace.next, if_neg (by rcases hquote with rfl | rfl <;> decide), if_pos rfl] at char
  exact Passes.filled (opens.append (h.append closes))

theorem Filled.stringLiteral (s : String) :
    Filled (Text.stringLiteral s).toList [] (Text.stringLiteral s).toList := by
  unfold Text.stringLiteral
  rw [String.toList_ofList]
  refine Filled.quoted (.inl rfl) ?_
  induction s.toList with
  | nil => exact Passes.nil
  | cons c cs ih => exact (Passes.escape (.inl rfl) c).append ih

theorem Filled.charLiteral (v : Int64) :
    Filled (Text.charLiteral v).toList [] (Text.charLiteral v).toList := by
  unfold Text.charLiteral
  dsimp only
  rw [String.toList_ofList]
  refine Filled.quoted (.inr rfl) ?_
  split
  · exact Passes.escape (.inr rfl) _
  · exact Passes.octalEscape (.inr rfl) _

/-! ## Printed text -/
def PlainText (s : String) : Prop := ∀ c ∈ s.toList, IsPlain c

instance (s : String) : Decidable (PlainText s) := List.decidableBAll IsPlain s.toList

namespace PlainText

theorem append {s t : String} (hs : PlainText s) (ht : PlainText t) : PlainText (s ++ t) := by
  intro c hc
  rw [String.toList_append] at hc
  rcases List.mem_append.mp hc with hc | hc
  · exact hs c hc
  · exact ht c hc

theorem ofList {cs : List Char} (h : ∀ c ∈ cs, IsPlain c) : PlainText (String.ofList cs) := by
  intro c hc
  rw [String.toList_ofList] at hc
  exact h c hc

theorem of_isWord {w : String} (h : IsWord w) : PlainText w := by
  obtain ⟨c, r, hcs, -, hall⟩ := h.name
  intro c' hc'
  rw [hcs] at hc'
  exact isPlain_of_isWordChar (List.all_eq_true.mp hall c' hc')

theorem toString_nat (n : Nat) : PlainText (toString n) :=
  ofList (isPlain_toDigits (by omega) (by omega))

theorem toString_int (n : Int) : PlainText (toString n) := by
  cases n with
  | ofNat n => exact toString_nat n
  | negSucc n => exact append (s := "-") (by decide) (toString_nat (n + 1))

/-! ## Numbers -/

theorem zeros (n : Nat) : ∀ c ∈ List.replicate n '0', IsPlain c := by
  intro c hc
  rw [List.eq_of_mem_replicate hc]
  decide

theorem digits (n : Nat) : ∀ c ∈ Nat.toDigits 10 n, IsPlain c := isPlain_toDigits (by omega) (by omega)

theorem positional (pointZero : Bool) (d : Decimal.Dec) :
    PlainText (Decimal.positional pointZero d) := by
  have appended {xs ys : List Char} (hx : ∀ c ∈ xs, IsPlain c) (hy : ∀ c ∈ ys, IsPlain c) :
      ∀ c ∈ xs ++ ys, IsPlain c := fun c hc =>
    (List.mem_append.mp hc).elim (hx c) (hy c)
  unfold Decimal.positional
  dsimp only
  split
  · refine append (ofList (appended (digits _) (zeros _))) ?_
    split <;> decide
  · have padded := appended (zeros ((-d.exponent).toNat + 1 - (Nat.toDigits 10 d.digits).length))
      (digits d.digits)
    refine append (append (ofList fun c hc => ?_) (by decide)) (ofList fun c hc => ?_)
    · exact padded c (List.mem_of_mem_take hc)
    · exact padded c (List.mem_of_mem_drop hc)

theorem scientific (plusSign : Bool) (d : Decimal.Dec) :
    PlainText (Decimal.scientific plusSign d) := by
  unfold Decimal.scientific
  dsimp only
  refine append (append ?mantissa ?exponentSign) (toString_int _)
  case mantissa =>
    have plain := digits d.digits
    split
    · decide
    · rename_i c hc
      rw [hc] at plain
      exact ofList plain
    · rename_i c r _ hc
      rw [hc] at plain
      refine ofList fun c' hc' => ?_
      rcases List.mem_cons.mp hc' with rfl | hc'
      · exact plain _ List.mem_cons_self
      · rcases List.mem_cons.mp hc' with rfl | hc'
        · decide
        · exact plain c' (List.mem_cons_of_mem _ hc')
  case exponentSign => split <;> decide

theorem render (n : Decimal.Notation) (x : Double) : PlainText (Decimal.render n x) := by
  unfold Decimal.render
  split
  · decide
  · refine append ?_ ?_
    · split <;> decide
    · split
      · decide
      · unfold Decimal.Notation.layout
        split
        · split <;> decide
        · split
          · exact positional _ _
          · exact scientific _ _

/-! ## Types -/

variable {a : Analysis}

theorem baseName {ty : Ty} (sound : a.Sound) (definite : ty.Definite) :
    PlainText (a.types.baseName ty) := by
  cases ty with
  | int k =>
    obtain ⟨rank, signed⟩ := k
    rw [TypeTable.baseName]
    cases rank <;> cases signed <;> decide
  | record id =>
    rw [TypeTable.baseName]
    cases found : a.types.record? id with
    | none => decide
    | some r => exact of_isWord (sound.record id r found).name
  | enum name => exact of_isWord definite
  | void => exact (by decide : PlainText "void")
  | bool => exact (by decide : PlainText "bool")
  | float => exact (by decide : PlainText "float")
  | double => exact (by decide : PlainText "double")
  | dynamic => exact (by decide : PlainText "<dynamic>")
  | dependent | pointer _ | array _ _ => exact (by decide : PlainText "<dependent type>")

theorem named {base name : String} (hbase : PlainText base) (hname : PlainText name) :
    PlainText (if name.isEmpty then base else s!"{base} {name}") := by
  split
  · exact hbase
  · exact append (append hbase (by decide)) hname

theorem declare {t : Ty} (sound : a.Sound) (definite : t.Definite) {name : String}
    (hname : PlainText name) : PlainText (a.types.declare t name) := by
  induction t generalizing name with
  | pointer t ih =>
    rw [TypeTable.declare]
    split
    · exact ih definite (append (append (s := "(*") (by decide) hname) (by decide))
    · exact ih definite (append (s := "*") (by decide) hname)
  | array t n ih =>
    have bracketed {l : String} (h : PlainText l) : PlainText (name ++ "[" ++ l ++ "]") :=
      append (append (append hname (by decide)) h) (by decide)
    cases n with
    | none => exact ih definite (bracketed (l := "") (by decide))
    | some n => exact ih definite (bracketed (toString_nat n))
  | _ => exact named (baseName sound definite) hname

theorem typeName {t : Ty} (sound : a.Sound) (definite : t.Definite) : PlainText (a.types.name t) :=
  declare sound definite (by decide)

end PlainText

end IncrementalC
