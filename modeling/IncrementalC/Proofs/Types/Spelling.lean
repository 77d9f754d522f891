import IncrementalC.Proofs.Token.Phrases
import IncrementalC.Proofs.Analysis.Sound

/-!
# Types as phrases

A flat type is a base with stars and, outside of them, array lengths. `TypeTable.phrase` writes it as `declare` does,
token by token.
-/
namespace IncrementalC
set_option autoImplicit false

/-! ## Flat types -/

namespace Ty

/-- The type holds no pointer to an array. -/
def Flat : Ty → Prop
  | .pointer t => t.isArray = false ∧ t.Flat
  | .array t _ => t.Flat
  | _ => True

/-- What is left without pointers and arrays. -/
def base : Ty → Ty
  | .pointer t | .array t _ => t.base
  | t => t

def stars : Ty → Nat
  | .pointer t => t.stars + 1
  | .array t _ => t.stars
  | _ => 0

/-- The lengths of the arrays outside of all pointers, the outermost one first. -/
def dims : Ty → List (Option Nat)
  | .array t n => n :: t.dims
  | _ => []

theorem dims_of_not_isArray {t : Ty} (h : t.isArray = false) : t.dims = [] := by
  cases t <;> first | rfl | cases h

theorem pointers_succ (n : Nat) (t : Ty) : Analyze.pointers (n + 1) t = .pointer (Analyze.pointers n t) := by
  induction n generalizing t with
  | zero => rfl
  | succ n ih => exact ih (.pointer t)

/-- A flat type is made of its parts. -/
theorem Flat.rebuilt {t : Ty} (h : t.Flat) :
    t.dims.foldr (fun n t => .array t n) (Analyze.pointers t.stars t.base) = t := by
  induction t with
  | pointer t ih =>
    have inner := ih h.2
    rw [dims_of_not_isArray h.1] at inner
    show Analyze.pointers (t.stars + 1) t.base = _
    rw [pointers_succ]
    exact congrArg Ty.pointer inner
  | array t n ih => exact congrArg (Ty.array · n) (ih h)
  | _ => rfl

theorem Spelled.base {t : Ty} (h : t.Spelled) : t.base.Spelled := by
  induction t with
  | pointer t ih => exact ih h
  | array t n ih => exact ih h.1
  | _ => exact h

theorem Spelled.dims {t : Ty} (h : t.Spelled) : ∀ k, some k ∈ t.dims → k < UInt64.size / 2 := by
  induction t with
  | array t n ih =>
    intro k mem
    rcases List.mem_cons.mp mem with same | mem
    · exact h.2 k same.symm
    · exact ih h.1 k mem
  | _ => exact nofun

theorem base_ne (t : Ty) : (∀ s, t.base ≠ .pointer s) ∧ ∀ s n, t.base ≠ .array s n := by
  induction t with
  | pointer t ih | array t _ ih => exact ih
  | _ => exact ⟨nofun, nofun⟩

end Ty

/-! ## Words of a type -/

def rankKeywords : IntRank → List Keyword
  | .char => [.char]
  | .short => [.short]
  | .int => [.int]
  | .long => [.long]
  | .longLong => [.long, .long]

/-- The keywords of a base type that has no name of its own. -/
def Ty.keywords : Ty → List Keyword
  | .void => [.void]
  | .bool => [.bool]
  | .int k => if k.signed then rankKeywords k.rank else .unsigned :: rankKeywords k.rank
  | .float => [.float]
  | .double => [.double]
  | _ => []

namespace TypeTable

variable (t : TypeTable)

/-- The name of a record or an enumeration. -/
def tag? : Ty → Option String
  | .record id => (t.record? id).map (·.name)
  | .enum name => some name
  | _ => none

/-- The words that name a base type. -/
def baseWords (ty : Ty) : List String :=
  match t.tag? ty with
  | some name => [name]
  | none => ty.keywords.map Keyword.spelling

end TypeTable

namespace Phrase

/-- Words with blanks between them. -/
def words : List String → Phrase
  | [] => one (.word "")
  | w :: ws => ⟨.word w, ws.map fun w => ⟨true, .word w⟩⟩

end Phrase

def TextPiece.length : Option Nat → List TextPiece
  | none => [.punct .lbracket, .punct .rbracket]
  | some n => [.punct .lbracket, ⟨false, .int n .none⟩, .punct .rbracket]

namespace Ty

/-- The stars and lengths of a type. -/
def declarator (ty : Ty) : List TextPiece :=
  List.replicate ty.stars (.punct .star) ++ ty.dims.flatMap TextPiece.length

end Ty

/-- A declarator that is not empty begins with a star or a bracket. -/
theorem Ty.declarator_cases (ty : Ty) :
    ty.declarator = [] ∨ ∃ m ps, ty.declarator = .punct m :: ps ∧ (m = .star ∨ m = .lbracket) := by
  unfold Ty.declarator
  cases ty.stars with
  | zero =>
    cases ty.dims with
    | nil => exact .inl rfl
    | cons n ns => cases n <;> exact .inr ⟨.lbracket, _, rfl, .inr rfl⟩
  | succ n => exact .inr ⟨.star, _, rfl, .inl rfl⟩

def TypeTable.phrase (t : TypeTable) (ty : Ty) : Phrase :=
  (Phrase.words (t.baseWords ty.base)).append (TextPiece.space ty.declarator)

/-! ## Text -/

/-- A declarator behind a base. -/
def behind (base declarator : List Char) : List Char :=
  if declarator = [] then base else base ++ ' ' :: declarator

theorem toList_behind (b name : String) :
    (if name.isEmpty then b else s!"{b} {name}").toList = behind b.toList name.toList := by
  unfold behind
  by_cases empty : name = ""
  · simp [empty]
  · have notNil : name.toList ≠ [] := by simpa using empty
    have notEmpty : name.isEmpty = false := by simpa using empty
    rw [notEmpty, if_neg notNil, if_neg (by nofun)]
    show (b ++ " " ++ name).toList = _
    rw [String.toList_append, String.toList_append, List.append_assoc]
    rfl

theorem declare_array (t : TypeTable) (ty : Ty) (n : Option Nat) (name : String) : ∃ l : String,
    t.declare (.array ty n) name = t.declare ty s!"{name}[{l}]" ∧
      TextPiece.text (TextPiece.length n) = '[' :: (l.toList ++ [']']) := by
  cases n with
  | none => exact ⟨"", rfl, rfl⟩
  | some n =>
    refine ⟨Nat.repr n, rfl, ?_⟩
    show '[' :: (Nat.toDigits 10 n ++ [] ++ [']']) = _
    rw [Nat.toList_repr, List.append_nil]

theorem declare_flat {t : TypeTable} {ty : Ty} (flat : ty.Flat) (name : String) :
    (t.declare ty name).toList = behind (t.baseName ty.base).toList
      (List.replicate ty.stars '*' ++ (name.toList ++ TextPiece.text (ty.dims.flatMap TextPiece.length))) := by
  induction ty generalizing name with
  | pointer ty ih =>
    have star : (s!"*{name}").toList = '*' :: name.toList := by
      show ("*" ++ name).toList = _
      rw [String.toList_append]
      rfl
    rw [TypeTable.declare, if_neg (by rw [flat.1]; nofun), ih flat.2, star, Ty.dims_of_not_isArray flat.1]
    show behind _ (List.replicate ty.stars '*' ++ ('*' :: (name.toList ++ []))) =
      behind _ (List.replicate (ty.stars + 1) '*' ++ (name.toList ++ []))
    rw [List.replicate_succ', List.append_assoc]
    rfl
  | array ty n ih =>
    obtain ⟨l, unfolded, length⟩ := declare_array t ty n name
    have bracketed : (s!"{name}[{l}]").toList = name.toList ++ TextPiece.text (TextPiece.length n) := by
      show (name ++ "[" ++ l ++ "]").toList = _
      rw [length]
      simp
    rw [unfolded, ih flat, bracketed, List.append_assoc, ← TextPiece.text_append]
    rfl
  | _ =>
    have none : List.replicate 0 '*' ++ (name.toList ++ TextPiece.text []) = name.toList := List.append_nil _
    refine (toList_behind _ name).trans ?_
    exact congrArg _ none.symm

theorem text_stars (n : Nat) : TextPiece.text (List.replicate n (.punct .star)) = List.replicate n '*' := by
  induction n with
  | zero => rfl
  | succ n ih => exact congrArg ('*' :: ·) ih

theorem text_declarator (ty : Ty) :
    TextPiece.text ty.declarator = List.replicate ty.stars '*' ++ TextPiece.text (ty.dims.flatMap TextPiece.length) := by
  unfold Ty.declarator
  rw [TextPiece.text_append, text_stars]

/-- The words of a base type are its name. -/
theorem TypeTable.text_baseWords {t : TypeTable} {ty : Ty} (spelled : ty.base.Spelled)
    (known : ∀ id, ty.base = .record id → t.record? id ≠ none) :
    (Phrase.words (t.baseWords ty.base)).text = (t.baseName ty.base).toList := by
  have isBase := ty.base_ne
  generalize ty.base = base at spelled known isBase
  cases base with
  | void | bool | float | double => exact Phrase.text_one _
  | int k =>
    obtain ⟨rank, signed⟩ := k
    show (Phrase.words ((Ty.int ⟨rank, signed⟩).keywords.map Keyword.spelling)).text =
      (if signed then TypeTable.intName rank else s!"unsigned {TypeTable.intName rank}").toList
    cases rank <;> cases signed <;> decide
  | pointer s => exact (isBase.1 s rfl).elim
  | array s n => exact (isBase.2 s n rfl).elim
  | record id =>
    obtain ⟨r, found⟩ := Option.ne_none_iff_exists'.mp (known id rfl)
    unfold baseWords tag? baseName
    dsimp only
    rw [found]
    exact Phrase.text_one _
  | enum name => exact Phrase.text_one _
  | dependent | dynamic => exact spelled.elim

theorem TypeTable.text_phrase {t : TypeTable} {ty : Ty} (flat : ty.Flat) (spelled : ty.Spelled)
    (known : ∀ id, ty.base = .record id → t.record? id ≠ none) : (t.phrase ty).text = (t.name ty).toList := by
  unfold phrase name
  rw [Phrase.text_append, text_baseWords spelled.base known, declare_flat flat]
  show _ = behind _ (_ ++ TextPiece.text _)
  rw [← text_declarator]
  unfold behind
  obtain empty | ⟨m, ps, begins, star | bracket⟩ := ty.declarator_cases
  · rw [empty]
    exact List.append_nil _
  · rw [begins, star, if_neg (by nofun)]
    rfl
  · rw [begins, bracket, if_neg (by nofun)]
    rfl

/-! ## Lexemes -/

theorem isName_spelling (k : Keyword) : IsName k.spelling.toList := by
  cases k <;> exact ⟨_, _, rfl, by decide, by decide⟩

theorem ofWord?_spelling (k : Keyword) : Keyword.ofWord? k.spelling = some k := by
  cases k <;> decide

theorem words_sound {w : String} {ws : List String} (names : ∀ x ∈ w :: ws, IsName x.toList) :
    (Phrase.words (w :: ws)).Sound := by
  have behind {ws : List String} (names : ∀ w ∈ ws, IsName w.toList) : TextPiece.Block (ws.map fun w => ⟨true, .word w⟩) := by
    induction ws with
    | nil => exact .nil
    | cons w ws ih =>
      obtain ⟨first, rest⟩ := List.forall_mem_cons.mp names
      cases ws with
      | nil => exact .one first trivial
      | cons w' ws =>
        refine .cons first (ih rest) (fun q head => ?_) nofun
        cases head
        exact .ofSpaced rfl (.inl rfl)
  obtain ⟨first, rest⟩ := List.forall_mem_cons.mp names
  refine (Phrase.Sound.word first).append (behind rest) fun q head r _ _ => ?_
  obtain ⟨w', -, rfl⟩ := List.mem_map.mp (List.mem_of_mem_head? head)
  exact .ofSpaced rfl (.inr rfl)

theorem stars_block (n : Nat) : TextPiece.Block (List.replicate n (.punct .star)) := by
  have ends : (Lexeme.punct .star).Ends := .inr (.inr (.inr (.inr rfl)))
  induction n with
  | zero => exact .nil
  | succ n ih =>
    cases n with
    | zero => exact .one trivial ends
    | succ n =>
      refine .cons trivial ih (fun q head => ?_) nofun
      cases head
      exact .ofFollower ends rfl

theorem head_lengths {ns : List (Option Nat)} : ∀ q ∈ (ns.flatMap TextPiece.length).head?, q = .punct .lbracket := by
  intro q head
  cases ns with
  | nil => cases head
  | cons n ns => cases n <;> cases head <;> rfl

theorem lengths_block {ns : List (Option Nat)} (small : ∀ k, some k ∈ ns → k < UInt64.size / 2) :
    TextPiece.Block (ns.flatMap TextPiece.length) := by
  induction ns with
  | nil => exact .nil
  | cons n ns ih =>
    have first : TextPiece.Block (TextPiece.length n) := by
      cases n with
      | none => exact TextPiece.Block.nil.bracketed rfl rfl (.inr (.inl rfl))
      | some n =>
        have legible : n < UInt64.size := Nat.lt_of_lt_of_le (small n List.mem_cons_self) (by decide)
        exact (TextPiece.Block.one (p := ⟨false, .int n .none⟩) legible trivial).bracketed rfl rfl (.inr (.inl rfl))
    refine first.append (ih fun k mem => small k (List.mem_cons_of_mem _ mem)) fun q head p _ ends => ?_
    rw [head_lengths q head]
    exact .ofFollower ends rfl

theorem declarator_block {ty : Ty} (small : ∀ k, some k ∈ ty.dims → k < UInt64.size / 2) : TextPiece.Block ty.declarator := by
  refine (stars_block ty.stars).append (lengths_block small) fun q head p _ ends => ?_
  rw [head_lengths q head]
  exact .ofFollower ends rfl

theorem TypeTable.phrase_sound {t : TypeTable} {ty : Ty} (spelled : ty.Spelled)
    (base : (Phrase.words (t.baseWords ty.base)).Sound) : (t.phrase ty).Sound := by
  refine base.append (declarator_block spelled.dims).space fun q head r _ ends => ?_
  obtain empty | ⟨m, ps, begins, -⟩ := ty.declarator_cases
  · rw [empty] at head
    cases head
  · rw [begins] at head
    cases head
    exact .ofSpaced rfl (.inr rfl)

end IncrementalC
