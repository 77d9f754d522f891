import IncrementalC.Proofs.Decimal.SinglePrecision
import IncrementalC.Proofs.Semantics.Suited
import IncrementalC.Typed.Folding

/-!
# What constants are worth

`Eval.worth s c` is the value of the constant `c` at run time. Converting a constant to a type and converting
its value come to the same (`Eval.converted_worth`), and so do folding an operator and applying it to values
(`Eval.binary_folded`, `Eval.unary_folded`). A string has an address, which is not null once the string is
linked (`Eval.Sees`).
-/
namespace IncrementalC
set_option autoImplicit false
open Typed Lowering

/-! ## Words -/

namespace Scalar

/-- The kinds of promoted integers. -/
def isWide : Scalar → Bool
  | .i32 | .u32 | .i64 | .u64 => true
  | _ => false

theorem wrap_neg {k : Scalar} (wide : k.isWide) (v : Int64) : k.wrap (-k.wrap v) = k.wrap (-v) := by
  cases k with
  | i32 | i64 | u64 => simp [wrap]
  | u32 =>
    simp only [wrap, Int64.toUInt64_neg, UInt64.toUInt32_neg, UInt32.toUInt32_toUInt64, UInt64.toUInt64_toInt64]
  | _ => cases wide

theorem wrap_not {k : Scalar} (wide : k.isWide) (v : Int64) : k.wrap (~~~k.wrap v) = k.wrap (~~~v) := by
  cases k with
  | i32 | i64 | u64 => simp [wrap]
  | u32 =>
    simp only [wrap, Int64.toUInt64_not, UInt64.toUInt32_not, UInt32.toUInt32_toUInt64, UInt64.toUInt64_toInt64]
  | _ => cases wide

theorem wrap_boolWord {k : Scalar} (integer : k.isInteger) (b : Bool) : k.wrap (boolWord b) = boolWord b := by
  cases k with
  | f32 | f64 | ptr | dyn => cases integer
  | _ => cases b <;> rfl

end Scalar

namespace Eval

variable {s : Scene} {c c' : Constant} {ty source target : Ty}

/-! ## Values -/

/-- The value of a constant at run time. -/
def worth (s : Scene) : Constant → Value
  | .int v => .int v
  | .float x => .float x
  | .bool b => .ofBool b
  | .ptr p => .ptr p
  | .str text => literal s text

/-- A string has a place. -/
def Sees (s : Scene) (c : Constant) : Prop :=
  ∀ text, c = .str text → ∃ p, s.linked.strings.get? text = some p ∧ p ≠ 0

theorem isTruthy_worth (sees : Sees s c) : (worth s c).isTruthy = c.truthy := by
  cases c with
  | bool b => cases b <;> rfl
  | str text =>
    obtain ⟨p, found, notNull⟩ := sees text rfl
    show (((s.linked.strings.get? text).getD 0 != 0) : Bool) = true
    rw [found]
    exact bne_iff_ne.mpr notNull
  | _ => rfl

theorem literal_eq {text : String} {p : UInt64} (found : s.linked.strings.get? text = some p) :
    literal s text = .ptr p := by
  unfold literal
  rw [found]
  rfl

/-- The type is an integer type, possibly an enumeration, of the kind. -/
structure IsIntegerOf (ty : Ty) (k : Scalar) : Prop where
  type : (∃ kind, ty = .int kind) ∨ ∃ name, ty = .enum name
  kind : ty.scalar? = some k

theorem IsIntegerOf.integer {k : Scalar} (h : IsIntegerOf ty k) : k.isInteger := by
  have kind := h.kind
  obtain ⟨⟨rank, signed⟩, rfl⟩ | ⟨name, rfl⟩ := h.type
  · cases rank <;> cases signed <;> cases kind <;> rfl
  · cases kind
    rfl

theorem IsIntegerOf.known {k : Scalar} (h : IsIntegerOf ty k) : ty.decay.scalar? = some k := by
  have kind := h.kind
  obtain ⟨_, rfl⟩ | ⟨_, rfl⟩ := h.type <;> exact kind

/-- What a constant of a type that is not floating can be. -/
inductive Fits (ty : Ty) : Constant → Prop where
  | bool (type : ty = .bool) (b : Bool) : Fits ty (.bool b)
  | int {k : Scalar} (type : IsIntegerOf ty k) {n : Int64} (wrapped : k.wrap n = n) : Fits ty (.int n)
  | ptr {t : Ty} (type : ty = .pointer t) (p : UInt64) : Fits ty (.ptr p)
  | str (pointer : ty.isPointerLike) (text : String) : Fits ty (.str text)

/-- What a conversion to a type that is not floating does. -/
inductive Coerced (ty : Ty) (c : Constant) : Constant → Prop where
  | bool (type : ty = .bool) : Coerced ty c (.bool c.truthy)
  | int {k : Scalar} (type : IsIntegerOf ty k) {w : Int64} (read : c.word? = some w) : Coerced ty c (.int (k.wrap w))
  | ptr {t : Ty} (type : ty = .pointer t) {p : UInt64} (same : c = .ptr p) : Coerced ty c (.ptr p)
  | address {t : Ty} (type : ty = .pointer t) {v : Int64} (same : c = .int v) : Coerced ty c (.ptr v.toUInt64)
  | str (pointer : ty.isPointerLike) {text : String} (same : c = .str text) : Coerced ty c (.str text)

theorem coerced (notFloating : ty.isFloating = false) (h : c.coerce ty = some c') : Coerced ty c c' := by
  have word (type : (∃ kind, ty = .int kind) ∨ ∃ name, ty = .enum name)
      (h : (do return Constant.int ((← ty.scalar?).wrap (← c.word?))) = some c') : Coerced ty c c' := by
    simp only [Option.bind_eq_bind, Option.bind_eq_some_iff] at h
    obtain ⟨k, kind, w, read, h⟩ := h
    cases h
    exact .int ⟨type, kind⟩ read
  cases ty with
  | bool =>
    cases h
    exact .bool rfl
  | int kind => exact word (.inl ⟨kind, rfl⟩) h
  | enum name => exact word (.inr ⟨name, rfl⟩) h
  | float | double => cases notFloating
  | pointer t =>
    cases c with
    | ptr p =>
      cases h
      exact .ptr rfl rfl
    | int v =>
      cases h
      exact .address rfl rfl
    | str text =>
      cases h
      exact .str rfl rfl
    | float _ | bool _ => cases h
  | array t n =>
    cases c with
    | str text =>
      cases h
      exact .str rfl rfl
    | _ => cases h
  | void | record _ | dependent | dynamic => cases h

theorem Coerced.fits (h : Coerced ty c c') : Fits ty c' := by
  cases h with
  | bool type => exact .bool type _
  | int type _ => exact .int type (Scalar.wrap_wrap _ _)
  | ptr type _ | address type _ => exact .ptr type _
  | str pointer _ => exact .str pointer _

theorem Coerced.of_bool (h : Coerced .bool c c') : c' = .bool c.truthy := by
  cases h with
  | bool _ => rfl
  | int type _ => rcases type.type with ⟨_, h⟩ | ⟨_, h⟩ <;> cases h
  | ptr type _ | address type _ => cases type
  | str pointer _ => cases pointer

theorem Coerced.of_int {k : Scalar} (type : IsIntegerOf ty k) (h : Coerced ty c c') :
    ∃ w, c.word? = some w ∧ c' = .int (k.wrap w) := by
  cases h with
  | int type' read =>
    cases type.kind.symm.trans type'.kind
    exact ⟨_, read, rfl⟩
  | bool type' | ptr type' _ | address type' _ =>
    rw [type'] at type
    rcases type.type with ⟨_, h⟩ | ⟨_, h⟩ <;> cases h
  | str pointer _ =>
    rcases type.type with ⟨_, rfl⟩ | ⟨_, rfl⟩ <;> cases pointer

theorem Coerced.sees (h : Coerced ty c c') (sees : Sees s c) : Sees s c' := by
  cases h with
  | str _ same => exact same ▸ sees
  | _ => exact nofun

theorem Fits.suits (fits : Fits ty c) : (worth s c).Suits ty := by
  cases fits with
  | bool type b =>
    subst type
    exact suits_of_isOf (k := .bool) rfl rfl (Value.isOf_ofBool b)
  | int type wrapped =>
    exact suits_of_isOf type.known (Scalar.isFloat_of_isInteger type.integer) (Value.isOf_int type.integer wrapped)
  | ptr type p =>
    subst type
    exact suits_pointer rfl (Value.isOf_ptr p)
  | str pointer text => exact suits_pointer pointer (Value.isOf_ptr _)

theorem Fits.kind (fits : Fits ty c) : ∃ k, ty.decay.scalar? = some k := by
  cases fits with
  | bool type _ | ptr type _ =>
    subst type
    exact ⟨_, rfl⟩
  | int type _ => exact ⟨_, type.known⟩
  | str pointer _ =>
    cases ty with
    | pointer _ | array _ _ => exact ⟨_, rfl⟩
    | _ => cases pointer

theorem Fits.valued (fits : Fits ty c) : ty.isVoid = false ∧ ty.isDependent = false := by
  obtain ⟨k, known⟩ := fits.kind
  cases ty with
  | void | dependent => cases known
  | _ => exact ⟨rfl, rfl⟩

theorem Fits.sees (fits : Fits ty c) (notPointer : ty.isPointerLike = false) : Sees s c := by
  cases fits with
  | str pointer _ =>
    rw [notPointer] at pointer
    cases pointer
  | _ => exact nofun

/-- A constant that has a word is worth that word. -/
theorem worth_of_word {w : Int64} (fits : Fits ty c) (read : c.word? = some w) : worth s c = .int w := by
  cases fits with
  | bool _ b =>
    cases read
    cases b <;> rfl
  | int _ _ =>
    cases read
    rfl
  | ptr _ _ | str _ _ => cases read

theorem converted_worth (own : Fits source c) (sees : Sees s c) (becomes : Coerced target c c') :
    converted source target (worth s c) = worth s c' := by
  obtain ⟨k, known⟩ := own.kind
  have goes (k' : Scalar) (known' : target.decay.scalar? = some k') (notFloat : k'.isFloat = false) :
      converted source target (worth s c) = (worth s c).coerce k' := by
    unfold converted
    rw [known, known']
    exact Value.convert_eq notFloat _ k
  have pointer (like : target.isPointerLike) : target.decay.scalar? = some .ptr := by
    cases target with
    | pointer _ | array _ _ => rfl
    | _ => cases like
  cases becomes with
  | bool type =>
    subst type
    rw [goes .bool rfl rfl]
    exact congrArg Value.ofBool (isTruthy_worth sees)
  | int type read =>
    rw [goes _ type.known (Scalar.isFloat_of_isInteger type.integer), worth_of_word own read,
      Value.coerce_int type.integer]
    rfl
  | ptr type same =>
    subst type same
    rw [goes .ptr rfl rfl]
    exact Value.isOf_ptr _
  | address type same =>
    subst type same
    rw [goes .ptr rfl rfl]
    rfl
  | str like same =>
    subst same
    rw [goes _ (pointer like) rfl]
    exact Value.isOf_ptr _

/-- A truth value is the same in every type. -/
theorem worth_truth {b : Bool} (becomes : Coerced ty (.bool b) c') : worth s c' = .ofBool b := by
  cases becomes with
  | bool type => rfl
  | int type read =>
    cases read
    show Value.int _ = _
    rw [Scalar.wrap_boolWord type.integer]
    cases b <;> rfl
  | ptr _ same | address _ same | str _ same => cases same

/-! ## Operators -/

/-- The type of an integer operation: an integer type of a wide kind. -/
structure IsWide (ty : Ty) (k : Scalar) : Prop extends IsIntegerOf ty k where
  wide : k.isWide

theorem isWide_promote (arithmetic : ty.isArithmetic) (notFloating : ty.isFloating = false) :
    ∃ k, IsWide ty.promote k := by
  cases ty with
  | bool | enum _ => exact ⟨.i32, ⟨⟨.inl ⟨_, rfl⟩, rfl⟩, rfl⟩⟩
  | int kind =>
    obtain ⟨rank, signed⟩ := kind
    cases rank <;> cases signed <;> exact ⟨_, ⟨⟨.inl ⟨_, rfl⟩, rfl⟩, rfl⟩⟩
  | float | double => cases notFloating
  | _ => cases arithmetic

theorem isWide_common {a b : Ty} (ha : a.isArithmetic) (hb : b.isArithmetic) (fa : a.isFloating = false)
    (fb : b.isFloating = false) : ∃ k, IsWide (Ty.common a b) k := by
  have promoted {t : Ty} (arithmetic : t.isArithmetic) (notFloating : t.isFloating = false) :
      ∃ kind, t.promote = .int kind ∧ IntRank.int.order ≤ kind.rank.order := by
    cases t with
    | bool | enum _ => exact ⟨_, rfl, Nat.le_refl _⟩
    | int kind =>
      obtain ⟨rank, signed⟩ := kind
      cases rank <;> exact ⟨_, rfl, by decide +revert⟩
    | float | double => cases notFloating
    | _ => cases arithmetic
  have other {t u : Ty} (h : t.isFloating = false) (floating : u.isFloating) : t ≠ u := by
    rintro rfl
    exact absurd floating (Bool.eq_false_iff.mp h)
  obtain ⟨x, px, rx⟩ := promoted ha fa
  obtain ⟨y, py, ry⟩ := promoted hb fb
  have common : Ty.common a b = .int (Ty.IntKind.common x y) := by
    unfold Ty.common
    rw [Track.not_isDynamic_of_isArithmetic ha, Track.not_isDynamic_of_isArithmetic hb, if_neg nofun,
      if_neg (not_or.mpr ⟨other fa rfl, other fb rfl⟩), if_neg (not_or.mpr ⟨other fa rfl, other fb rfl⟩), px, py]
  have rank : IntRank.int.order ≤ (Ty.IntKind.common x y).rank.order := by
    unfold Ty.IntKind.common
    split
    · exact rx
    split
    · exact rx
    · exact ry
  rw [common]
  generalize Ty.IntKind.common x y = kind at rank
  obtain ⟨rank', signed⟩ := kind
  cases rank' with
  | char | short => exact absurd rank (by decide +revert)
  | _ => cases signed <;> exact ⟨_, ⟨⟨.inl ⟨_, rfl⟩, rfl⟩, rfl⟩⟩

theorem isWide_operationType (op : BinaryOp) {a b : Ty} (ha : a.isArithmetic) (hb : b.isArithmetic)
    (fa : a.isFloating = false) (fb : b.isFloating = false) : ∃ k, IsWide (operationType op a b) k := by
  cases op with
  | shl | shr => exact isWide_promote ha fa
  | _ => exact isWide_common ha hb fa fb

/-- Words are folded as the machine computes with them. -/
theorem binary_of_foldWords {op : BinaryOp} {code : Code.BinaryOp} {k : Scalar} {x y : Int64} (wide : k.isWide)
    (found : machineOp? op = some code) (h : foldWords op k.isUnsigned x y = some c) :
    (op.isComparison ∧ ∃ b, c = .bool b ∧ Operation.binary code k (.int x) (.int y) = .ok (.ofBool b)) ∨
    (op.isComparison = false ∧ ∃ r, c = .int r ∧ Operation.binary code k (.int x) (.int y) = .ok (.int (k.wrap r))) := by
  have integer : k.isInteger := by
    cases k <;> first | rfl | cases wide
  have compared (isComparison : code.isComparison) : Operation.binary code k (.int x) (.int y) =
      .ok (.ofBool (if k.isUnsigned then Operation.compareWords code x.toUInt64 y.toUInt64
        else Operation.compareSigned code x y)) := by
    rw [Operation.binary_int integer, if_pos isComparison, Operation.compare_int integer]
  have computed (notComparison : code.isComparison = false) : Operation.binary code k (.int x) (.int y) =
      (Operation.integers code k x y).map .int := by
    rw [Operation.binary_int integer, if_neg (Bool.eq_false_iff.mp notComparison)]
  have same : (x.toUInt64 == y.toUInt64) = (x == y) := by
    by_cases h : x = y
    · rw [h, beq_self_eq_true, beq_self_eq_true]
    · have apart : x.toUInt64 ≠ y.toUInt64 := fun words => h (by
        rw [← Int64.toInt64_toUInt64 x, words, Int64.toInt64_toUInt64])
      rw [beq_false_of_ne h, beq_false_of_ne apart]
  cases op with
  | and | or => cases found
  | add | sub | mul | shl | shr | bitAnd | bitOr | bitXor =>
    cases found
    cases h
    exact .inr ⟨rfl, _, rfl, computed rfl⟩
  | div | rem =>
    cases found
    refine .inr ⟨rfl, ?_⟩
    by_cases zero : y = 0
    · simp only [foldWords, zero, if_true] at h
      cases h
    · simp only [foldWords, zero, if_false] at h
      cases h
      refine ⟨_, rfl, (computed rfl).trans ?_⟩
      simp only [Operation.integers, zero, if_false]
      rfl
  | lt | le | gt | ge =>
    cases found
    cases h
    exact .inl ⟨rfl, _, rfl, compared rfl⟩
  | eq | ne =>
    cases found
    cases h
    refine .inl ⟨rfl, _, rfl, (compared rfl).trans ?_⟩
    simp only [Operation.compareWords, Operation.compareSigned, bne, same, ite_self]

theorem sees_of_word {w : Int64} (read : c.word? = some w) : Sees s c := by
  rintro text rfl
  cases read

/-- An operand as a word of the type in which an operator acts. -/
theorem converted_word {k : Scalar} {w : Int64} (own : Fits source c) (read : c.word? = some w)
    (type : IsWide target k) : converted source target (worth s c) = .int (k.wrap w) :=
  converted_worth own (sees_of_word read) (.int type.toIsIntegerOf read)

theorem arithmetic_of_folded {op : BinaryOp} {a b : Ty} {x y : Constant} (h : foldArithmetic op a b x y = some c) :
    a.decay.isArithmetic ∧ b.decay.isArithmetic := by
  unfold foldArithmetic at h
  dsimp only at h
  split at h
  · cases h
  · rename_i arithmetic
    simpa only [Bool.or_eq_true, Bool.not_eq_true', not_or, Bool.not_eq_false] using arithmetic

/-- Arithmetic gives no string. -/
theorem sees_of_folded {op : BinaryOp} {a b : Ty} {x y : Constant} (h : foldArithmetic op a b x y = some c) :
    Sees s c := by
  rintro text rfl
  unfold foldArithmetic at h
  dsimp only at h
  split at h
  · cases h
  split at h
  · simp only [Option.bind_eq_bind, Option.bind_eq_some_iff] at h
    obtain ⟨_, -, _, -, h⟩ := h
    cases op <;> cases h
  · simp only [Option.bind_eq_bind, Option.bind_eq_some_iff] at h
    obtain ⟨_, -, _, -, _, -, h⟩ := h
    cases op <;> simp [foldWords] at h

theorem apply_folded {op : BinaryOp} {a b : Ty} {x y : Constant} (ownx : Fits a x) (owny : Fits b y)
    (fa : a.isFloating = false) (fb : b.isFloating = false) (notLogical : op.isLogical = false)
    (h : foldArithmetic op a b x y = some c)
    (becomes : Coerced (if op.isComparison then .bool else operationType op a.decay b.decay) c c') :
    apply op (operationType op a.decay b.decay) a.decay b.decay (worth s x) (worth s y) = pure (worth s c') := by
  obtain ⟨ha, hb⟩ := arithmetic_of_folded h
  unfold foldArithmetic at h
  rw [if_neg (by simp [ha, hb])] at h
  dsimp only at h
  obtain ⟨k, wide⟩ := isWide_operationType op ha hb (Ty.not_isFloating_decay fa) (Ty.not_isFloating_decay fb)
  have notFloating := Ty.not_isFloating_operationType op (Ty.not_isFloating_decay fa) (Ty.not_isFloating_decay fb)
  generalize operationType op a.decay b.decay = ty at h becomes wide notFloating ⊢
  rw [notFloating, if_neg nofun] at h
  simp only [Option.bind_eq_bind, Option.bind_eq_some_iff] at h
  obtain ⟨k', kind, v, readx, w, ready, h⟩ := h
  cases wide.kind.symm.trans kind
  have machine : (machineOp? op).isSome := by
    cases op with
    | and | or => cases notLogical
    | _ => rfl
  obtain ⟨code, found⟩ := Option.isSome_iff_exists.mp machine
  have left : converted a.decay ty (worth s x) = .int (k.wrap v) := by
    rw [← converted_word (s := s) ownx readx wide]
    unfold converted
    rw [Ty.decay_decay]
  have right : converted b.decay ty (worth s y) = .int (k.wrap w) := by
    rw [← converted_word (s := s) owny ready wide]
    unfold converted
    rw [Ty.decay_decay]
  rw [Track.apply_eq found wide.known, left, right]
  obtain ⟨comparison, b', rfl, computed⟩ | ⟨comparison, r, rfl, computed⟩ := binary_of_foldWords wide.wide found h
  · rw [comparison] at becomes
    rw [becomes.of_bool, computed]
    rfl
  · rw [comparison] at becomes
    obtain ⟨w', read, rfl⟩ := Coerced.of_int wide.toIsIntegerOf becomes
    cases read
    rw [computed]
    rfl

theorem commonType_arithmetic (op : BinaryOp) {a b : Ty} (ha : a.isArithmetic) (hb : b.isArithmetic) :
    commonType op a b = operationType op a b := by
  unfold commonType
  rw [Track.not_isPointer_of_number (.inl ha), Track.not_isPointer_of_number (.inl hb),
    Track.not_isDynamic_of_isArithmetic ha, Track.not_isDynamic_of_isArithmetic hb]
  simp

/-- Operators on numbers are folded as they are evaluated. -/
theorem binary_folded {op : BinaryOp} {a b : Ty} {x y : Constant} (ownx : Fits a x) (owny : Fits b y)
    (fa : a.isFloating = false) (fb : b.isFloating = false) (notLogical : op.isLogical = false)
    (h : foldArithmetic op a b x y = some c) (rule : Analyze.BinaryRule op a.decay b.decay ty)
    (becomes : Coerced ty c c') :
    binary s op a.decay b.decay (pure (worth s x)) (pure (worth s y)) = pure (worth s c') := by
  obtain ⟨ha, hb⟩ := arithmetic_of_folded h
  have number {t : Ty} (arithmetic : t.isArithmetic) (pointer : t.isPointer) : False := by
    rw [Track.not_isPointer_of_number (.inl arithmetic)] at pointer
    cases pointer
  have acting := Track.acting_of_rule notLogical rule
  cases acting with
  | numbers acts =>
    rw [commonType_arithmetic op ha hb] at becomes
    rw [acts.eval_eq, pure_bind, pure_bind, commonType_arithmetic op ha hb]
    exact apply_folded ownx owny fa fb notLogical h becomes
  | offset _ left _ => exact (number ha left).elim
  | offsetLeft _ _ right => exact (number hb right).elim
  | difference _ left _ => exact (number ha left).elim

/-- A sign or a complement is folded as the machine computes it. -/
theorem unary_folded {op : UnaryOp} {code : Code.UnaryOp} {a : Ty} {x : Constant} (own : Fits a x)
    (fa : a.isFloating = false) (arithmetic : a.decay.isArithmetic)
    (isCode : op = .neg ∧ code = .neg ∨ op = .bitNot ∧ code = .bitNot) (h : foldUnary op x = some c)
    (becomes : Coerced a.decay.promote c c') : unary code a (worth s x) = pure (worth s c') := by
  obtain ⟨k, wide⟩ := isWide_promote arithmetic (Ty.not_isFloating_decay fa)
  obtain ⟨w', read', rfl⟩ := Coerced.of_int wide.toIsIntegerOf becomes
  have fixed (u v : Value) : Operation.effectiveKind k u v = k := by
    have isWide := wide.wide
    cases k <;> first | rfl | cases isWide
  have known : a.decay.promote.scalar? = some k := wide.kind
  unfold unary
  dsimp only
  rw [known]
  have word (f : Int64 → Int64) (h : x.word?.map (fun v => Constant.int (f v)) = some c)
      (wraps : ∀ v, k.wrap (f (k.wrap v)) = k.wrap (f v)) :
      ∃ v, converted a a.decay.promote (worth s x) = .int v ∧ k.wrap (f v) = k.wrap w' := by
    obtain ⟨v, read, rfl⟩ := Option.map_eq_some_iff.mp h
    cases read'
    exact ⟨k.wrap v, converted_word own read wide, wraps v⟩
  have isWide := wide.wide
  obtain ⟨rfl, rfl⟩ | ⟨rfl, rfl⟩ := isCode
  · have negated : x.word?.map (fun v => Constant.int (-v)) = some c := by
      cases own <;> exact h
    obtain ⟨v, operand, same⟩ := word (fun v => -v) negated (Scalar.wrap_neg isWide)
    have computed : Operation.unary .neg k (.int v) = .ok (.int (k.wrap (-v))) := by
      unfold Operation.unary
      simp only [fixed]
      cases k <;> first | rfl | cases isWide
    rw [operand]
    dsimp only
    rw [computed, same]
    rfl
  · obtain ⟨v, operand, same⟩ := word (fun v => ~~~v) h (Scalar.wrap_not isWide)
    have computed : Operation.unary .bitNot k (.int v) = .ok (.int (k.wrap (~~~v))) := by
      unfold Operation.unary
      simp only [fixed]
      cases k <;> first | rfl | cases isWide
    rw [operand]
    dsimp only
    rw [computed, same]
    rfl

/-! ## Floating parts of objects -/

/-- A constant that is read as a number is worth an integer. -/
theorem number_of_fits (fits : Fits source c) {x : Double} (read : c.float? = some x) :
    ∃ w, c.word? = some w ∧ x = .ofInt64 w := by
  cases fits with
  | bool _ b =>
    cases read
    exact ⟨boolWord b, rfl, rfl⟩
  | int _ _ =>
    cases read
    exact ⟨_, rfl, rfl⟩
  | ptr _ _ | str _ _ => cases read

/-- An integer becomes the floating number of the same value. Where its type has no sign, it has to be below
`2 ^ 63`, as folding reads its bits with a sign. -/
theorem convert_number {k k' : Scalar} (floating : k'.isFloat) {w : Int64} (signed : k = .u64 → 0 ≤ w) :
    (Value.int w).convert k k' = (Value.float (.ofInt64 w)).coerce k' := by
  have plain : (Value.int w).coerce k' = (Value.float (.ofInt64 w)).coerce k' := by
    cases k' with
    | f32 | f64 => rfl
    | _ => cases floating
  unfold Value.convert
  dsimp only
  split
  · rename_i unsigned
    rw [Double.ofInt64_of_nonneg (signed unsigned.1)]
  · exact plain

theorem nonneg_of_fits (own : Fits source c) (signed : source.scalar? = some .u64 → ∀ w, c = .int w → 0 ≤ w) {w : Int64}
    (word : c.word? = some w) (unsigned : source.decay.scalar? = some .u64) : 0 ≤ w := by
  cases own with
  | bool type _ =>
    subst type
    cases unsigned
  | int type _ =>
    cases word
    cases type.known.symm.trans unsigned
    exact signed type.kind _ rfl
  | ptr _ _ | str _ _ => cases word

theorem coerce_coerce_float {k : Scalar} (floating : k.isFloat) (x : Double) :
    ((Value.float x).coerce k).coerce k = (Value.float x).coerce k := by
  cases k with
  | f64 => rfl
  | f32 => exact congrArg Value.float x.roundSingle_roundSingle
  | _ => cases floating

/-- What is stored into a part of an object for a constant is the constant that folding has converted to the type
of the part. -/
theorem stored_worth (own : Fits source c) (sees : Sees s c) (becomes : c.coerce target = some c') {k : Scalar}
    (kind : target.decay.scalar? = some k)
    (signed : target.isFloating → source.scalar? = some .u64 → ∀ w, c = .int w → 0 ≤ w) :
    (converted source target (worth s c)).coerce k = worth s c' := by
  cases floating : target.isFloating with
  | false =>
    have coerced := coerced floating becomes
    rw [converted_worth own sees coerced]
    exact (coerced.fits.suits k kind).2
  | true =>
    obtain ⟨k', source_⟩ := own.kind
    have number {x : Double} (read : c.float? = some x) (isFloat : k.isFloat) :
        (converted source target (worth s c)).coerce k = (Value.float x).coerce k := by
      obtain ⟨w, word, rfl⟩ := number_of_fits own read
      unfold converted
      rw [source_, kind, worth_of_word own word]
      dsimp only
      rw [convert_number isFloat, coerce_coerce_float isFloat]
      rintro rfl
      exact nonneg_of_fits own (signed floating) word source_
    cases target with
    | float =>
      cases kind
      obtain ⟨x, read, rfl⟩ := Option.map_eq_some_iff.mp becomes
      exact number read rfl
    | double =>
      cases kind
      obtain ⟨x, read, rfl⟩ := Option.map_eq_some_iff.mp becomes
      exact number read rfl
    | _ => cases floating

end Eval

end IncrementalC
