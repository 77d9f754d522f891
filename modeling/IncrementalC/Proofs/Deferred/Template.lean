import IncrementalC.Proofs.Analysis.Accepted
import IncrementalC.Proofs.Deferred.Substitution
import Mathlib.Data.List.Nodup

/-!
# Templates and their variables

`occurrences e` lists the variables of an expression as often as they occur, in the order in which the
printer meets them. `template_fills`: with one address for each of them, the template becomes the
text in which every variable is an access through its address.
-/
namespace IncrementalC.Deferred
set_option autoImplicit false
open Typed

/-! ## Occurrences -/

/-- A variable where it occurs. -/
abbrev Occurrence := String × Binding × Ty

mutual

def occurrences : Expr → List Occurrence
  | .ident i name binding => if binding.isVariable then [(name, binding, i.ty)] else []
  | .unary _ _ e | .sizeofExpr _ e | .cast _ _ e | .member _ e _ _ => occurrences e
  | .binary _ _ a b | .assign _ _ a b | .index _ a b | .comma _ a b => occurrences a ++ occurrences b
  | .conditional _ c a b => occurrences c ++ occurrences a ++ occurrences b
  | .call _ _ _ args => occurrencesOfList args
  | .int .. | .float .. | .char .. | .str .. | .bool .. | .null _ | .sizeofType .. | .invalid _ => []

def occurrencesOfList : List Expr → List Occurrence
  | [] => []
  | e :: es => occurrences e ++ occurrencesOfList es

end

/-- Writes every variable as an access through its address. -/
def accessPrinter (types : TypeTable) (address : String → Binding → UInt64) : Printer where
  types
  ident i name binding :=
    if binding.isVariable then some (accessText types i.ty (hexText (address name binding))) else none

/-- The text of an expression with every variable replaced by an access through its address. -/
def accessed (types : TypeTable) (address : String → Binding → UInt64) (e : Expr) : String :=
  (accessPrinter types address).expr e

/-! ## Printed texts -/

/-- The addresses turn the piece `t` into `o`, and both begin alike. -/
structure Fills (t : String) (as : List UInt64) (o : String) : Prop where
  filled : Filled t.toList as o.toList
  head : t.toList.head? = o.toList.head?

namespace Fills

variable {t s o r : String} {as bs : List UInt64}

theorem append (h : Fills t as o) (h' : Fills s bs r) : Fills (t ++ s) (as ++ bs) (o ++ r) := by
  refine ⟨?_, ?_⟩
  · rw [String.toList_append, String.toList_append]
    exact h.filled.append h'.filled
  · rw [String.toList_append, String.toList_append, List.head?_append, List.head?_append, h.head, h'.head]

theorem plain (h : PlainText t) : Fills t [] t := ⟨Filled.plain h, rfl⟩

/-- Plain text on both sides. -/
theorem between {u v : String} (h : Fills t as o) (hu : PlainText u) (hv : PlainText v) :
    Fills (u ++ t ++ v) as (u ++ o ++ v) := by
  have whole := ((plain hu).append h).append (plain hv)
  rwa [List.nil_append, List.append_nil] at whole

theorem behind {u : String} (h : Fills t as o) (hu : PlainText u) : Fills (u ++ t) as (u ++ o) := by
  have whole := (plain hu).append h
  rwa [List.nil_append] at whole

theorem before {v : String} (h : Fills t as o) (hv : PlainText v) : Fills (t ++ v) as (o ++ v) := by
  have whole := h.append (plain hv)
  rwa [List.append_nil] at whole

theorem access {a : Analysis} {ty : Ty} (sound : a.Sound) (definite : ty.Definite) (address : UInt64) :
    Fills (accessText a.types ty "@") [address] (accessText a.types ty (hexText address)) := by
  have mark : Filled "@".toList [address] (hexText address).toList := Filled.mark address
  have around {u name : String} (hu : PlainText u) (hname : PlainText name) (hne : u.toList ≠ []) :
      Fills (u ++ name ++ ")" ++ "@" ++ ")") [address]
        (u ++ name ++ ")" ++ hexText address ++ ")") := by
    have front := (plain ((hu.append hname).append (t := ")") (by decide))).filled
    have back := (plain (t := ")") (by decide)).filled
    refine ⟨?_, ?_⟩
    · have whole := (front.append mark).append back
      rw [List.nil_append, List.append_nil] at whole
      simpa only [String.toList_append, List.append_assoc] using whole
    · cases hcs : u.toList with
      | nil => exact absurd hcs hne
      | cons c cs => simp only [String.toList_append, hcs, List.cons_append, List.head?_cons]
  unfold accessText
  split
  · rename_i elem n
    exact around (u := "((") (by decide) (PlainText.typeName (t := .pointer elem) sound definite) (by decide)
  · exact around (u := "(*(") (by decide) (PlainText.typeName (t := .pointer ty) sound definite) (by decide)

theorem leading (op : UnaryOp) (h : Fills t as o) :
    Fills (Typed.leading op t) as (Typed.leading op o) := by
  have symbol : PlainText (leadingText op) := by cases op <;> decide
  have tight := h.behind symbol
  have apart := h.behind (symbol.append (t := " ") (by decide))
  unfold Typed.leading
  rw [h.head]
  cases op <;> dsimp only <;> first | exact tight | skip
  all_goals
    split
    · exact apart
    · exact tight

end Fills

/-! ## Expressions -/

/-- The first text becomes the second one, and both bind alike. -/
structure FillsText (x : String × Nat) (as : List UInt64) (y : String × Nat) : Prop where
  text : Fills x.1 as y.1
  prec : x.2 = y.2

theorem FillsText.parenthesize {m : Nat} {x y : String × Nat} {as : List UInt64}
    (h : FillsText x as y) : Fills (Typed.parenthesize m x) as (Typed.parenthesize m y) := by
  unfold Typed.parenthesize
  rw [h.prec]
  split
  · exact h.text.between (u := "(") (v := ")") (by decide) (by decide)
  · exact h.text

theorem plainText_symbol (op : BinaryOp) : PlainText op.symbol := by cases op <;> decide

theorem plainText_assignText (op : Option BinaryOp) : PlainText (assignText op) := by
  cases op with
  | none => exact (by decide : PlainText "=")
  | some op => exact (plainText_symbol op).append (t := "=") (by decide)

variable {a : Analysis} {address : String → Binding → UInt64}

/-- The address of each occurrence. -/
def addressesOf (address : String → Binding → UInt64) (vs : List Occurrence) : List UInt64 := vs.map fun v => address v.1 v.2.1

/-- Writes templates. -/
def templatePrinter (types : TypeTable) : Printer := { types, ident := captureText types }

mutual

theorem exprText_fills (sound : a.Sound) : ∀ {e : Expr}, e.Accepted a →
    FillsText ((templatePrinter a.types).exprText e) (addressesOf address (occurrences e))
      ((accessPrinter a.types address).exprText e)
  | .int _ v suffix, _ => by
    have text : PlainText (suffixText suffix) := by cases suffix <;> decide
    exact ⟨.plain ((PlainText.toString_nat v).append text), rfl⟩
  | .float _ x single, _ => by
    refine ⟨.plain ((PlainText.render _ x).append ?_), rfl⟩
    cases single <;> decide
  | .char _ c, _ => ⟨⟨Filled.charLiteral _, rfl⟩, rfl⟩
  | .str _ s, _ => ⟨⟨Filled.stringLiteral s, rfl⟩, rfl⟩
  | .bool _ b, _ => by
    have text : PlainText (toString b) := by cases b <;> decide
    exact ⟨.plain text, rfl⟩
  | .null _, _ => ⟨.plain (by decide : PlainText "nullptr"), rfl⟩
  | .ident i name binding, h => by
    refine ⟨?_, rfl⟩
    show Fills ((captureText a.types i name binding).getD name)
      (addressesOf address (if binding.isVariable then [(name, binding, i.ty)] else []))
      ((if binding.isVariable then some (accessText a.types i.ty (hexText (address name binding)))
        else none).getD name)
    unfold captureText
    cases isVar : binding.isVariable with
    | false => exact .plain (PlainText.of_isWord h.1)
    | true => exact Fills.access sound (h.2.definite isVar) _
  | .unary _ op e, h => by
    have operand := exprText_fills sound h.2
    have leads := (operand.parenthesize (m := Prec.unary)).leading op
    have follows := operand.parenthesize (m := Prec.suffix)
    cases op with
    | postInc => exact ⟨follows.before (v := "++") (by decide), rfl⟩
    | postDec => exact ⟨follows.before (v := "--") (by decide), rfl⟩
    | _ => exact ⟨leads, rfl⟩
  | .binary _ op x y, h => by
    have left := (exprText_fills sound h.2.1).parenthesize (m := op.precedence)
    have right := (exprText_fills sound h.2.2).parenthesize (m := op.precedence + 1)
    refine ⟨?_, rfl⟩
    rw [occurrences, addressesOf, List.map_append]
    exact (((left.before (v := " ") (by decide)).before (plainText_symbol op)).before (v := " ")
      (by decide)).append right
  | .assign _ op x y, h => by
    have left := (exprText_fills sound h.2.2.1).parenthesize (m := Prec.unary)
    have right := (exprText_fills sound h.2.2.2).parenthesize (m := Prec.assign)
    refine ⟨?_, rfl⟩
    rw [occurrences, addressesOf, List.map_append]
    exact (((left.before (v := " ") (by decide)).before (plainText_assignText op)).before (v := " ")
      (by decide)).append right
  | .conditional _ c x y, h => by
    have cond := (exprText_fills sound h.2.1).parenthesize (m := Prec.conditional + 1)
    have yes := (exprText_fills sound h.2.2.1).text
    have no := (exprText_fills sound h.2.2.2).parenthesize (m := Prec.conditional)
    refine ⟨?_, rfl⟩
    rw [occurrences, addressesOf, List.map_append, List.map_append]
    exact (((cond.before (v := " ? ") (by decide)).append yes).before (v := " : ") (by decide)).append no
  | .call _ name _ args, h => by
    have list := argTexts_fills sound h.2.1
    refine ⟨?_, rfl⟩
    exact ((list.behind ((PlainText.of_isWord h.1).append (t := "(") (by decide))).before (v := ")")
      (by decide))
  | .index _ base index, h => by
    have left := (exprText_fills sound h.2.1).parenthesize (m := Prec.suffix)
    have right := (exprText_fills sound h.2.2).text
    refine ⟨?_, rfl⟩
    rw [occurrences, addressesOf, List.map_append]
    exact ((left.before (v := "[") (by decide)).append right).before (v := "]") (by decide)
  | .member _ base field arrow, h => by
    have left := (exprText_fills sound h.2.2).parenthesize (m := Prec.suffix)
    have op : PlainText (if arrow then "->" else ".") := by cases arrow <;> decide
    exact ⟨(left.before op).before (PlainText.of_isWord h.1), rfl⟩
  | .cast _ target e, h => by
    have operand := (exprText_fills sound h.2.2).parenthesize (m := Prec.unary)
    have type := PlainText.typeName sound h.1.definite
    exact ⟨operand.behind (((by decide : PlainText "(").append type).append (t := ")") (by decide)), rfl⟩
  | .sizeofType _ target, h => by
    have type := PlainText.typeName sound h.1.definite
    exact ⟨.plain (((by decide : PlainText "sizeof(").append type).append (t := ")") (by decide)), rfl⟩
  | .sizeofExpr _ e, h => by
    have inner := (exprText_fills sound h.2).text
    exact ⟨inner.between (u := "sizeof(") (v := ")") (by decide) (by decide), rfl⟩
  | .comma _ x y, h => by
    have left := (exprText_fills sound h.2.1).text
    have right := (exprText_fills sound h.2.2).parenthesize (m := Prec.assign)
    refine ⟨?_, rfl⟩
    rw [occurrences, addressesOf, List.map_append]
    exact (left.before (v := ", ") (by decide)).append right

theorem argTexts_fills (sound : a.Sound) : ∀ {es : List Expr}, AcceptedAll a es →
    Fills (commaList ((templatePrinter a.types).argTexts es))
      (addressesOf address (occurrencesOfList es)) (commaList ((accessPrinter a.types address).argTexts es))
  | [], _ => .plain (by decide : PlainText "")
  | e :: es, h => by
    have first := (exprText_fills sound h.1).parenthesize (m := Prec.assign)
    have rest := argTexts_fills sound h.2
    rw [occurrencesOfList, addressesOf, List.map_append]
    cases es with
    | nil =>
      rw [show occurrencesOfList [] = [] from rfl, List.map_nil, List.append_nil]
      show Fills (", ".intercalate [_]) _ (", ".intercalate [_])
      rw [String.intercalate_singleton, String.intercalate_singleton]
      exact first
    | cons e' es' =>
      show Fills (", ".intercalate (_ :: _ :: _)) _ (", ".intercalate (_ :: _ :: _))
      rw [String.intercalate_cons_cons, String.intercalate_cons_cons]
      exact (first.before (v := ", ") (by decide)).append rest

end

/-! ## Captured variables -/

/-- What tells variables apart. -/
def Occurrence.key (v : Occurrence) : String × Binding := (v.1, v.2.1)

/-- Adds a variable that is not there yet. -/
def capture (captured : List Occurrence) (v : Occurrence) : List Occurrence :=
  if captured.any fun c => c.1 == v.1 && c.2.1 == v.2.1 then captured else captured ++ [v]

theorem any_key {captured : List Occurrence} {v : Occurrence} :
    (captured.any fun c => c.1 == v.1 && c.2.1 == v.2.1) = true ↔ v.key ∈ captured.map Occurrence.key := by
  rw [List.any_eq_true, List.mem_map]
  constructor
  · rintro ⟨c, mem, same⟩
    rw [Bool.and_eq_true, beq_iff_eq, beq_iff_eq] at same
    exact ⟨c, mem, Prod.ext same.1 same.2⟩
  · rintro ⟨c, mem, same⟩
    have same : (c.1, c.2.1) = (v.1, v.2.1) := same
    refine ⟨c, mem, ?_⟩
    rw [Bool.and_eq_true, beq_iff_eq, beq_iff_eq]
    exact ⟨(Prod.mk.inj same).1, (Prod.mk.inj same).2⟩

theorem Uses.add_captured (u : Uses) {name : String} {binding : Binding} {ty : Ty} :
    (u.add name binding ty).captured =
      if binding.isVariable then capture u.captured (name, binding, ty) else u.captured := by
  cases binding with
  | placeholder =>
    unfold Uses.add
    dsimp only [Binding.isVariable]
    split <;> rfl
  | «local» slot | global link =>
    rw [if_pos (by rfl)]
    unfold Uses.add capture
    dsimp only
    split <;> rfl
  | _ => rfl

mutual

/-- The captured variables are the occurrences without repetitions. -/
theorem uses_captured : ∀ {e : Expr} (u : Uses), e.Accepted a →
    (uses u e).captured = (occurrences e).foldl capture u.captured
  | .ident i name binding, u, _ => by
    rw [uses, occurrences, Uses.add_captured]
    split <;> rfl
  | .unary _ _ _, u, h | .sizeofExpr _ _, u, h => by
    rw [uses, occurrences]
    exact uses_captured u h.2
  | .cast _ _ _, u, h | .member _ _ _ _, u, h => by
    rw [uses, occurrences]
    exact uses_captured u h.2.2
  | .binary _ _ x y, u, h | .index _ x y, u, h | .comma _ x y, u, h => by
    rw [uses, occurrences, List.foldl_append, uses_captured _ h.2.2, uses_captured u h.2.1]
  | .assign _ _ x y, u, h => by
    rw [uses, occurrences, List.foldl_append, uses_captured _ h.2.2.2, uses_captured u h.2.2.1]
  | .conditional _ c x y, u, h => by
    rw [uses, occurrences, List.foldl_append, List.foldl_append, uses_captured _ h.2.2.2,
      uses_captured _ h.2.2.1, uses_captured u h.2.1]
  | .call _ callee target args, u, h => by
    obtain ⟨-, hargs, _, resolved, -⟩ := h
    rw [uses, occurrences, usesOfList_captured _ hargs, Uses.add_captured, if_neg]
    cases resolved <;> exact nofun
  | .int .., u, _ | .float .., u, _ | .char .., u, _ | .str .., u, _ | .bool .., u, _
  | .null _, u, _ | .sizeofType .., u, _ => rfl

theorem usesOfList_captured : ∀ {es : List Expr} (u : Uses), AcceptedAll a es →
    (usesOfList u es).captured = (occurrencesOfList es).foldl capture u.captured
  | [], _, _ => rfl
  | e :: es, u, h => by
    rw [usesOfList, occurrencesOfList, List.foldl_append, usesOfList_captured _ h.2, uses_captured u h.1]

end

theorem foldl_capture_of_nodup {captured vs : List Occurrence}
    (h : ((captured ++ vs).map Occurrence.key).Nodup) : vs.foldl capture captured = captured ++ vs := by
  induction vs generalizing captured with
  | nil => rw [List.foldl_nil, List.append_nil]
  | cons v vs ih =>
    have new : v.key ∉ captured.map Occurrence.key := by
      rw [List.map_append, List.map_cons] at h
      exact fun mem => (List.nodup_append.mp h).2.2 _ mem _ List.mem_cons_self rfl
    have step : capture captured v = captured ++ [v] := by
      unfold capture
      rw [if_neg fun mem => new (any_key.mp mem)]
    rw [List.foldl_cons, step, ih, List.append_assoc, List.singleton_append]
    rwa [List.append_assoc, List.singleton_append]

theorem length_foldl_capture_le (captured vs : List Occurrence) :
    (vs.foldl capture captured).length ≤ captured.length + vs.length := by
  induction vs generalizing captured with
  | nil => exact Nat.le_refl _
  | cons v vs ih =>
    have step : (capture captured v).length ≤ captured.length + 1 := by
      unfold capture
      split
      · exact Nat.le_succ _
      · exact Nat.le_of_eq List.length_append
    have rest := ih (capture captured v)
    rw [List.foldl_cons, List.length_cons]
    omega

theorem length_foldl_capture_lt {captured vs : List Occurrence}
    (distinct : (captured.map Occurrence.key).Nodup)
    (h : ¬((captured ++ vs).map Occurrence.key).Nodup) :
    (vs.foldl capture captured).length < captured.length + vs.length := by
  induction vs generalizing captured with
  | nil =>
    rw [List.append_nil] at h
    exact absurd distinct h
  | cons v vs ih =>
    rw [List.foldl_cons, List.length_cons]
    by_cases mem : v.key ∈ captured.map Occurrence.key
    · have step : capture captured v = captured := by
        unfold capture
        rw [if_pos (any_key.mpr mem)]
      have rest := length_foldl_capture_le captured vs
      rw [step]
      omega
    · have step : capture captured v = captured ++ [v] := by
        unfold capture
        rw [if_neg fun same => mem (any_key.mp same)]
      have distinct' : ((captured ++ [v]).map Occurrence.key).Nodup := by
        rw [List.map_append, List.map_singleton]
        exact List.nodup_append.mpr ⟨distinct, List.nodup_singleton _, fun x hx y hy => by
          rw [List.mem_singleton.mp hy]
          rintro rfl
          exact mem hx⟩
      have rest := ih distinct' (by rwa [List.append_assoc, List.singleton_append])
      rw [step]
      rw [List.length_append, List.length_singleton] at rest
      omega

/-! ## Substitution -/

/-- The address at the position of a variable among the captured ones. -/
def addressAt (captured : List Occurrence) (addresses : List UInt64) (name : String)
    (binding : Binding) : UInt64 :=
  (addresses[captured.findIdx fun c => c.1 == name && c.2.1 == binding]?).getD 0

theorem addressesOf_addressAt {vs : List Occurrence} {addresses : List UInt64}
    (distinct : (vs.map Occurrence.key).Nodup) (length : addresses.length = vs.length) :
    addressesOf (addressAt vs addresses) vs = addresses := by
  refine List.ext_getElem ?_ fun i hi hi' => ?_
  · rw [addressesOf, List.length_map, length]
  · have hv : i < vs.length := length ▸ hi'
    have position : (vs.findIdx fun c => c.1 == vs[i].1 && c.2.1 == vs[i].2.1) = i := by
      rw [List.findIdx_eq hv]
      refine ⟨by rw [beq_self_eq_true, beq_self_eq_true, Bool.and_true], fun j hj => ?_⟩
      cases same : vs[j].1 == vs[i].1 && vs[j].2.1 == vs[i].2.1 with
      | false => rfl
      | true =>
        rw [Bool.and_eq_true, beq_iff_eq, beq_iff_eq] at same
        have bound : i < (vs.map Occurrence.key).length := by rwa [List.length_map]
        have keys : (vs.map Occurrence.key)[j] = (vs.map Occurrence.key)[i] := by
          rw [List.getElem_map, List.getElem_map]
          exact Prod.ext same.1 same.2
        have equal := (List.Nodup.getElem_inj_iff distinct).mp keys
        omega
    simp only [addressesOf, List.getElem_map]
    unfold addressAt
    rw [position, List.getElem?_eq_getElem hi', Option.getD_some]

/-- Substitution of addresses for the captured variables works if no variable occurs twice, and has
too few addresses otherwise. -/
theorem substitute_template {e : Expr} (sound : a.Sound) (accepted : e.Accepted a)
    {addresses : List UInt64} (length : addresses.length = (uses {} e).captured.length) :
    substitute (template a.types e) addresses =
      if ((occurrences e).map Occurrence.key).Nodup then
        .ok (accessed a.types (addressAt (uses {} e).captured addresses) e)
      else .error (.tooFewAddresses (template a.types e)) := by
  have captured : (uses {} e).captured = (occurrences e).foldl capture [] := uses_captured {} accepted
  have fills (address : String → Binding → UInt64) :
      Filled (template a.types e).toList (addressesOf address (occurrences e))
        (accessed a.types address e).toList :=
    (exprText_fills sound accepted).text.filled
  unfold substitute
  by_cases distinct : ((occurrences e).map Occurrence.key).Nodup
  · have all : (uses {} e).captured = occurrences e := by
      rw [captured, foldl_capture_of_nodup (by rwa [List.nil_append]), List.nil_append]
    have fill := (fills (addressAt (occurrences e) addresses)).substituteFrom
    rw [addressesOf_addressAt distinct (by rw [length, all])] at fill
    rw [if_pos distinct, all, fill]
    dsimp only
    rw [String.ofList_toList]
  · have marked := length_eq_marks (fills fun _ _ => 0).substituteFrom
    rw [addressesOf, List.length_map] at marked
    have few : ((occurrences e).foldl capture []).length < ([] : List Occurrence).length + (occurrences e).length :=
      length_foldl_capture_lt List.nodup_nil (by rwa [List.nil_append])
    rw [← captured, List.length_nil, Nat.zero_add, ← length, marked] at few
    rw [if_neg distinct, substituteFrom_tooFew few]

end IncrementalC.Deferred
