import IncrementalC.Lowering.Expression

/-!
# Code of initial values

`initObject a place ty init` stores an initial value into the object of type `ty` at `place`. A value
in braces and a string in an array clear the object first.
-/
namespace IncrementalC.Lowering
set_option autoImplicit false
open Typed (Expr Initializer)

/-- Where an object lies. -/
inductive Place where
  | local (slot : Nat)
  | global (linkName : String)

/-- The address of the slot at `offset` from the start of the object. -/
def Place.address (offset : Nat) : Place → List Instr
  | .local slot => [.localAddr (slot + slotWord offset)]
  | .global name =>
    .globalAddr name :: if 0 < offset then [.pushInt (Int64.ofNat offset), .ptrAdd 1] else []

def clear (place : Place) (slots : Nat) : Piece :=
  .code <| (List.range slots).flatMap fun slot =>
    place.address slot ++ [.pushInt 0, .store .i64, .pop]

def storeExpr (a : Analysis) (place : Place) (offset : Nat) (ty : Ty) (e : Expr) : Piece :=
  .code (place.address offset) ++ rvalue a e ++
    (if ty.isRecord then .code [.copySlots (slotWord (a.types.slots ty))]
     else .code (convert e.ty ty) ++ .gen do
       return [.store (← need (kindOf? ty) .nonScalarInitializer e.span)])
    ++ .code [.pop]

/-- The bytes of a string, one slot each. -/
def storeString (place : Place) (offset : Nat) (elem : Ty) (s : String) : Piece :=
  let kind := elem.scalar?.getD .i8
  .code <| (Typed.numberFrom offset (Typed.stringWords kind s)).flatMap fun (slot, word) =>
    place.address slot ++ [.pushInt word, .store kind, .pop]

mutual

/-- Stores into the part of type `ty` at `offset`. -/
def storeInitial (a : Analysis) (place : Place) (offset : Nat) (ty : Ty) : Initializer → Piece
  | .expr e =>
    match ty, e with
    | .array elem _, .str _ s => storeString place offset elem s
    | ty, e => storeExpr a place offset ty e
  | .list items _ =>
    match ty with
    | .array elem _ => storeElements a place elem (a.types.slots elem) offset items
    | .record id => storeFields a place (((a.types.record? id).map (·.fields)).getD []) offset items
    | ty =>
      match items with
      | [] => .code []
      | item :: _ => storeInitial a place offset ty item
  | .construct args _ =>
    match args with
    | [] => .code []
    | e :: _ => storeExpr a place offset ty e

def storeElements (a : Analysis) (place : Place) (elem : Ty) (stride offset : Nat) :
    List Initializer → Piece
  | [] => .code []
  | item :: items =>
    storeInitial a place offset elem item
      ++ storeElements a place elem stride (offset + stride) items

def storeFields (a : Analysis) (place : Place) (fields : List Field) (offset : Nat) :
    List Initializer → Piece
  | [] => .code []
  | item :: items =>
    match fields with
    | [] => .code []
    | f :: fields =>
      storeInitial a place (offset + f.slot) f.ty item ++ storeFields a place fields offset items

end

/-- The value leaves slots unmentioned. -/
def isSparse (ty : Ty) : Initializer → Bool
  | .list .. => true
  | .expr (.str ..) => ty.isArray
  | _ => false

def initObject (a : Analysis) (place : Place) (ty : Ty) (init : Initializer) : Piece :=
  let store := storeInitial a place 0 ty init
  if isSparse ty init then clear place (a.types.slots ty) ++ store else store

end IncrementalC.Lowering
