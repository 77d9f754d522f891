import IncrementalC.Source.Span

/-!
# What the analysis complains about

`Problem` lists the causes, with the types concerned as they are spelt; `Problem.message` words
them.
-/
namespace IncrementalC
set_option autoImplicit false

/-- What a value is used for when its type does not fit. -/
inductive Use where
  | initializing | assigning | passing | returning
deriving DecidableEq, Repr

def Use.words : Use → String
  | .initializing => "initializing"
  | .assigning => "assigning to"
  | .passing => "passing"
  | .returning => "returning"

inductive Problem where
  -- types
  | autoType
  | unknownType (name : String)
  | tagKind (name : String)
  | undeclaredEnum (name : String)
  | functionType
  | arraySizeType (ty : String)
  | negativeArraySize
  | variableArraySize
  -- variables
  | autoWithoutValue (name : String)
  | autoFromUnknown (name : String)
  | incompleteVariable (ty : String)
  | unsizedArray
  | redefinitionOtherType (name new old : String)
  | redefinition (name : String)
  | redefinitionOtherKind (name : String)
  | notConstant
  -- functions, records, enumerations, typedefs
  | returnsArray
  | voidParameter
  | conflictingTypes (name : String)
  | incompleteResult (ty : String)
  | recordWasEnum (name : String)
  | incompleteField (ty : String)
  | duplicateMember (name : String)
  | enumeratorNotConstant
  | typedefConflict (new old : String)
  -- initial values
  | stringTooLong
  | arrayNeedsList
  | excessElements (target : String)
  | noConstructor (ty : String)
  -- statements
  | jumpOutsideLoop (word : String)
  | conditionType (ty : String)
  | valueFromVoid (function : String)
  | missingResult (function : String)
  -- names
  | typeAsExpression (name : String)
  | functionAsValue (name : String)
  | builtinAsValue (name : String)
  | undeclared (name : String)
  -- operators
  | sizeofUnknown
  | sizeofIncomplete (ty : String)
  | unaryOperand (ty : String)
  | derefVoid
  | derefOperand (ty : String)
  | addressOfRvalue
  | notAssignable
  | binaryOperands (a b : String)
  | arrayAssignment (ty : String)
  | conditionNotScalar
  | branchTypes (a b : String)
  | subscriptedType
  | subscriptIndex
  | subscriptVoid
  | arrowOnValue (ty : String)
  | dotOnPointer (ty : String)
  | memberOfNonRecord (ty : String)
  | noMember (field ty : String)
  | castTarget (ty : String)
  | castOperand (ty : String)
  | castBetween (source target : String)
  -- calls
  | calleeNotName
  | calledType (ty : String)
  | oneArgument (name : String)
  | scalarArgument (name : String)
  | voidArgument
  | tooFewArguments (name : String) (expected given : Nat)
  | tooManyArguments (name : String) (expected given : Nat)
  | recordAsVariadic
  -- conversions
  | integerToPointer (use : Use) (target source : String)
  | pointerToInteger (use : Use) (target source : String)
  | incompatible (use : Use) (target source : String)
  | unknownTo (ty : String)
deriving DecidableEq, Repr

namespace Problem

def message : Problem → String
  | autoType => "'auto' not allowed here"
  | unknownType name => s!"unknown type name '{name}'"
  | tagKind name => s!"use of '{name}' with tag type that does not match previous declaration"
  | undeclaredEnum name => s!"use of undeclared enum '{name}'"
  | functionType => "function type is not allowed here"
  | arraySizeType ty => s!"size of array has non-integer type '{ty}'"
  | negativeArraySize => "array size is negative"
  | variableArraySize => "variable length arrays are not supported"
  | autoWithoutValue name =>
    s!"declaration of variable '{name}' with deduced type 'auto' requires an initializer"
  | autoFromUnknown name =>
    s!"cannot deduce the type of '{name}' from an initializer resolved at run time"
  | incompleteVariable ty => s!"variable has incomplete type '{ty}'"
  | unsizedArray =>
    "definition of variable with array type needs an explicit size or an initializer"
  | redefinitionOtherType name new old =>
    s!"redefinition of '{name}' with a different type: '{new}' vs '{old}'"
  | redefinition name => s!"redefinition of '{name}'"
  | redefinitionOtherKind name => s!"redefinition of '{name}' as different kind of symbol"
  | notConstant => "initializer element is not a compile-time constant"
  | returnsArray => "function cannot return array type"
  | voidParameter => "parameter has incomplete type 'void'"
  | conflictingTypes name => s!"conflicting types for '{name}'"
  | incompleteResult ty => s!"incomplete result type '{ty}' in function definition"
  | recordWasEnum name => s!"'{name}' was previously declared as an enum"
  | incompleteField ty => s!"field has incomplete type '{ty}'"
  | duplicateMember name => s!"duplicate member '{name}'"
  | enumeratorNotConstant => "expression is not an integral constant expression"
  | typedefConflict new old => s!"typedef redefinition with different types ('{new}' vs '{old}')"
  | stringTooLong => "initializer-string for char array is too long"
  | arrayNeedsList => "array initializer must be an initializer list or string literal"
  | excessElements target => s!"excess elements in {target} initializer"
  | noConstructor ty => s!"no matching constructor for initialization of '{ty}'"
  | jumpOutsideLoop word => s!"'{word}' statement not in loop statement"
  | conditionType ty => s!"statement requires expression of scalar type ('{ty}' invalid)"
  | valueFromVoid function => s!"void function '{function}' should not return a value"
  | missingResult function => s!"non-void function '{function}' should return a value"
  | typeAsExpression name => s!"unexpected type name '{name}': expected expression"
  | functionAsValue name => s!"reference to function '{name}' must be called"
  | builtinAsValue name => s!"builtin function '{name}' must be called"
  | undeclared name => s!"use of undeclared identifier '{name}'"
  | sizeofUnknown =>
    "invalid application of 'sizeof' to an expression resolved at run time"
  | sizeofIncomplete ty => s!"invalid application of 'sizeof' to an incomplete type '{ty}'"
  | unaryOperand ty => s!"invalid argument type '{ty}' to unary expression"
  | derefVoid => "indirection requires pointer to complete type ('void *' invalid)"
  | derefOperand ty => s!"indirection requires pointer operand ('{ty}' invalid)"
  | addressOfRvalue => "cannot take the address of an rvalue"
  | notAssignable => "expression is not assignable"
  | binaryOperands a b => s!"invalid operands to binary expression ('{a}' and '{b}')"
  | arrayAssignment ty => s!"array type '{ty}' is not assignable"
  | conditionNotScalar => "used type where arithmetic or pointer type is required"
  | branchTypes a b => s!"incompatible operand types ('{a}' and '{b}')"
  | subscriptedType => "subscripted value is not an array or pointer"
  | subscriptIndex => "array subscript is not an integer"
  | subscriptVoid => "subscript of pointer to incomplete type 'void'"
  | arrowOnValue ty => s!"member reference type '{ty}' is not a pointer"
  | dotOnPointer ty =>
    s!"member reference type '{ty}' is a pointer; did you mean to use '->'?"
  | memberOfNonRecord ty => s!"member reference base type '{ty}' is not a structure"
  | noMember field ty => s!"no member named '{field}' in '{ty}'"
  | castTarget ty => s!"used type '{ty}' where arithmetic or pointer type is required"
  | castOperand ty => s!"operand of type '{ty}' where arithmetic or pointer type is required"
  | castBetween source target => s!"cannot cast from '{source}' to '{target}'"
  | calleeNotName =>
    "called object is not a function; function pointers are not supported"
  | calledType ty => s!"called object type '{ty}' is not a function"
  | oneArgument name => s!"'{name}' takes exactly one argument"
  | scalarArgument name => s!"'{name}' requires a scalar argument"
  | voidArgument => "argument type 'void' is incomplete"
  | tooFewArguments name expected given =>
    s!"too few arguments to function call '{name}', expected {expected}, have {given}"
  | tooManyArguments name expected given =>
    s!"too many arguments to function call '{name}', expected {expected}, have {given}"
  | recordAsVariadic => "cannot pass a structure through variadic arguments"
  | integerToPointer use target source =>
    s!"incompatible integer to pointer conversion {use.words} '{target}' from '{source}'"
  | pointerToInteger use target source =>
    s!"incompatible pointer to integer conversion {use.words} '{target}' from '{source}'"
  | incompatible use target source =>
    s!"{use.words} '{target}' from incompatible type '{source}'"
  | unknownTo ty => s!"cannot convert a value resolved at run time to '{ty}'"

end Problem

structure AnalysisError where
  problem : Problem
  span : Span
deriving DecidableEq, Repr

def AnalysisError.message (e : AnalysisError) : String := e.problem.message

end IncrementalC
