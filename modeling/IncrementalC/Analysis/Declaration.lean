import IncrementalC.Analysis.Initializer

/-!
# Analysing declarations

Each function enters the declared names and returns the analysed declaration. After a complaint the
names may be missing; the group is dropped then.
-/
namespace IncrementalC.Analyze
set_option autoImplicit false
open Typed (Expr Initializer VarDecl FunctionDecl Param Decl DeclKind)

/-! ## Variables -/

/-- A local object gets slots of the frame, or a name of its own if it outlives the call. -/
def localVar (isStatic : Bool) (v : VarDecl) (nameSpan : Span) : Analyze VarDecl := do
  let a ← get
  if a.scopes.head?.any (·.contains v.name) then
    report (.redefinition v.name) nameSpan
    return v
  match a.function with
  | none => return v
  | some f =>
    let constantInit := Typed.constantImage? a.types v.ty v.init
    if isStatic then
      let linkName := s!"__cinder_static_{f.name}_{v.name}"
      if constantInit.isNone then
        report .notConstant ((v.init.map Typed.Initializer.span).getD nameSpan)
      setLocal v.name (.var v.ty (.global linkName))
      return { v with storage := .static, linkName, constantInit }
    else
      let slot := f.nextSlot
      modify fun a =>
        { a with function := some { f with nextSlot := slot + a.types.stride v.ty % UInt32.size } }
      setLocal v.name (.var v.ty (.local slot))
      return { v with storage := .local slot, constantInit }

/-- A global object. Later declarations have to agree, and one of them may define it. -/
def globalVar (v : VarDecl) (nameSpan : Span) : Analyze VarDecl := do
  let types := (← get).types
  let constantInit := if v.isDefinition then Typed.constantImage? types v.ty v.init else none
  let v := { v with storage := .global, linkName := v.name, constantInit }
  match (← get).names.globals.get? v.name with
  | some (.var old _ defined) =>
    if old ≠ v.ty then
      report (.redefinitionOtherType v.name (← typeName v.ty) (← typeName old)) nameSpan
    else if defined && v.isDefinition then report (.redefinition v.name) nameSpan
    else setGlobal v.name (.var v.ty v.linkName v.isDefinition)
  | some _ => report (.redefinitionOtherKind v.name) nameSpan
  | none => setGlobal v.name (.var v.ty v.linkName v.isDefinition)
  return v

/-- Enters an object with its type and its analysed initial value. -/
def enterVar (storage : Syntax.Storage) (name : String) (ty : Ty) (init : Option Initializer)
    (nameSpan : Span) : Analyze VarDecl := do
  let isExtern := storage == .external
  let v : VarDecl :=
    { name, ty, init, storage := .global, linkName := "", isExtern, constantInit := none }
  if !isExtern && !(← get).types.isComplete ty then
    match ty with
    | .array _ none => report .unsizedArray nameSpan
    | _ => report (.incompleteVariable (← typeName ty)) nameSpan
    return v
  else if (← get).function.isSome && !isExtern then localVar (storage == .static) v nameSpan
  else globalVar v nameSpan

/-- A variable whose type its initial value gives. -/
def autoVar (storage : Syntax.Storage) (name : String) (nameSpan span : Span)
    (init : Option Syntax.Initializer) : Analyze VarDecl := do
  let failed (e : Option Initializer) : VarDecl :=
    { name, ty := .void, init := e, storage := .global, linkName := "", isExtern := false,
      constantInit := none }
  let deduce (e : Expr) (value : Initializer) : Analyze VarDecl := do
    if e.ty.isDependent then
      report (.autoFromUnknown name) e.span
      return failed (some value)
    else if e.ty.isVoid then
      report (.incompleteVariable "void") nameSpan
      return failed (some value)
    else enterVar storage name e.ty.decay (some value) nameSpan
  match init with
  | some (.expr e) =>
    let e ← expr e
    deduce e (.expr e)
  | some (.construct [e] s) =>
    let e ← expr e
    deduce e (.construct [e] s)
  | _ =>
    report (.autoWithoutValue name) span
    return failed none

def varDecl (spec : Syntax.DeclSpec) (name : String) (d : Syntax.Declarator)
    (init : Option Syntax.Initializer) (span : Span) : Analyze VarDecl := do
  if spec.base = .auto then autoVar spec.storage name d.span span init
  else
    let ty ← declaredType (← baseType spec) d
    let failed : VarDecl :=
      { name, ty := .void, init := none, storage := .global, linkName := "", isExtern := false,
        constantInit := none }
    if ty.isDependent then return failed
    else if ty.isVoid then
      report (.incompleteVariable "void") d.span
      return failed
    else
      match init with
      | none => enterVar spec.storage name ty none d.span
      | some init =>
        let (ty, value) ← initializer ty init
        enterVar spec.storage name ty (some value) d.span

/-! ## Functions -/

/-- Parameters, numbered from `slot` on. -/
def params (slot : Nat) : List Syntax.Param → Analyze (List Param)
  | [] => return []
  | .mk spec d span :: rest => do
    let ty := (← declaredType (← baseType spec) d).decay
    if ty.isVoid then report .voidParameter span
    return { name := d.name, ty, slot } :: (← params (slot + 1) rest)

/-- Enters a function. `none` if its body is not to be looked at. -/
def functionHead (spec : Syntax.DeclSpec) (name : String) (d : Syntax.Declarator) (externC : Bool)
    (hasBody : Bool) : Analyze (FunctionDecl × Bool) := do
  let ret := pointers d.pointers (← baseType spec)
  let f : FunctionDecl :=
    { name, ret, params := [], variadic := false, frameSlots := 0, externC := externC || spec.externC
      isStatic := spec.storage == .static, isInline := spec.isInline, headSpan := d.span }
  match d.suffixes with
  | [.function ps variadic] =>
    let ps ← params 0 ps
    let f := { f with params := ps, variadic }
    let sig : FunctionSig := ⟨ret, ps.map (·.ty), variadic⟩
    match (← get).names.globals.get? name with
    | some (.function old defined) =>
      if old ≠ sig then
        report (.conflictingTypes name) d.span
        return (f, false)
      else if defined && hasBody then
        report (.redefinition name) d.span
        return (f, false)
      else
        setGlobal name (.function sig (defined || hasBody))
        return (f, true)
    | some _ =>
      report (.redefinitionOtherKind name) d.span
      return (f, false)
    | none =>
      setGlobal name (.function sig hasBody)
      return (f, true)
  | _ =>
    report .returnsArray d.span
    return (f, false)

/-! ## Records, enumerations, typedefs -/

/-- Adds the fields of one specifier list to those before them. -/
def fields (base : Ty) : List Syntax.Declarator → List Field × Nat → Analyze (List Field × Nat)
  | [], acc => return acc
  | d :: ds, (before, slot) => do
    let ty ← declaredType base d
    let name := d.name.getD ""
    if ty.isDependent then fields base ds (before, slot)
    else if !(← get).types.isComplete ty then
      report (.incompleteField (← typeName ty)) d.span
      fields base ds (before, slot)
    else if before.any (·.name == name) then
      report (.duplicateMember name) d.span
      fields base ds (before, slot)
    else fields base ds (before ++ [⟨name, ty, slot⟩], slot + (← get).types.slots ty)

def fieldDecls : List Syntax.FieldDecl → List Field × Nat → Analyze (List Field)
  | [], (before, _) => return before
  | fd :: fds, acc => do
    let base ← baseType fd.spec
    fieldDecls fds (← fields base fd.declarators acc)

def recordDecl (kind : Syntax.RecordKind) (name : String)
    (fds : Option (List Syntax.FieldDecl)) (span : Span) : Analyze DeclKind := do
  let decl (id : Option RecordId) : DeclKind := .record (kind == .class) name id fds.isSome
  let define (id : RecordId) : Analyze DeclKind := do
    match fds with
    | none => return decl (some id)
    | some fds =>
      if ((← get).types.record? id).any (·.complete) then report (.redefinition name) span
      else defineRecord id ⟨name, ← fieldDecls fds ([], 0), true⟩
      return decl (some id)
  match (← get).names.tags.get? name with
  | some (.record id) => define id
  | some .enum =>
    report (.recordWasEnum name) span
    return decl none
  | none => define (← newRecord name)

/-- Enters enumerators; one without a value follows the one before it. -/
def enumerators (ty : Ty) : Int64 → List Syntax.Enumerator → Analyze (List (String × Int64))
  | _, [] => return []
  | next, v :: vs => do
    let value ← match v.value with
      | none => pure next
      | some e => do
        let e ← expr e
        match (Typed.constant? (← get).types e).bind (·.word?) with
        | some value => pure value
        | none =>
          report .enumeratorNotConstant e.span
          pure next
    let a ← get
    if a.function.isSome then setLocal v.name (.enumConst value ty)
    else if a.names.globals.contains v.name then report (.redefinition v.name) v.span
    else setGlobal v.name (.enumConst value ty)
    return (v.name, value) :: (← enumerators ty (value + 1) vs)

def enumDecl (name : Option String) (variants : List Syntax.Enumerator) (span : Span) :
    Analyze DeclKind := do
  match name with
  | none => return .enum none (← enumerators .signedInt 0 variants)
  | some tag =>
    if (← get).names.tags.contains tag then
      report (.redefinition tag) span
      return .enum name []
    else
      setTag tag .enum
      return .enum name (← enumerators (.enum tag) 0 variants)

def typedefDecl (spec : Syntax.DeclSpec) (name : String) (d : Syntax.Declarator) (span : Span) :
    Analyze DeclKind := do
  let ty ← declaredType (← baseType spec) d
  let a ← get
  if a.function.isSome then setLocal name (.typedef ty)
  else match a.names.globals.get? name with
    | some (.typedef old) =>
      if old ≠ ty then report (.typedefConflict (← typeName ty) (← typeName old)) span
    | some _ => report (.redefinitionOtherKind name) span
    | none => setGlobal name (.typedef ty)
  return .typedef name ty

/-! ## Groups -/

def declKind (spec : Syntax.DeclSpec) (d : Syntax.Decl) : Analyze DeclKind := do
  match d.kind with
  | .var name declarator init => return .var (← varDecl spec name declarator init d.span)
  | .function name declarator externC =>
    return .function (← functionHead spec name declarator externC false).1
  | .record kind name fds => recordDecl kind name fds d.span
  | .enum name variants => enumDecl name variants d.span
  | .typedef name declarator => typedefDecl spec name declarator d.span

def decls (spec : Syntax.DeclSpec) : List Syntax.Decl → Analyze (List Decl)
  | [] => return []
  | d :: ds => do
    let kind ← declKind spec d
    return ⟨kind, d.span⟩ :: (← decls spec ds)

def declGroup (g : Syntax.DeclGroup) : Analyze Typed.DeclGroup :=
  return { decls := ← decls g.spec g.decls, span := g.span }

end IncrementalC.Analyze
