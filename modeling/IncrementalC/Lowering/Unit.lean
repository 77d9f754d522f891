import IncrementalC.Lowering.Initializer

/-!
# Code of statements and declarations

A statement becomes a `Block`: instructions and, inside a loop, marks for the jumps that leave its
body. The loop puts jumps in their places as soon as its own end is known.

`lower a t m` adds the code of an analysed group to a module. Objects with a constant initial value
become data. Any other initial value becomes a function that runs once after linking.
-/
namespace IncrementalC.Lowering
set_option autoImplicit false
open Typed (Expr DeclGroup Stmt)

/-! ## Blocks -/

inductive Step where
  | instr (i : Instr)
  /-- A jump behind the loop. -/
  | leave
  /-- A jump to the next round of the loop. -/
  | again

def Step.resolve (stop next : Nat) : Step → Instr
  | .instr i => i
  | .leave => .jump stop
  | .again => .jump next

/-- The code of a statement whose first instruction stands at the given position. -/
def Block := Nat → Gen (List Step)

namespace Block

def ofPiece (p : Piece) : Block := fun start => return (← p start).map .instr

def append (p q : Block) : Block := fun start => do
  let first ← p start
  return first ++ (← q (start + first.length))

instance : Append Block := ⟨append⟩

def empty : Block := fun _ => return []

/-- A single mark. -/
def mark (step : Step) : Block := fun _ => return [step]

end Block

/-! ## Control flow -/

def ifThen (cond : Piece) (yes : Block) : Block := fun start => do
  let c ← cond start
  let y ← yes (start + c.length + 1)
  return c.map .instr ++ .instr (.jumpIfFalse (start + c.length + 1 + y.length)) :: y

def ifElse (cond : Piece) (yes no : Block) : Block := fun start => do
  let c ← cond start
  let y ← yes (start + c.length + 1)
  let other := start + c.length + 1 + y.length + 1
  let n ← no other
  return c.map .instr ++ .instr (.jumpIfFalse other) :: y ++ .instr (.jump (other + n.length)) :: n

def whileLoop (cond : Piece) (body : Block) : Piece := fun start => do
  let c ← cond start
  let b ← body (start + c.length + 1)
  let stop := start + c.length + 1 + b.length + 1
  return c ++ .jumpIfFalse stop :: b.map (·.resolve stop start) ++ [.jump start]

def doLoop (body : Block) (cond : Piece) : Piece := fun start => do
  let b ← body start
  let next := start + b.length
  let c ← cond next
  let stop := next + c.length + 1
  return b.map (·.resolve stop next) ++ c ++ [.jumpIfTrue start]

/-- The rounds of a `for` loop; without a condition they do not end by themselves. -/
def forLoop (cond : Option Piece) (body : Block) (step : Piece) : Piece := fun start => do
  let c ← match cond with
    | some cond => cond start
    | none => pure []
  let first := start + c.length + (if cond.isSome then 1 else 0)
  let b ← body first
  let next := first + b.length
  let s ← step next
  let stop := next + s.length + 1
  let exit := if cond.isSome then [Instr.jumpIfFalse stop] else []
  return c ++ exit ++ b.map (·.resolve stop next) ++ s ++ [.jump start]

/-! ## Statements -/

/-- Adds an object to the module. -/
def addGlobal (a : Analysis) (v : Typed.VarDecl) (image : List (Nat × Constant)) : Gen Unit := do
  let init ← image.mapM fun (slot, c) => return (slotWord slot, ← constant c)
  modify (·.addGlobal ⟨v.linkName, slotWord (a.types.stride v.ty), init⟩)
where
  constant : Constant → Gen CodeConst
    | .int v => return .int v
    | .bool b => return .int (boolWord b)
    | .float x => return .float x
    | .ptr p => return .ptr p
    | .str s => return .str (← intern s)

/-- The initial values of local objects. Objects that last get theirs in the module. -/
def localDecls (a : Analysis) : List Typed.Decl → Piece
  | [] => .code []
  | d :: ds =>
    (match d.kind with
    | .var v =>
      match v.storage, v.init with
      | .static, _ => .gen do
        addGlobal a v (v.constantInit.getD [])
        return []
      | .local slot, some init => initObject a (.local slot) v.ty init
      | _, _ => .code []
    | _ => .code []) ++ localDecls a ds

mutual

/-- The code of a statement in a function that returns `ret`; `inLoop` if a loop is around it. -/
def statement (a : Analysis) (ret : Ty) (inLoop : Bool) : Stmt → Block
  | .null _ => .empty
  | .expr _ e => .ofPiece (discard e.ty (rvalue a e))
  | .decl _ group => .ofPiece (localDecls a group.decls)
  | .compound _ stmts => statements a ret inLoop stmts
  | .ifThen _ c yes => ifThen (rvalue a c) (statement a ret inLoop yes)
  | .ifElse _ c yes no => ifElse (rvalue a c) (statement a ret inLoop yes) (statement a ret inLoop no)
  | .while _ c body => .ofPiece (whileLoop (rvalue a c) (statement a ret true body))
  | .doWhile _ body c => .ofPiece (doLoop (statement a ret true body) (rvalue a c))
  | .for _ init c step body =>
    let first : Piece := match init with
      | .none => .code []
      | .decl _ group => localDecls a group.decls
      | .expr _ e => discard e.ty (rvalue a e)
    let step : Piece := match step with
      | some e => discard e.ty (rvalue a e)
      | none => .code []
    .ofPiece (first ++ forLoop (c.map (rvalue a)) (statement a ret true body) step)
  | .break n => if inLoop then .mark .leave else fun _ => fail (.jumpOutsideLoop "break") n.span
  | .continue n =>
    if inLoop then .mark .again else fun _ => fail (.jumpOutsideLoop "continue") n.span
  | .return _ (some e) => .ofPiece (rvalue a e ++ .code (convert e.ty ret ++ [.return]))
  | .return _ none => .mark (.instr .returnVoid)

def statements (a : Analysis) (ret : Ty) (inLoop : Bool) : List Stmt → Block
  | [] => .empty
  | s :: ss => statement a ret inLoop s ++ statements a ret inLoop ss

end

/-! ## Declarations -/

/-- What stands behind the body of a function. -/
def ending : Option Scalar → List Instr
  | none => [.returnVoid]
  | some kind => [.pushInt 0, .convert .i64 kind, .return]

def function (a : Analysis) (f : Typed.FunctionDecl) (body : Typed.Stmt) : Gen CodeFunction := do
  let params ← f.params.mapM fun p => need p.ty.scalar? .structArgument f.headSpan
  let ret ←
    if f.ret.isVoid then pure none
    else some <$> need f.ret.scalar? .structResult f.headSpan
  let steps ← statement a f.ret false body 0
  let code := steps.map (·.resolve 0 0) ++ ending ret
  return { name := f.name, params, ret, frameSlots := f.frameSlots, code := code.toArray }

def initializerName (linkName : String) : String := s!"__cinder_init_{linkName}"

def global (a : Analysis) (v : Typed.VarDecl) : Gen Unit := do
  addGlobal a v (v.constantInit.getD [])
  if let (none, some init) := (v.constantInit, v.init) then
    let code ← initObject a (.global v.linkName) v.ty init 0
    let name := initializerName v.linkName
    modify fun m =>
      let m := m.addFunction
        { name, params := [], ret := none, frameSlots := 0, code := (code ++ [Instr.returnVoid]).toArray }
      { m with initializers := m.initializers.push name }

def declaration (a : Analysis) (d : Typed.Decl) : Gen Unit := do
  if let .var v := d.kind then
    if v.isDefinition then global a v

end IncrementalC.Lowering

namespace IncrementalC
set_option autoImplicit false

/-- Adds the code of a group to a module. -/
def lower (a : Analysis) (t : Typed.TopLevel) (m : CodeModule) : Except LoweringError CodeModule :=
  Prod.snd <$> (group.run m)
where
  group : Gen Unit := do
    t.group.decls.forM (Lowering.declaration a)
    if let (some f, some body) := (t.function?, t.body) then
      let code ← Lowering.function a f body
      modify (·.addFunction code)

end IncrementalC
