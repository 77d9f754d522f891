import IncrementalC.Code.Instr
import IncrementalC.Text.Document

/-!
# Modules as documents

`CodeModule.document` is the form in which a module is emitted.
-/
namespace IncrementalC
set_option autoImplicit false
open Document

def Scalar.document (k : Scalar) : Document := .str k.name

/-- The name under which emitted modules list a builtin. -/
def Builtin.label : Builtin → String
  | .printf => "Printf" | .puts => "Puts" | .putchar => "Putchar" | .abs => "Abs"
  | .labs => "Labs" | .fabs => "Fabs" | .sqrt => "Sqrt" | .pow => "Pow" | .floor => "Floor"
  | .ceil => "Ceil" | .strlen => "Strlen" | .eval => "Eval" | .printValue => "PrintValue"
  | .setResult => "SetResult"

mutual

def PrintShape.document : PrintShape → Document
  | .scalar label kind => shape "Scalar" [("label", .str label), ("kind", kind.document)]
  | .char label kind => shape "Char" [("label", .str label), ("kind", kind.document)]
  | .cString label => shape "CString" [("label", .str label)]
  | .pointer label => shape "Pointer" [("label", .str label)]
  | .array label elem length stride =>
    shape "Array" [("label", .str label), ("elem", elem.document), ("len", .int length),
      ("stride", .int stride)]
  | .record label fields =>
    shape "Record" [("label", .str label), ("fields", .list (PrintShape.fieldDocuments fields))]
  | .enum label => shape "Enum" [("label", .str label)]
  | .dynamic => .str "Dynamic"
where
  shape (name : String) (fields : List (String × Document)) : Document := tagged name (.object fields)

def PrintShape.fieldDocuments : List (String × Nat × PrintShape) → List Document
  | [] => []
  | (name, slot, s) :: fields =>
    .list [.str name, .int slot, s.document] :: PrintShape.fieldDocuments fields

end

def Instr.document : Instr → Document
  | .pushInt v => tagged "PushInt" (.int v.toInt)
  | .pushFloat x => tagged "PushFloat" (.float x)
  | .pushPtr p => tagged "PushPtr" (.int p.toNat)
  | .pushStr i => tagged "PushStr" (.int i)
  | .localAddr slot => tagged "LocalAddr" (.int slot)
  | .globalAddr name => tagged "GlobalAddr" (.str name)
  | .load kind => tagged "Load" kind.document
  | .store kind => tagged "Store" kind.document
  | .copySlots n => tagged "CopySlots" (.int n)
  | .dup => .str "Dup"
  | .pop => .str "Pop"
  | .convert source target =>
    tagged "Convert" (.object [("from", source.document), ("to", target.document)])
  | .binary op kind => tagged "Binary" (.object [("op", .str op.name), ("kind", kind.document)])
  | .unary op kind => tagged "Unary" (.object [("op", .str op.name), ("kind", kind.document)])
  | .ptrAdd stride => tagged "PtrAdd" (.int stride.toInt)
  | .ptrDiff stride => tagged "PtrDiff" (.int stride.toInt)
  | .incDec kind amount post =>
    tagged "IncDec" (.object
      [("kind", kind.document), ("amount", .int amount.toInt), ("post", .bool post)])
  | .jump t => tagged "Jump" (.int t)
  | .jumpIfFalse t => tagged "JumpIfFalse" (.int t)
  | .jumpIfTrue t => tagged "JumpIfTrue" (.int t)
  | .call name argc => tagged "Call" (.object [("name", .str name), ("argc", .int argc)])
  | .builtin b argc => tagged "Builtin" (.object [("builtin", .str b.label), ("argc", .int argc)])
  | .printValue s => tagged "PrintValue" s.document
  | .return => .str "Return"
  | .returnVoid => .str "ReturnVoid"

def CodeConst.document : CodeConst → Document
  | .int v => tagged "Int" (.int v.toInt)
  | .float x => tagged "Float" (.float x)
  | .ptr p => tagged "Ptr" (.int p.toNat)
  | .str i => tagged "Str" (.int i)

def CodeGlobal.document (g : CodeGlobal) : Document :=
  .object
    [("name", .str g.name), ("slots", .int g.slots),
     ("init", .list (g.init.map fun (slot, c) => .list [.int slot, c.document]))]

def CodeFunction.document (f : CodeFunction) : Document :=
  .object
    [("name", .str f.name), ("params", .list (f.params.map (·.document))),
     ("ret", ofOption Scalar.document f.ret), ("frame_slots", .int f.frameSlots),
     ("code", .list (f.code.toList.map (·.document)))]

def CodeModule.document (m : CodeModule) : Document :=
  .object
    [("globals", .list (m.globals.toList.map (·.document))),
     ("functions", .list (m.functions.toList.map (·.document))),
     ("strings", Document.strings m.strings.toList),
     ("initializers", Document.strings m.initializers.toList)]

end IncrementalC
