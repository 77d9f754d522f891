import IncrementalC.Machine.Format

/-!
# Builtin functions of the library

`Machine.library` runs a builtin that the machine provides by itself: output, mathematics and
strings.
-/
namespace IncrementalC
set_option autoImplicit false

namespace Library

def argument (b : Builtin) (args : List Value) (i : Nat) : Except Fault Value :=
  match args[i]? with
  | some v => .ok v
  | none => .error (.missingArgument b)

/-- The absolute value of a 32-bit integer. -/
def abs32 (v : Int64) : Int64 := v.toInt32.abs.toInt64

end Library

/-- The value of a builtin, and what it writes. -/
def Machine.library (m : Machine) (b : Builtin) (args : List Value) :
    Except Fault (Value × String) := do
  let arg := Library.argument b args
  match b with
  | .printf =>
    let fmt ← m.text (← arg 0)
    let text ← m.format fmt args.tail
    return (.int (Int64.ofNat text.utf8ByteSize), text)
  | .puts => return (.int 0, (← m.text (← arg 0)) ++ "\n")
  | .putchar =>
    let c := Format.byteChar (← arg 0)
    return (.int (Int64.ofNat c.toNat), toString c)
  | .abs => return (.int (Library.abs32 (← arg 0).word), "")
  | .labs => return (.int (← arg 0).word.abs, "")
  | .fabs => return (.float (← arg 0).real.abs, "")
  | .sqrt => return (.float (← arg 0).real.sqrt, "")
  | .pow =>
    let x := (← arg 0).real
    return (.float (x.pow (← arg 1).real), "")
  | .floor => return (.float (← arg 0).real.floor, "")
  | .ceil => return (.float (← arg 0).real.ceil, "")
  | .strlen => return (.int (Int64.ofNat (← m.text (← arg 0)).utf8ByteSize), "")
  | .eval | .printValue | .setResult => throw (.notLibrary b)

end IncrementalC
