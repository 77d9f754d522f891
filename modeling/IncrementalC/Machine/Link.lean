import IncrementalC.Machine.Basic

/-!
# Linking a module

`Machine.link` gives the strings and objects of a module places in memory, fills in addresses that
are known, and defines the functions. An object that is defined anew with the same size keeps its
place.
-/
namespace IncrementalC
set_option autoImplicit false

namespace Machine

/-- The slots that a string literal takes, the zero at its end included. -/
def stringSlots (s : String) : Nat := s.utf8ByteSize + 1

/-- An object of this name and size has a place. -/
def hasObject (m : Machine) (g : CodeGlobal) : Bool :=
  match m.objects.get? g.name with
  | some place => place.slots == g.slots
  | none => false

/-- The slots that the strings and objects of a module take in addition. -/
def requestedSlots (m : Machine) (c : CodeModule) : Nat :=
  ((c.strings.toList.filter fun s => !m.strings.contains s).map stringSlots).foldr (· + ·) 0
    + ((c.globals.toList.filter fun g => !m.hasObject g).map (·.slots)).foldr (· + ·) 0

/-- The address of a string literal, which gets a place if it is new. -/
def internString (m : Machine) (s : String) : UInt64 × Machine :=
  match m.strings.get? s with
  | some p => (p, m)
  | none =>
    let p := (Address.global m.globals.size).encode
    let bytes := s.toUTF8.toList.map fun b => Value.int (Scalar.wrap .i8 (Int64.ofNat b.toNat))
    (p, { m with
          globals := m.globals ++ bytes ++ [Value.int 0]
          strings := m.strings.insert s p })

def internStrings (m : Machine) : List String → List UInt64 × Machine
  | [] => ([], m)
  | s :: ss =>
    let (p, m) := m.internString s
    let (ps, m) := m.internStrings ss
    (p :: ps, m)

/-- The place of an object, with zeros in it. -/
def placeObject (m : Machine) (g : CodeGlobal) : Nat × Machine :=
  let fresh : Nat × Machine :=
    let base := m.globals.size
    (base, { m with
             globals := m.globals ++ Array.replicate g.slots (Value.int 0)
             objects := m.objects.insert g.name ⟨base, g.slots⟩ })
  match m.objects.get? g.name with
  | some place =>
    if place.slots = g.slots then
      let zero (i : Nat) (_ : i < g.slots) (mem : Array Value) := mem.set! (place.base + i) (.int 0)
      (place.base, { m with globals := g.slots.fold zero m.globals })
    else fresh
  | none => fresh

def stringAddress (strings : Array UInt64) (i : Nat) : Except Fault UInt64 :=
  match strings[i]? with
  | some p => .ok p
  | none => .error (.missingString i)

def constValue (strings : Array UInt64) : CodeConst → Except Fault Value
  | .int v => .ok (.int v)
  | .float x => .ok (.float x)
  | .ptr p => .ok (.ptr p)
  | .str i => return .ptr (← stringAddress strings i)

/-! ## Steps -/

/-- What was linked before a fault stays. -/
abbrev Linking := EStateM Fault Machine

def liftFault {σ α : Type} (x : Except Fault α) : EStateM Fault σ α :=
  match x with
  | .ok a => return a
  | .error f => throw f

def defineObject (strings : Array UInt64) (g : CodeGlobal) : Linking Unit := do
  let base ← modifyGet (·.placeObject g)
  for (slot, c) in g.init do
    if g.slots ≤ slot then throw (.initialValueRange g.name)
    let v ← liftFault (constValue strings c)
    modify fun m => { m with globals := m.globals.set! (base + slot) v }

/-- Fills in the addresses that are known. Objects that are unknown yet are looked up at run time. -/
def patch (m : Machine) (strings : Array UInt64) : Instr → Except Fault Instr
  | .pushStr i => return .pushPtr (← stringAddress strings i)
  | .globalAddr name =>
    match m.objectAddress? name with
    | some p => .ok (.pushPtr p)
    | none => .ok (.globalAddr name)
  | i => .ok i

def defineFunction (strings : Array UInt64) (f : CodeFunction) : Linking Unit := do
  let m ← get
  let code ← liftFault (f.code.mapM (m.patch strings))
  modify fun m => { m with functions := m.functions.insert f.name { f with code } }

/-- Nothing is linked if a function exists already or the objects do not fit. -/
def accept (c : CodeModule) : Linking Unit := do
  let m ← get
  if let some f := c.functions.find? fun f => m.hasFunction f.name then
    throw (.duplicateFunction f.name)
  let requested := m.requestedSlots c
  if m.maxGlobals < m.globals.size + requested then
    throw (.globalMemory requested m.maxGlobals)

/-- Adds a module and returns the functions that have to run once, in order. -/
def link (c : CodeModule) : Linking (List String) := do
  accept c
  let strings ← modifyGet (·.internStrings c.strings.toList)
  let strings := strings.toArray
  for g in c.globals do
    defineObject strings g
  for f in c.functions do
    defineFunction strings f
  return c.initializers.toList

end Machine

end IncrementalC
