import IncrementalC.Analysis.State
import IncrementalC.Machine.Basic
import IncrementalC.Machine.Link
import IncrementalC.Proofs.Machine.Faults
import Mathlib.Data.List.Forall2

/-!
# Code that keeps its stack in order, and what linking keeps

* `Instr.takes`, `Instr.gives`: what an instruction without jumps does to the operand stack.
* `Instr.InOrder`: an instruction fits the heights of the stack before it and before its successors.
* `CodeFunction.Balanced`: heights can be given to all instructions of a function.
* `TableFits`: every function of a table is balanced and returns what its declaration says.

`Machine.Keeps T Q l`: the step `l` of the linker keeps a property `T` of the table of functions and leaves the active
functions, the stack and the operands alone; its faults are in `Q`. Linking replaces an instruction by one with the same effect,
so functions that fit are linked to functions that fit (`Machine.link_keeps`), whether or not the linking goes through.
-/
namespace IncrementalC
set_option autoImplicit false

/-- The functions that a program declares. -/
abbrev Signatures := String → Option FunctionSig

/-- The number of values that an expression of the type leaves. -/
def Ty.values (ty : Ty) : Nat := if ty.isVoid then 0 else 1

def FunctionSig.results (sig : FunctionSig) : Nat := sig.ret.values

def CodeFunction.results (f : CodeFunction) : Nat := if f.ret.isSome then 1 else 0

namespace Instr

def takes : Instr → Nat
  | .load _ | .dup | .pop | .convert .. | .unary .. | .incDec .. | .printValue _ => 1
  | .store _ | .copySlots _ | .binary .. | .ptrAdd _ | .ptrDiff _ => 2
  | .builtin _ argc => argc
  | _ => 0

def gives : Instr → Nat
  | .pop | .printValue _ => 0
  | .dup => 2
  | .builtin b _ => if b = .setResult then 0 else 1
  | _ => 1

/-- The stack is `h k` high before instruction `k`, in a function that leaves `results` values. -/
def InOrder (S : Signatures) (results : Nat) (h : Nat → Nat) (k : Nat) : Instr → Prop
  | .jump target => h target = h k
  | .jumpIfFalse target | .jumpIfTrue target => h k = h target + 1 ∧ h k = h (k + 1) + 1
  | .call name argc =>
    ∃ sig rest, S name = some sig ∧ h k = rest + argc ∧ h (k + 1) = rest + sig.results
  | .return => results = 1 ∧ 0 < h k
  | .returnVoid => results = 0
  | i => ∃ rest, h k = rest + i.takes ∧ h (k + 1) = rest + i.gives

/-- The instruction goes on to the next one in any case and calls no function. -/
def isStraight : Instr → Bool
  | .jump _ | .jumpIfFalse _ | .jumpIfTrue _ | .call .. | .return | .returnVoid => false
  | _ => true

theorem inOrder_of_isStraight {S : Signatures} {results k : Nat} {h : Nat → Nat} {i : Instr}
    (straight : i.isStraight) :
    i.InOrder S results h k ↔ ∃ rest, h k = rest + i.takes ∧ h (k + 1) = rest + i.gives := by
  cases i <;> first | exact Iff.rfl | cases straight

end Instr

/-- The instructions of `code` stand from `start` on. -/
def InOrder (S : Signatures) (results : Nat) (h : Nat → Nat) (start : Nat) (code : List Instr) :
    Prop :=
  ∀ (k : Nat) (i : Instr), code[k]? = some i → i.InOrder S results h (start + k)

theorem InOrder.nil {S : Signatures} {results start : Nat} {h : Nat → Nat} :
    InOrder S results h start [] := nofun

theorem InOrder.append {S : Signatures} {results start : Nat} {h : Nat → Nat} {c d : List Instr}
    (hc : InOrder S results h start c) (hd : InOrder S results h (start + c.length) d) :
    InOrder S results h start (c ++ d) := by
  intro k i found
  rw [List.getElem?_append] at found
  split at found
  · exact hc k i found
  · have here := hd (k - c.length) i found
    rwa [show start + c.length + (k - c.length) = start + k by omega] at here

theorem InOrder.single {S : Signatures} {results start : Nat} {h : Nat → Nat} {i : Instr}
    (hi : i.InOrder S results h start) : InOrder S results h start [i] := by
  intro k i' found
  cases k with
  | zero =>
    cases found
    exact hi
  | succ k => cases found

/-- Some heights fit, the stack being empty at first. -/
def CodeFunction.Balanced (S : Signatures) (f : CodeFunction) : Prop :=
  ∃ h : Nat → Nat, h 0 = 0 ∧ InOrder S f.results h 0 f.code.toList

/-- The code keeps its stack in order and agrees with the declaration of the function, if any. -/
structure CodeFunction.Fits (S : Signatures) (f : CodeFunction) : Prop where
  balanced : f.Balanced S
  declared : ∀ sig, S f.name = some sig → f.results = sig.results

/-- Every function of the table fits and stands under its name. -/
def TableFits (S : Signatures) (functions : NameMap CodeFunction) : Prop :=
  ∀ name f, functions.get? name = some f → f.name = name ∧ f.Fits S

theorem TableFits.empty {S : Signatures} : TableFits S {} := by
  intro name f found
  cases found

theorem TableFits.insert {S : Signatures} {functions : NameMap CodeFunction} {f : CodeFunction}
    (table : TableFits S functions) (hf : f.Fits S) : TableFits S (functions.insert f.name f) := by
  intro name g found
  rw [NameMap.get?_insert] at found
  split at found
  · rename_i same
    cases found
    exact ⟨same.symm, hf⟩
  · exact table name g found

theorem TableFits.erase {S : Signatures} {functions : NameMap CodeFunction} (name : String)
    (table : TableFits S functions) : TableFits S (functions.erase name) := by
  intro other g found
  rw [NameMap.get?_erase] at found
  split at found
  · cases found
  · exact table other g found

/-- Every function of the module fits. -/
def CodeModule.Fits (S : Signatures) (c : CodeModule) : Prop := ∀ f ∈ c.functions, f.Fits S

end IncrementalC

namespace IncrementalC.Machine
set_option autoImplicit false

variable {T : NameMap CodeFunction → Prop} {Q : Fault → Prop} {S : Signatures} {α β : Type}

/-! ## Steps of the linker -/

/-- What linking leaves alone. -/
structure Linked (T : NameMap CodeFunction → Prop) (m m' : Machine) : Prop where
  functions : T m'.functions
  frames : m'.frames = m.frames
  stack : m'.stack = m.stack
  operands : m'.operands = m.operands

theorem Linked.trans {m m' m'' : Machine} (h : Linked T m m') (h' : Linked T m' m'') : Linked T m m'' :=
  ⟨h'.functions, h'.frames.trans h.frames, h'.stack.trans h.stack, h'.operands.trans h.operands⟩

/-- What linking `m` may come to. -/
def LinkedTo (T : NameMap CodeFunction → Prop) (Q : Fault → Prop) (m : Machine) :
    EStateM.Result Fault Machine α → Prop
  | .ok _ m' => Linked T m m'
  | .error f m' => Linked T m m' ∧ Q f

def Keeps (T : NameMap CodeFunction → Prop) (Q : Fault → Prop) (l : Linking α) : Prop :=
  ∀ m : Machine, T m.functions → LinkedTo T Q m (l.run m)

namespace Keeps

theorem pure (x : α) : Keeps T Q (Pure.pure x : Linking α) := fun _ h => ⟨h, rfl, rfl, rfl⟩

/-- The second step may rely on what the first one gives. -/
theorem bind_given {l : Linking α} {f : α → Linking β} {M : α → Prop} (hl : Keeps T Q l)
    (given : ∀ m x m', l m = .ok x m' → M x) (hf : ∀ x, M x → Keeps T Q (f x)) : Keeps T Q (l >>= f) := by
  intro m table
  have first : LinkedTo T Q m (l m) := hl m table
  show LinkedTo T Q m (EStateM.bind l f m)
  unfold EStateM.bind
  cases run : l m with
  | error g m' =>
    rw [run] at first
    exact first
  | ok x m' =>
    rw [run] at first
    have second : LinkedTo T Q m' (f x m') := hf x (given m x m' run) m' first.functions
    dsimp only
    cases run' : f x m' with
    | error g m'' =>
      rw [run'] at second
      exact ⟨first.trans second.1, second.2⟩
    | ok y m'' =>
      rw [run'] at second
      exact first.trans second

theorem bind {l : Linking α} {f : α → Linking β} (hl : Keeps T Q l) (hf : ∀ x, Keeps T Q (f x)) :
    Keeps T Q (l >>= f) :=
  hl.bind_given (M := fun _ => True) (fun _ _ _ _ => trivial) fun x _ => hf x

theorem liftFault {x : Except Fault α} (hx : FaultsIn Q x) : Keeps T Q (liftFault x) := by
  intro m table
  cases x with
  | ok a => exact ⟨table, rfl, rfl, rfl⟩
  | error f => exact ⟨⟨table, rfl, rfl, rfl⟩, hx f rfl⟩

theorem throw {f : Fault} (h : Q f) : Keeps T Q (throw f : Linking α) :=
  fun _ table => ⟨⟨table, rfl, rfl, rfl⟩, h⟩

theorem modifyGet {f : Machine → α × Machine}
    (hf : ∀ m, T m.functions → Linked T m (f m).2) : Keeps T Q (modifyGet f : Linking α) :=
  fun m table => hf m table

theorem modify {f : Machine → Machine} (hf : ∀ m, T m.functions → Linked T m (f m)) :
    Keeps T Q (modify f : Linking Unit) :=
  fun m table => hf m table

theorem get : Keeps T Q (MonadState.get : Linking Machine) := fun _ table => ⟨table, rfl, rfl, rfl⟩

theorem forIn {l : List α} {f : α → Linking (ForInStep PUnit)} (hf : ∀ x ∈ l, Keeps T Q (f x)) :
    Keeps T Q (ForIn.forIn l PUnit.unit fun x _ => f x) := by
  induction l with
  | nil => exact pure _
  | cons x l ih =>
    rw [List.forIn_cons]
    refine bind (hf x List.mem_cons_self) fun r => ?_
    cases r with
    | done _ => exact pure _
    | yield _ => exact ih fun y hy => hf y (List.mem_cons_of_mem _ hy)

end Keeps

/-! ## Strings and objects -/

variable {m : Machine}

theorem internString_linked (table : T m.functions) (s : String) : Linked T m (m.internString s).2 := by
  unfold internString
  split <;> exact ⟨table, rfl, rfl, rfl⟩

theorem internStrings_linked (table : T m.functions) (ss : List String) : Linked T m (m.internStrings ss).2 := by
  induction ss generalizing m with
  | nil => exact ⟨table, rfl, rfl, rfl⟩
  | cons s ss ih =>
    have first := internString_linked table s
    exact first.trans (ih first.functions)

theorem length_internStrings (ss : List String) (m : Machine) : (m.internStrings ss).1.length = ss.length := by
  induction ss generalizing m with
  | nil => rfl
  | cons s ss ih => exact congrArg (· + 1) (ih _)

theorem placeObject_linked (table : T m.functions) (g : CodeGlobal) : Linked T m (m.placeObject g).2 := by
  unfold placeObject
  dsimp only
  split
  · split <;> exact ⟨table, rfl, rfl, rfl⟩
  · exact ⟨table, rfl, rfl, rfl⟩

/-- The only fault is that of a literal that is missing. -/
theorem faultsIn_stringAddress {strings : Array UInt64} {i : Nat} (h : strings.size ≤ i → Q (.missingString i)) :
    FaultsIn Q (stringAddress strings i) := by
  unfold stringAddress
  split
  · exact .ok _
  · exact .error (h (Array.getElem?_eq_none_iff.mp ‹_›))

theorem faultsIn_constValue {strings : Array UInt64} {c : CodeConst}
    (h : ∀ i, c = .str i → strings.size ≤ i → Q (.missingString i)) : FaultsIn Q (constValue strings c) := by
  cases c with
  | str i => exact .bind (faultsIn_stringAddress (h i rfl)) fun _ => .pure _
  | _ => exact .ok _

theorem keeps_defineObject {strings : Array UInt64} {g : CodeGlobal}
    (range : ∀ x ∈ g.init, g.slots ≤ x.1 → Q (.initialValueRange g.name))
    (literals : ∀ x ∈ g.init, ∀ i, x.2 = .str i → strings.size ≤ i → Q (.missingString i)) :
    Keeps T Q (defineObject strings g) := by
  unfold defineObject
  refine .bind (.modifyGet fun m table => placeObject_linked table g) fun base => ?_
  refine .bind (.forIn fun entry mem => ?_) fun _ => .pure _
  have stored : Keeps T Q (do
      let v ← Machine.liftFault (constValue strings entry.2)
      modify fun m => { m with globals := m.globals.set! (base + entry.1) v }
      Pure.pure (.yield PUnit.unit) : Linking (ForInStep PUnit)) :=
    .bind (.liftFault (faultsIn_constValue (literals entry mem))) fun v =>
      .bind (.modify fun m table => ⟨table, rfl, rfl, rfl⟩) fun _ => .pure _
  dsimp only
  split
  · exact .bind (.throw (range entry mem ‹_›)) fun _ => stored
  · exact stored

/-! ## Functions -/

theorem faultsIn_patch {strings : Array UInt64} {i : Instr}
    (h : ∀ k, i = .pushStr k → strings.size ≤ k → Q (.missingString k)) : FaultsIn Q (m.patch strings i) := by
  unfold patch
  split
  · exact .bind (faultsIn_stringAddress (h _ rfl)) fun _ => .pure _
  · split <;> exact .ok _
  · exact .ok _

/-- Addresses that are known are filled in, and all else stays. -/
theorem patch_cases {strings : Array UInt64} {i i' : Instr} (h : m.patch strings i = .ok i') :
    (∃ p, i' = .pushPtr p ∧ ((∃ k, i = .pushStr k) ∨ ∃ name, i = .globalAddr name)) ∨ i' = i ∧ ∀ k, i ≠ .pushStr k := by
  unfold patch at h
  split at h
  · rename_i n
    cases found : stringAddress strings n with
    | error f =>
      rw [found] at h
      cases h
    | ok p =>
      rw [found] at h
      cases h
      exact .inl ⟨p, rfl, .inl ⟨n, rfl⟩⟩
  · rename_i name
    split at h
    · cases h
      exact .inl ⟨_, rfl, .inr ⟨name, rfl⟩⟩
    · cases h
      exact .inr ⟨rfl, nofun⟩
  · rename_i other _
    cases h
    exact .inr ⟨rfl, other⟩

/-- A filled in address has the effect of one that is looked up. -/
theorem patch_inOrder {strings : Array UInt64} {i i' : Instr} (h : m.patch strings i = .ok i')
    {results k : Nat} {height : Nat → Nat} (inOrder : i.InOrder S results height k) :
    i'.InOrder S results height k := by
  obtain ⟨p, rfl, ⟨n, rfl⟩ | ⟨name, rfl⟩⟩ | ⟨rfl, -⟩ := patch_cases h
  · exact inOrder
  · exact inOrder
  · exact inOrder

theorem forall₂_of_mapM {ε : Type} {f : α → Except ε β} {xs : List α} {ys : List β} (h : xs.mapM f = .ok ys) :
    List.Forall₂ (fun x y => f x = .ok y) xs ys := by
  induction xs generalizing ys with
  | nil =>
    cases h
    exact .nil
  | cons x xs ih =>
    rw [List.mapM_cons] at h
    cases first : f x with
    | error e => rw [first] at h; cases h
    | ok y =>
      cases rest : xs.mapM f with
      | error e => rw [first, rest] at h; cases h
      | ok ys' =>
        rw [first, rest] at h
        cases h
        exact .cons first (ih rest)

section

variable {ε : Type} {f : α → Except ε β} {xs : Array α} {ys : Array β} {k : Nat}

/-- A map that goes through keeps the size, and maps what stands at an index to what stands there then. -/
theorem mapM_ok (h : xs.mapM f = .ok ys) : xs.size = ys.size ∧ ∀ (k : Nat) (hx : k < xs.size) (hy : k < ys.size),
    f xs[k] = .ok ys[k] := by
  rw [Array.mapM_eq_mapM_toList] at h
  cases mapped : xs.toList.mapM f with
  | error e => rw [mapped] at h; cases h
  | ok zs =>
    rw [mapped] at h
    cases h
    obtain ⟨size, steps⟩ := List.forall₂_iff_get.mp (forall₂_of_mapM mapped)
    exact ⟨size, fun k hx hy => steps k hx hy⟩

theorem getElem?_mapM (h : xs.mapM f = .ok ys) {x : α} (found : xs[k]? = some x) : ∃ y, ys[k]? = some y ∧ f x = .ok y := by
  obtain ⟨size, steps⟩ := mapM_ok h
  obtain ⟨inside, rfl⟩ := Array.getElem?_eq_some_iff.mp found
  exact ⟨ys[k], Array.getElem?_eq_getElem (size ▸ inside), steps k inside _⟩

theorem getElem?_of_mapM (h : xs.mapM f = .ok ys) {y : β} (found : ys[k]? = some y) : ∃ x, xs[k]? = some x ∧ f x = .ok y := by
  obtain ⟨size, steps⟩ := mapM_ok h
  obtain ⟨inside, rfl⟩ := Array.getElem?_eq_some_iff.mp found
  exact ⟨xs[k], Array.getElem?_eq_getElem (size ▸ inside), steps k _ inside⟩

end

theorem faultsIn_mapM {Q : Fault → Prop} {f : α → Except Fault β} {xs : List α} (hf : ∀ x ∈ xs, FaultsIn Q (f x)) :
    FaultsIn Q (xs.mapM f) := by
  induction xs with
  | nil => exact .ok _
  | cons x xs ih =>
    rw [List.mapM_cons]
    obtain ⟨first, rest⟩ := List.forall_mem_cons.mp hf
    exact .bind first fun _ => .bind (ih rest) fun _ => .pure _

/-- A function that fits still does when its addresses are filled in. -/
theorem fits_patched {strings : Array UInt64} {f : CodeFunction} {code : Array Instr}
    (h : f.code.mapM (m.patch strings) = .ok code) (fits : f.Fits S) :
    CodeFunction.Fits S { f with code } := by
  obtain ⟨height, start, inOrder⟩ := fits.balanced
  refine ⟨⟨height, start, fun k i found => ?_⟩, fits.declared⟩
  obtain ⟨i', found', step⟩ := getElem?_of_mapM h (by rwa [Array.getElem?_toList] at found)
  exact patch_inOrder step (inOrder k i' (by rwa [Array.getElem?_toList]))

theorem keeps_defineFunction {strings : Array UInt64} {f : CodeFunction}
    (literals : ∀ k, .pushStr k ∈ f.code → strings.size ≤ k → Q (.missingString k))
    (defines : ∀ (m : Machine) code, f.code.mapM (m.patch strings) = .ok code → T m.functions →
      T (m.functions.insert f.name { f with code })) : Keeps T Q (defineFunction strings f) := by
  intro m table
  have faults : FaultsIn Q (f.code.mapM (m.patch strings)) := by
    rw [Array.mapM_eq_mapM_toList]
    refine .map _ (faultsIn_mapM fun i mem => faultsIn_patch fun k same => ?_)
    rw [same] at mem
    exact literals k (Array.mem_toList_iff.mp mem)
  show LinkedTo T Q m ((do
    let code ← liftFault (f.code.mapM (m.patch strings))
    modify fun m => { m with functions := m.functions.insert f.name { f with code } } : Linking Unit) m)
  cases patched : f.code.mapM (m.patch strings) with
  | error g => exact ⟨⟨table, rfl, rfl, rfl⟩, faults g patched⟩
  | ok code => exact ⟨defines m code patched table, rfl, rfl, rfl⟩

/-! ## Modules -/

theorem keeps_accept {c : CodeModule} (duplicate : ∀ name, Q (.duplicateFunction name))
    (memory : ∀ requested limit, Q (.globalMemory requested limit)) : Keeps T Q (accept c) := by
  unfold accept
  refine .bind .get fun m => ?_
  have room : Keeps T Q (if m.maxGlobals < m.globals.size + m.requestedSlots c then
      throw (.globalMemory (m.requestedSlots c) m.maxGlobals) else Pure.pure () : Linking Unit) := by
    split
    · exact .throw (memory _ _)
    · exact .pure _
  dsimp only
  split
  · exact .bind (.throw (duplicate _)) fun _ => room
  · exact room

theorem keeps_link {c : CodeModule} (accepts : Keeps T Q (accept c))
    (objects : ∀ strings : Array UInt64, strings.size = c.strings.size → ∀ g ∈ c.globals, Keeps T Q (defineObject strings g))
    (functions : ∀ strings : Array UInt64, strings.size = c.strings.size → ∀ f ∈ c.functions,
      Keeps T Q (defineFunction strings f)) : Keeps T Q (link c) := by
  unfold link
  refine .bind accepts fun _ => ?_
  refine .bind_given (M := fun strings => strings.toArray.size = c.strings.size)
    (.modifyGet fun m table => internStrings_linked table _) (fun m x m' run => ?_) fun strings size => ?_
  · cases run
    rw [List.size_toArray, length_internStrings, Array.length_toList]
  · dsimp only
    rw [← Array.forIn_toList, ← Array.forIn_toList]
    refine .bind (.forIn fun g hg => ?_) fun _ => .bind (.forIn fun f hf => ?_) fun _ => .pure _
    · exact .bind (objects _ size g (Array.mem_toList_iff.mp hg)) fun _ => .pure _
    · exact .bind (functions _ size f (Array.mem_toList_iff.mp hf)) fun _ => .pure _

/-- Linking a module whose functions fit gives a table in which all functions fit. -/
theorem link_keeps {c : CodeModule} (fits : c.Fits S) : Keeps (TableFits S) (· ≠ .operandUnderflow) (link c) := by
  refine keeps_link (keeps_accept nofun nofun) (fun _ _ g _ => keeps_defineObject (fun _ _ _ => nofun) fun _ _ _ _ _ => nofun)
    fun strings _ f mem => keeps_defineFunction (fun _ _ _ => nofun) fun m code patched table => ?_
  exact TableFits.insert table (fits_patched patched (fits f mem))

/-! ## Modules that are linked -/

theorem bind_eq_ok {l : Linking α} {f : α → Linking β} {m m'' : Machine} {y : β}
    (h : (l >>= f) m = .ok y m'') : ∃ x m', l m = .ok x m' ∧ f x m' = .ok y m'' := by
  have h : EStateM.bind l f m = .ok y m'' := h
  unfold EStateM.bind at h
  split at h
  · exact ⟨_, _, ‹_›, h⟩
  · cases h

/-- A step for each part of a list, in order. -/
abbrev each (step : α → Linking Unit) (xs : List α) : Linking PUnit :=
  ForIn.forIn xs PUnit.unit fun x _ => do
    step x
    Pure.pure (.yield PUnit.unit)

theorem each_cons_ok {step : α → Linking Unit} {x : α} {xs : List α} {m m' : Machine}
    (h : each step (x :: xs) m = .ok PUnit.unit m') : ∃ m₁, step x m = .ok () m₁ ∧ each step xs m₁ = .ok PUnit.unit m' := by
  rw [each, List.forIn_cons] at h
  obtain ⟨_, m₁, first, rest⟩ := bind_eq_ok h
  obtain ⟨_, m₂, first, done⟩ := bind_eq_ok first
  cases done
  exact ⟨m₁, first, rest⟩

/-- The steps of a link that goes through. -/
theorem link_eq_ok {c : CodeModule} {names : List String} {m' : Machine} (h : link c m = .ok names m') :
    ∃ m₀ ps m₁ m₂, accept c m = .ok () m₀ ∧ m₀.internStrings c.strings.toList = (ps, m₁) ∧
      each (defineObject ps.toArray) c.globals.toList m₁ = .ok PUnit.unit m₂ ∧
      each (defineFunction ps.toArray) c.functions.toList m₂ = .ok PUnit.unit m' ∧ names = c.initializers.toList := by
  obtain ⟨_, m₀, accepted, h⟩ := bind_eq_ok h
  obtain ⟨ps, m₁, interned, h⟩ := bind_eq_ok h
  dsimp only at h
  rw [← Array.forIn_toList, ← Array.forIn_toList] at h
  obtain ⟨_, m₂, objects, h⟩ := bind_eq_ok h
  obtain ⟨_, m₃, functions, h⟩ := bind_eq_ok h
  cases h
  cases interned
  exact ⟨m₀, _, _, m₂, accepted, rfl, objects, functions, rfl⟩

theorem defineFunction_ok {strings : Array UInt64} {f : CodeFunction} {m' : Machine}
    (h : defineFunction strings f m = .ok () m') : ∃ code, f.code.mapM (m.patch strings) = .ok code ∧
      m' = { m with functions := m.functions.insert f.name { f with code } } := by
  obtain ⟨_, m₁, got, h⟩ := bind_eq_ok h
  cases got
  cases patched : f.code.mapM (m.patch strings) with
  | error e =>
    rw [patched] at h
    cases h
  | ok code =>
    rw [patched] at h
    cases h
    exact ⟨code, rfl, rfl⟩

/-! ## What is linked can be found -/

theorem defineFunctions_find {strings : Array UInt64} (fs : List CodeFunction) {m m' : Machine}
    (h : each (defineFunction strings) fs m = .ok PUnit.unit m') (name : String)
    (known : (∃ f ∈ fs, name = f.name) ∨ m.hasFunction name) : m'.hasFunction name := by
  induction fs generalizing m with
  | nil =>
    cases h
    exact known.resolve_left nofun
  | cons f fs ih =>
    obtain ⟨m₁, first, rest⟩ := each_cons_ok h
    have found (known : name = f.name ∨ m.hasFunction name) : m₁.hasFunction name := by
      obtain ⟨code, -, rfl⟩ := defineFunction_ok first
      unfold hasFunction NameMap.contains
      rw [NameMap.get?_insert]
      split
      · rfl
      · rename_i other
        exact known.resolve_left other
    refine ih rest ?_
    obtain ⟨g, hg, named⟩ | known := known
    · obtain rfl | later := List.mem_cons.mp hg
      · exact .inr (found (.inl named))
      · exact .inl ⟨g, later, named⟩
    · exact .inr (found (.inr known))

/-- The functions of a linked module can be called. -/
theorem link_finds {c : CodeModule} {m m' : Machine} {names : List String}
    (h : link c m = .ok names m') {f : CodeFunction} (hf : f ∈ c.functions) :
    m'.hasFunction f.name := by
  obtain ⟨_, _, _, _, -, -, -, defined, -⟩ := link_eq_ok h
  exact defineFunctions_find _ defined f.name (.inl ⟨f, Array.mem_toList_iff.mpr hf, rfl⟩)

/-! ## What a function is linked to -/

/-- `f'` is `f` with the addresses filled in that were known to some machine. -/
def LinkedAs (f f' : CodeFunction) : Prop :=
  ∃ (m : Machine) (strings : Array UInt64) (code : Array Instr),
    f.code.mapM (m.patch strings) = .ok code ∧ f' = { f with code }

theorem defineFunctions_links {strings : Array UInt64} (fs : List CodeFunction) {f : CodeFunction}
    {m m' : Machine} (h : each (defineFunction strings) (fs ++ [f]) m = .ok PUnit.unit m') :
    ∃ f', LinkedAs f f' ∧ m'.functions.get? f.name = some f' := by
  induction fs generalizing m with
  | nil =>
    obtain ⟨m₁, first, rest⟩ := each_cons_ok h
    cases rest
    obtain ⟨code, patched, rfl⟩ := defineFunction_ok first
    exact ⟨_, ⟨_, strings, code, patched, rfl⟩, (NameMap.get?_insert _ _ _ _).trans (if_pos rfl)⟩
  | cons g fs ih =>
    obtain ⟨m₁, first, rest⟩ := each_cons_ok h
    exact ih rest

/-- The last function of a module is the one that its name finds. -/
theorem link_last {c : CodeModule} {m m' : Machine} {names : List String} (h : link c m = .ok names m')
    {fs : Array CodeFunction} {f : CodeFunction} (last : c.functions = fs.push f) :
    ∃ f', LinkedAs f f' ∧ m'.functions.get? f.name = some f' := by
  obtain ⟨_, _, _, _, -, -, -, defined, -⟩ := link_eq_ok h
  rw [last, Array.toList_push] at defined
  exact defineFunctions_links _ defined

end IncrementalC.Machine
