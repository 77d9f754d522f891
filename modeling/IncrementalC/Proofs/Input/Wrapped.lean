import IncrementalC.Input.Wrapping

/-!
# What has to run, runs once and in order

`share` says for one statement alone what it adds at the top and what it gives to run, with no
candidate carried along. `Adds m p`: the step `m` puts the share `p` behind what a state has, where
`State.with` holds the last thing to run back as the candidate. With one such lemma for each part of
a declaration, the state after any statements is known from their shares (`Follows`), and so is the
unit that they come to (`Assembled`).
-/
namespace IncrementalC.Wrapping
set_option autoImplicit false
open Typed

/-! ## What a statement contributes on its own -/

/-- Declarations for the top, and what runs. -/
structure Share where
  globals : List String := []
  runs : List Candidate := []

namespace Share

def all (ps : List Share) : Share := ⟨ps.flatMap (·.globals), ps.flatMap (·.runs)⟩

def append (p q : Share) : Share := ⟨p.globals ++ q.globals, p.runs ++ q.runs⟩

end Share

/-- The text of something: printed if its statement has changed, otherwise from the sources. -/
def Context.text (c : Context) (dirty : Bool) (span : Span) (printed : Printer → String) :
    Except Span String :=
  if dirty then .ok (printed { types := c.types })
  else (c.sources.slice? span).elim (.error span) .ok

mutual

/-- What an initial value assigns, element by element: the target and the value. -/
def assigned (types : TypeTable) (target : String) (ty : Ty) : Initializer → List (String × Expr)
  | .expr e => [(target, e)]
  | .construct args _ => (args.head?.map fun e => (target, e)).toList
  | .list items _ =>
    match ty with
    | .array elem _ => assignedElements types target elem 0 items
    | .record id => assignedFields types target ((types.record? id).elim [] (·.fields)) items
    | _ =>
      match items with
      | [] => []
      | item :: _ => assigned types target ty item

def assignedElements (types : TypeTable) (target : String) (elem : Ty) (index : Nat) :
    List Initializer → List (String × Expr)
  | [] => []
  | item :: items => assigned types s!"{target}[{index}]" elem item ++
      assignedElements types target elem (index + 1) items

def assignedFields (types : TypeTable) (target : String) (fields : List Field) :
    List Initializer → List (String × Expr)
  | [] => []
  | item :: items =>
    match fields with
    | [] => []
    | f :: fields => assigned types s!"{target}.{f.name}" f.ty item ++
        assignedFields types target fields items

end

/-- An assignment of its own for each value. -/
def assignments (c : Context) (dirty : Bool) (values : List (String × Expr)) :
    Except Span (List Candidate) :=
  values.mapM fun (target, e) => do
    return .expr s!"{target} = {← c.text dirty e.span (·.expr e)}" true

/-- The head of the declaration of an object. -/
def head (c : Context) (v : VarDecl) : String :=
  (if v.isExtern then "extern " else "") ++ c.types.declare v.ty v.name

/-- An object keeps an initial value that needs no code, and arguments of a constructor. Any other
value is assigned. -/
def varShare (c : Context) (dirty : Bool) (v : VarDecl) : Except Span Share := do
  match v.init with
  | none | some (.construct [] _) => return { globals := [head c v ++ ";"] }
  | some (.construct (e :: es) span) =>
    let args ← c.text dirty span (·.initializer (.construct (e :: es) span))
    return { globals := [head c v ++ args ++ ";"] }
  | some (.expr e) =>
    let value ← c.text dirty e.span (·.expr e)
    if v.constantInit.isSome && !dirty then return { globals := [s!"{head c v} = {value};"] }
    else return { globals := [head c v ++ ";"], runs := [.expr s!"{v.name} = {value}" true] }
  | some (.list items span) =>
    let runs ← assignments c dirty (assigned c.types v.name v.ty (.list items span))
    return { globals := [head c v ++ ";"], runs }

def declShare (c : Context) (dirty : Bool) (d : Decl) : Except Span Share := do
  match d.kind with
  | .var v => varShare c dirty v
  | .record .. | .enum .. => return { globals := [(← c.text dirty d.span (·.decl d)) ++ ";"] }
  | .function _ | .typedef .. => return { globals := [Printer.decl { types := c.types } d ++ ";"] }

/-- A declaration that is alone and not of an object stands at the top as it is. -/
def groupShare (c : Context) (dirty : Bool) (g : DeclGroup) : Except Span Share := do
  match g.decls with
  | [d] =>
    match d.kind with
    | .var v => varShare c dirty v
    | _ => return { globals := [← c.text dirty g.span (·.group g)] }
  | ds => return .all (← ds.mapM (declShare c dirty))

def share (c : Context) (s : Stmt) : Except Span Share := do
  let dirty := c.dirty.contains s.node.id
  match s with
  | .null _ => return {}
  | .expr _ e => return { runs := [.expr (← c.text dirty e.span (·.expr e)) (!e.ty.isVoid)] }
  | .decl _ g => groupShare c dirty g
  | s => return { runs := [.stmt (← c.text dirty s.node.span (·.stmt 0 s))] }

/-! ## Holding the last one back -/

/-- The state with the declarations and the runs of a share behind its own. -/
def State.with (s : State) (p : Share) : State :=
  let runs := s.candidate.toList ++ p.runs
  { globals := s.globals ++ p.globals.toArray
    body := s.body ++ (runs.dropLast.map (·.text)).toArray
    candidate := runs.getLast? }

theorem State.with_empty (s : State) : s.with {} = s := by
  rcases s with ⟨globals, body, candidate⟩
  cases candidate <;> simp [State.with]

theorem dropLast_append_getLast? {α : Type} (xs ys : List α) :
    xs.dropLast ++ (xs.getLast?.toList ++ ys).dropLast = (xs ++ ys).dropLast := by
  rcases List.eq_nil_or_concat xs with rfl | ⟨init, last, rfl⟩
  · simp
  · cases ys with
    | nil => simp
    | cons y ys => simp [List.dropLast_append_of_ne_nil]

theorem getLast?_append_getLast? {α : Type} (xs ys : List α) :
    (xs.getLast?.toList ++ ys).getLast? = (xs ++ ys).getLast? := by
  rcases List.eq_nil_or_concat xs with rfl | ⟨init, last, rfl⟩
  · simp
  · simp [List.getLast?_append, List.getLast?_cons]

theorem dropLast_append_last {α : Type} (xs : List α) : xs.dropLast ++ xs.getLast?.toList = xs := by
  rcases List.eq_nil_or_concat xs with rfl | ⟨init, last, rfl⟩ <;> simp

theorem State.with_append (s : State) (p q : Share) : (s.with p).with q = s.with (p.append q) := by
  have rest := dropLast_append_getLast? (s.candidate.toList ++ p.runs) q.runs
  have last := getLast?_append_getLast? (s.candidate.toList ++ p.runs) q.runs
  rw [List.append_assoc] at rest last
  simp only [State.with, Share.append, State.mk.injEq]
  refine ⟨by simp, ?_, last⟩
  rw [← rest, Array.append_assoc, List.map_append]
  exact congrArg (s.body ++ ·) (List.append_toArray _ _)

/-! ## Steps -/

/-- The step puts a share behind what is there, or fails as the share does. -/
def Adds (m : Wrap Unit) (p : Except Span Share) : Prop :=
  ∀ s : State, m.run s = p.map fun p => ((), s.with p)

namespace Adds

theorem nothing : Adds (pure ()) (.ok {}) := by
  intro s
  show Except.ok ((), s) = .ok ((), s.with {})
  rw [s.with_empty]

theorem addGlobal (text : String) : Adds (addGlobal text) (.ok { globals := [text] }) := by
  rintro ⟨globals, body, candidate⟩
  cases candidate <;> rfl

theorem setCandidate (x : Candidate) : Adds (setCandidate x) (.ok { runs := [x] }) := by
  rintro ⟨globals, body, candidate⟩
  cases candidate <;> rfl

/-- One step after the other. -/
theorem andThen {m n : Wrap Unit} {p q : Except Span Share} (hm : Adds m p) (hn : Adds n q) :
    Adds (do m; n) (do return (← p).append (← q)) := by
  intro s
  show (m.run s >>= fun r => n.run r.2) = _
  rw [hm s]
  cases p with
  | error span => rfl
  | ok p =>
    show n.run (s.with p) = _
    rw [hn]
    cases q with
    | error span => rfl
    | ok q => exact congrArg (fun s => Except.ok ((), s)) (s.with_append p q)

theorem textOf {c : Context} {dirty : Bool} {span : Span} {printed : Printer → String}
    {f : String → Wrap Unit} {g : String → Except Span Share} (h : ∀ text, Adds (f text) (g text)) :
    Adds (textOf c dirty span printed >>= f) (c.text dirty span printed >>= g) := by
  intro s
  unfold Wrapping.textOf Context.text slice
  cases dirty with
  | true => exact h _ s
  | false =>
    cases found : c.sources.slice? span with
    | none => rfl
    | some text => exact h text s

/-- A step and then nothing but what the share says. -/
theorem congr {m : Wrap Unit} {p q : Except Span Share} (h : Adds m p) (same : p = q) : Adds m q :=
  same ▸ h

end Adds

/-! ## Initial values -/

/-- What a list of values adds. -/
def assignedShare (c : Context) (dirty : Bool) (values : List (String × Expr)) : Except Span Share := do
  return { runs := ← assignments c dirty values }

theorem assignedShare_append (c : Context) (dirty : Bool) (xs ys : List (String × Expr)) :
    (do return (← assignedShare c dirty xs).append (← assignedShare c dirty ys)) =
      assignedShare c dirty (xs ++ ys) := by
  unfold assignedShare assignments
  rw [List.mapM_append]
  simp only [bind_assoc, pure_bind]
  rfl

theorem adds_assign (c : Context) (dirty : Bool) (target : String) (e : Expr) :
    Adds (do assign target (← exprText c dirty e)) (assignedShare c dirty [(target, e)]) := by
  refine (Adds.textOf fun text => Adds.setCandidate _).congr ?_
  unfold assignedShare assignments
  rw [List.mapM_cons, List.mapM_nil]
  dsimp only
  cases c.text dirty e.span (·.expr e) <;> rfl

mutual

theorem adds_assignInitial (c : Context) (dirty : Bool) (target : String) (ty : Ty) :
    ∀ init : Initializer, Adds (assignInitial c dirty target ty init)
      (assignedShare c dirty (assigned c.types target ty init))
  | .expr e => by
    unfold assignInitial assigned
    exact adds_assign c dirty target e
  | .construct args _ => by
    unfold assignInitial assigned
    cases args with
    | nil => exact .nothing
    | cons e _ => exact adds_assign c dirty target e
  | .list items _ => by
    unfold assignInitial assigned
    cases ty with
    | array elem length => exact adds_assignElements c dirty target elem 0 items
    | record id =>
      dsimp only
      have same : ((c.types.record? id).map (·.fields)).getD [] =
          (c.types.record? id).elim [] (·.fields) := by
        cases c.types.record? id <;> rfl
      rw [same]
      exact adds_assignFields c dirty target _ items
    | _ =>
      cases items with
      | nil => exact .nothing
      | cons item _ => exact adds_assignInitial c dirty target _ item

theorem adds_assignElements (c : Context) (dirty : Bool) (target : String) (elem : Ty) (index : Nat) :
    ∀ items : List Initializer, Adds (assignElements c dirty target elem index items)
      (assignedShare c dirty (assignedElements c.types target elem index items))
  | [] => by
    unfold assignElements assignedElements
    exact .nothing
  | item :: items => by
    unfold assignElements assignedElements
    rw [← assignedShare_append]
    exact (adds_assignInitial c dirty _ elem item).andThen
      (adds_assignElements c dirty target elem (index + 1) items)

theorem adds_assignFields (c : Context) (dirty : Bool) (target : String) (fields : List Field) :
    ∀ items : List Initializer, Adds (assignFields c dirty target fields items)
      (assignedShare c dirty (assignedFields c.types target fields items))
  | [] => by
    unfold assignFields assignedFields
    exact .nothing
  | item :: items => by
    unfold assignFields assignedFields
    cases fields with
    | nil => exact .nothing
    | cons f fields =>
      dsimp only
      rw [← assignedShare_append]
      exact (adds_assignInitial c dirty _ f.ty item).andThen
        (adds_assignFields c dirty target fields items)

end

/-! ## Declarations -/

theorem adds_var (c : Context) (dirty : Bool) (v : VarDecl) :
    Adds (var c dirty v) (varShare c dirty v) := by
  have declared : (if v.isExtern then "extern " ++ c.types.declare v.ty v.name
      else c.types.declare v.ty v.name) = head c v := by
    unfold head
    cases v.isExtern with
    | true => rfl
    | false => exact String.empty_append.symm
  unfold var varShare
  dsimp only
  rw [declared]
  cases v.init with
  | none => exact .addGlobal _
  | some init =>
    cases init with
    | construct args span =>
      cases args with
      | nil => exact .addGlobal _
      | cons e es => exact .textOf fun text => .addGlobal _
    | expr e =>
      refine .textOf fun text => ?_
      cases v.constantInit.isSome && !dirty with
      | true => exact .addGlobal _
      | false => exact (Adds.addGlobal _).andThen (Adds.setCandidate _)
    | list items span =>
      refine ((Adds.addGlobal _).andThen (adds_assignInitial c dirty v.name v.ty _)).congr ?_
      dsimp only
      unfold assignedShare
      cases assignments c dirty (assigned c.types v.name v.ty (.list items span)) <;> rfl

theorem adds_decl (c : Context) (dirty : Bool) (d : Decl) :
    Adds (decl c dirty d) (declShare c dirty d) := by
  unfold decl declShare
  cases d.kind with
  | var v => exact adds_var c dirty v
  | function f => exact .addGlobal _
  | record isClass name id defines => exact .textOf fun text => .addGlobal _
  | enum name variants => exact .textOf fun text => .addGlobal _
  | typedef name ty => exact .addGlobal _

theorem adds_decls (c : Context) (dirty : Bool) (ds : List Decl) :
    Adds (ds.forM (decl c dirty)) (do return .all (← ds.mapM (declShare c dirty))) := by
  induction ds with
  | nil => exact .nothing
  | cons d ds ih =>
    refine ((adds_decl c dirty d).andThen ih).congr ?_
    rw [List.mapM_cons]
    simp only [bind_assoc, pure_bind]
    rfl

theorem adds_declGroup (c : Context) (dirty : Bool) (g : DeclGroup) :
    Adds (declGroup c dirty g) (groupShare c dirty g) := by
  unfold declGroup groupShare
  match g.decls with
  | [] => exact .nothing
  | [⟨kind, span⟩] =>
    cases kind with
    | var v => exact adds_var c dirty v
    | function f => exact .textOf fun text => .addGlobal _
    | record isClass name id defines => exact .textOf fun text => .addGlobal _
    | enum name variants => exact .textOf fun text => .addGlobal _
    | typedef name ty => exact .textOf fun text => .addGlobal _
  | d :: d' :: ds =>
    exact adds_decls c dirty (d :: d' :: ds)

/-! ## Statements -/

/-- A declaration lets what was held back run. -/
def isDeclaration : Stmt → Bool
  | .decl .. => true
  | _ => false

/-- Nothing is held back any more. -/
def State.flushed (s : State) : State :=
  { s with body := s.body ++ (s.candidate.toList.map (·.text)).toArray, candidate := none }

/-- The state with a statement and its share behind what it has. -/
def State.behind (s : State) (d : Stmt × Share) : State :=
  (if isDeclaration d.1 then s.flushed else s).with d.2

theorem stmt_adds (c : Context) (s : Stmt) (st : State) :
    (stmt c s).run st = (share c s).map fun p => ((), st.behind (s, p)) := by
  have keeps {m : Wrap Unit} {p : Except Span Share} (h : Adds m p) (other : isDeclaration s = false) :
      m.run st = p.map fun p => ((), st.behind (s, p)) := by
    rw [h st]
    simp [State.behind, other]
  unfold stmt share
  cases s with
  | null node => exact keeps .nothing rfl
  | expr node e => exact keeps (.textOf fun text => .setCandidate _) rfl
  | decl node g =>
    have flushed : flush.run st = .ok ((), st.flushed) := by
      rcases st with ⟨globals, body, candidate⟩
      cases candidate with
      | none => simp [flush, State.flushed]; rfl
      | some x => rfl
    show (flush.run st >>= fun r => (declGroup c _ g).run r.2) = _
    rw [flushed]
    exact adds_declGroup c _ g st.flushed
  | _ => exact keeps (.textOf fun text => .setCandidate _) rfl

/-- What the statements run. -/
def runs (done : List (Stmt × Share)) : List Candidate := done.flatMap (·.2.runs)

/-- Nothing has to run, or a declaration behind the last statement that has something to run lets it
run. -/
def Ended (done : List (Stmt × Share)) : Prop :=
  runs done = [] ∨ ∃ before d after, done = before ++ d :: after ∧ isDeclaration d.1 ∧
    ∀ p ∈ d :: after, p.2.runs = []

theorem runs_concat (done : List (Stmt × Share)) (d : Stmt × Share) :
    runs (done ++ [d]) = runs done ++ d.2.runs := by
  simp [runs]

theorem ended_concat (done : List (Stmt × Share)) (d : Stmt × Share) :
    Ended (done ++ [d]) ↔ d.2.runs = [] ∧ (isDeclaration d.1 ∨ Ended done) := by
  unfold Ended
  rw [runs_concat]
  constructor
  · rintro (none | ⟨before, d', after, split, declares, silent⟩)
    · obtain ⟨earlier, own⟩ := List.append_eq_nil_iff.mp none
      exact ⟨own, .inr (.inl earlier)⟩
    · rcases List.eq_nil_or_concat after with rfl | ⟨after, last, rfl⟩
      · obtain ⟨rfl, rfl⟩ := List.append_inj' split rfl |>.imp_right (List.cons.inj · |>.1)
        exact ⟨silent d List.mem_cons_self, .inl declares⟩
      · rw [List.concat_eq_append, ← List.cons_append, ← List.append_assoc] at split
        obtain ⟨rfl, rfl⟩ := List.append_inj' split rfl |>.imp_right (List.cons.inj · |>.1)
        refine ⟨silent d (by simp), .inr (.inr ⟨before, d', after, rfl, declares, ?_⟩)⟩
        exact fun p hp => silent p (by simpa [or_assoc] using Or.inl (List.mem_cons.mp hp))
  · rintro ⟨own, declares | none | ⟨before, d', after, rfl, declares, silent⟩⟩
    · exact .inr ⟨done, d, [], rfl, declares, by simpa using own⟩
    · exact .inl (by rw [none, own]; rfl)
    · refine .inr ⟨before, d', after ++ [d], by simp, declares, fun p hp => ?_⟩
      rw [← List.cons_append] at hp
      rcases List.mem_append.mp hp with earlier | last
      · exact silent p earlier
      · rw [List.mem_singleton.mp last]
        exact own

/-- The state is what the statements and their shares come to. -/
structure Follows (s : State) (done : List (Stmt × Share)) : Prop where
  globals : s.globals.toList = done.flatMap (·.2.globals)
  texts : s.body.toList ++ s.candidate.toList.map (·.text) = (runs done).map (·.text)
  last : ∀ {x : Candidate}, s.candidate = some x → (runs done).getLast? = some x
  ended : s.candidate = none ↔ Ended done

theorem Follows.start : Follows {} [] :=
  ⟨rfl, rfl, nofun, ⟨fun _ => .inl rfl, fun _ => rfl⟩⟩

/-- To let run what is held back changes neither what runs nor the order. -/
theorem Follows.released {s : State} {done : List (Stmt × Share)} (h : Follows s done) (d : Stmt) :
    ∃ s', (if isDeclaration d then s.flushed else s) = s' ∧ s'.globals = s.globals ∧
      s'.body.toList ++ s'.candidate.toList.map (·.text) = (runs done).map (·.text) ∧
      (∀ {x : Candidate}, s'.candidate = some x → (runs done).getLast? = some x) ∧
      (s'.candidate = none ↔ isDeclaration d ∨ Ended done) := by
  refine ⟨_, rfl, ?_⟩
  cases isDeclaration d with
  | true => exact ⟨rfl, by simpa [State.flushed] using h.texts, nofun, by simp [State.flushed]⟩
  | false => exact ⟨rfl, h.texts, h.last, by simpa using h.ended⟩

theorem Follows.behind {s : State} {done : List (Stmt × Share)} (h : Follows s done)
    (d : Stmt × Share) : Follows (s.behind d) (done ++ [d]) := by
  obtain ⟨s', released, globals, texts, last, ended⟩ := h.released d.1
  have all := dropLast_append_last (s'.candidate.toList ++ d.2.runs)
  unfold State.behind
  rw [released]
  constructor
  case globals => simp [State.with, globals, h.globals]
  case texts =>
    rw [runs_concat, List.map_append, ← texts, List.append_assoc, ← List.map_append, ← all]
    simp [State.with]
  case last =>
    intro x held
    have held : (s'.candidate.toList ++ d.2.runs).getLast? = some x := held
    rw [List.getLast?_append] at held
    rw [runs_concat, List.getLast?_append]
    cases own : d.2.runs.getLast? with
    | some y =>
      rw [own] at held
      exact held
    | none =>
      rw [own] at held
      refine last ?_
      cases kept : s'.candidate with
      | none =>
        rw [kept] at held
        exact held
      | some y =>
        rw [kept] at held
        exact held
  case ended =>
    rw [ended_concat, ← ended]
    simp [State.with]

theorem forM_adds (c : Context) (stmts : List Stmt) (st : State) :
    (stmts.forM (stmt c)).run st =
      (stmts.mapM (share c)).map fun ps => ((), (stmts.zip ps).foldl State.behind st) := by
  induction stmts generalizing st with
  | nil => rfl
  | cons s stmts ih =>
    show ((stmt c s).run st >>= fun r => (stmts.forM (stmt c)).run r.2) = _
    rw [stmt_adds, List.mapM_cons]
    cases share c s with
    | error span => rfl
    | ok p =>
      show (stmts.forM (stmt c)).run (st.behind (s, p)) = _
      rw [ih]
      cases stmts.mapM (share c) <;> rfl

theorem follows_all (stmts : List (Stmt × Share)) {s : State} {done : List (Stmt × Share)}
    (h : Follows s done) : Follows (stmts.foldl State.behind s) (done ++ stmts) := by
  induction stmts generalizing s done with
  | nil => simpa using h
  | cons d stmts ih => simpa using ih (h.behind d)

/-! ## The unit -/

/-- The unit is what the statements and their shares come to. Of what runs, the last comes without its
semicolon and in a call that prints it, if it has a value and values are printed. -/
structure Assembled (c : Context) (done : List (Stmt × Share)) (w : WrappedInput) : Prop where
  globals : w.globals = done.flatMap (·.2.globals)
  whole : w.final = none → w.body = (runs done).map (·.text)
  split : ∀ {text : String}, w.final = some text → ∃ earlier last, runs done = earlier ++ [last] ∧
    w.body = earlier.map (·.text) ∧
    ((∃ value, last = .expr value true ∧ c.prints ∧ text = "__cinder_print_value(" ++ value ++ ");") ∨
      ((∀ value, last ≠ .expr value true) ∨ ¬ c.prints) ∧ text = last.text)
  final : w.final = none ↔ Ended done
  entry : w.entry = if runs done = [] then none else some c.entryName

theorem Follows.assembled {c : Context} {s : State} {done : List (Stmt × Share)} (h : Follows s done) :
    Assembled c done (s.finish c) := by
  have texts := h.texts
  constructor
  case globals => exact h.globals
  case whole =>
    intro absent
    have absent : s.candidate = none := by simpa [State.finish] using absent
    simpa [absent, State.finish] using texts
  case split =>
    intro text final
    obtain ⟨last, held, rfl⟩ : ∃ x, s.candidate = some x ∧ x.finalText c.prints = text := by
      simpa [State.finish] using final
    obtain ⟨earlier, split⟩ := List.getLast?_eq_some_iff.mp (h.last held)
    refine ⟨earlier, last, split, ?_, ?_⟩
    · rw [held, split] at texts
      simpa [State.finish] using texts
    · cases last with
      | stmt text => exact .inr ⟨.inl nofun, rfl⟩
      | expr value printable =>
        cases printable with
        | false => exact .inr ⟨.inl nofun, rfl⟩
        | true =>
          cases prints : c.prints with
          | true => exact .inl ⟨value, rfl, rfl, rfl⟩
          | false => exact .inr ⟨.inr nofun, rfl⟩
  case final =>
    rw [← h.ended]
    simp [State.finish]
  case entry =>
    have silent : runs done = [] ↔ s.body = #[] ∧ s.candidate = none := by
      rw [← List.map_eq_nil_iff, ← texts, List.append_eq_nil_iff]
      cases s.candidate <;> simp
    by_cases nothing : s.body = #[] ∧ s.candidate = none
    · simp [State.finish, silent, nothing]
    · rw [if_neg fun h => nothing (silent.mp h)]
      refine if_neg ?_
      simpa [and_comm] using nothing

/-- The statements of an input are wrapped exactly if each of them has its text. Nothing that any of
them contributes on its own is lost, doubled or moved: what is declared and what runs stand in the
order of the source. -/
theorem wrapped_in_order (c : Context) (stmts : List Stmt) :
    (∀ span, stmts.mapM (share c) = .error span → wrap c stmts = .error span) ∧
    ∀ shares, stmts.mapM (share c) = .ok shares →
      ∃ w, wrap c stmts = .ok w ∧ Assembled c (stmts.zip shares) w := by
  unfold wrap
  rw [forM_adds]
  constructor
  · intro span missing
    rw [missing]
    rfl
  · intro shares found
    rw [found]
    exact ⟨_, rfl, (follows_all (stmts.zip shares) .start).assembled⟩

end IncrementalC.Wrapping
