import IncrementalC.Source.SourceMap

/-!
# Committed text stays where it is

`addAll` adds pieces of text one after another. `add_cases` says once what an addition does: the last
buffer, or a fresh one, has room, and the piece is written behind its text. `Holds m added` describes
the map by the pieces that went into it; an addition preserves it, and `Stays` says what an addition
leaves alone.
-/
namespace IncrementalC
set_option autoImplicit false

namespace Source.Buffer

/-! ## Room -/

theorem le_roundToChunk (bytes : Nat) : bytes ≤ roundToChunk bytes := by
  unfold roundToChunk chunk
  omega

/-- The buffer with `text` behind its text, in the storage that it has. -/
def written (b : Buffer) (text : String) : Buffer :=
  { b with data := (b.bytes ++ text.toUTF8).push terminator }

theorem append_of_fits {b : Buffer} {text : String} (h : b.fits text.utf8ByteSize) :
    b.append text = .ok (b.written text, b.size, b.size + text.utf8ByteSize) := by
  have room : ¬ b.capacity < b.storedSize + text.utf8ByteSize :=
    Nat.not_lt.mpr (of_decide_eq_true h)
  simp [append, written, room]

theorem withCapacity_fits (name : String) (bytes : Nat) :
    (withCapacity name bytes).register.fits bytes := by
  have room := le_roundToChunk (bytes + 1)
  exact decide_eq_true (by simpa [withCapacity, register, storedSize, Nat.add_comm] using room)

/-! ## What a buffer stores -/

/-- The buffer stores `text` and the terminator. -/
def Stores (b : Buffer) (text : String) : Prop := b.data = text.toByteArray.push terminator

theorem extract_append_of_le {x y : ByteArray} (start : Nat) {stop : Nat} (h : stop ≤ x.size) :
    (x ++ y).extract start stop = x.extract start stop := by
  have past : stop - x.size = 0 := Nat.sub_eq_zero_of_le h
  have nothing : y.extract (start - x.size) 0 = ByteArray.empty := by
    rw [ByteArray.extract_eq_empty_iff]
    omega
  rw [ByteArray.extract_append, past, nothing, ByteArray.append_empty]

variable {b : Buffer} {text : String}

theorem Stores.size_eq (h : b.Stores text) : b.size = text.utf8ByteSize := by
  unfold Stores at h
  simp [size, storedSize, h]

/-- What lies before the terminator is the text. -/
theorem Stores.extract_eq (h : b.Stores text) (start : Nat) {stop : Nat}
    (inside : stop ≤ text.utf8ByteSize) :
    b.data.extract start stop = text.toByteArray.extract start stop := by
  rw [h, ← ByteArray.append_toByteArray_singleton]
  exact extract_append_of_le start inside

theorem Stores.bytes_eq (h : b.Stores text) : b.bytes = text.toByteArray := by
  unfold bytes
  rw [h.size_eq, h.extract_eq 0 (Nat.le_refl _)]
  exact ByteArray.extract_zero_size

theorem Stores.text?_eq (h : b.Stores text) (start stop : Nat) :
    b.text? start stop = if text.utf8ByteSize < stop ∨ stop < start then none
      else String.fromUTF8? (text.toByteArray.extract start stop) := by
  unfold text?
  rw [h.size_eq]
  split
  · rfl
  · rename_i inside
    rw [h.extract_eq start (by omega)]

theorem withCapacity_stores (name : String) (bytes : Nat) :
    (withCapacity name bytes).register.Stores "" := by
  simp [Stores, withCapacity, register]

theorem Stores.written (h : b.Stores text) (more : String) :
    (b.written more).Stores (text ++ more) := by
  simp [Stores, Buffer.written, h.bytes_eq]

/-- The storage is the same, and what could be read still can. -/
structure Kept (b b' : Buffer) : Prop where
  capacity : b'.capacity = b.capacity
  registered : b'.registered = b.registered
  reads : ∀ {start stop : Nat} {part : String}, b.text? start stop = some part →
    b'.text? start stop = some part

theorem Kept.refl (b : Buffer) : b.Kept b := ⟨rfl, rfl, id⟩

theorem Kept.trans {b₁ b₂ b₃ : Buffer} (h : b₁.Kept b₂) (h' : b₂.Kept b₃) : b₁.Kept b₃ :=
  ⟨h'.capacity.trans h.capacity, h'.registered.trans h.registered, fun read => h'.reads (h.reads read)⟩

theorem Stores.kept (h : b.Stores text) (more : String) : b.Kept (b.written more) := by
  refine ⟨rfl, rfl, fun {start stop part} read => ?_⟩
  rw [h.text?_eq] at read
  rw [(h.written more).text?_eq, String.utf8ByteSize_append, String.toByteArray_append]
  split at read
  · cases read
  · rename_i inside
    have before : stop ≤ text.toByteArray.size := by
      rw [String.size_toByteArray]
      omega
    rw [if_neg (by omega), extract_append_of_le start before]
    exact read

/-- The text that was written last is read back. -/
theorem Stores.text?_written (h : b.Stores text) (more : String) :
    (b.written more).text? b.size (b.size + more.utf8ByteSize) = some more := by
  rw [(h.written more).text?_eq, h.size_eq, String.utf8ByteSize_append, if_neg (by omega),
    String.toByteArray_append, ByteArray.extract_append_eq_right String.size_toByteArray.symm (by simp)]
  exact dif_pos more.isValidUTF8

end Source.Buffer

namespace SourceMap
open Source

/-! ## An addition -/

/-- The map with a buffer `b` that `text` was written to, as a fragment called `name`. -/
def withPiece (m : SourceMap) (rest : Array Buffer) (b : Buffer) (name text : String) : SourceMap where
  buffers := rest.push (b.written text)
  fragments := m.fragments.push ⟨name, rest.size, b.size, b.size + text.utf8ByteSize⟩

/-- The buffer that a text goes to is the last one or a fresh one, and the text fits. -/
theorem target_cases (m : SourceMap) (size : Nat) :
    ∃ rest b, m.target size = { m with buffers := rest.push b } ∧ b.fits size ∧
      (m.buffers = rest.push b ∨
        m.buffers = rest ∧ ∃ name, b = (Buffer.withCapacity name size).register) := by
  unfold target
  split
  · rename_i room
    cases last : m.buffers.back? with
    | none => simp [last] at room
    | some b =>
      rw [last] at room
      obtain ⟨rest, same⟩ := Array.back?_eq_some_iff.mp last
      exact ⟨rest, b, by rw [← same], room, .inl same⟩
  · exact ⟨m.buffers, _, rfl, Buffer.withCapacity_fits _ size, .inr ⟨rfl, _, rfl⟩⟩

theorem add_eq (m : SourceMap) (name text : String) :
    ∃ rest b, (m.target text.utf8ByteSize).buffers = rest.push b ∧
      m.add name text =
        .ok ((m.target text.utf8ByteSize).withPiece rest b name text, m.fragments.size) := by
  obtain ⟨rest, b, target, fits, _⟩ := m.target_cases text.utf8ByteSize
  refine ⟨rest, b, by rw [target], ?_⟩
  unfold add
  simp [target, Buffer.append_of_fits fits, withPiece, bind, Except.bind, pure, Except.pure]

/-! ## What an addition leaves alone -/

/-- Each fragment and each buffer of `m` is found in `m'` under the same number. -/
structure Stays (m m' : SourceMap) : Prop where
  fragments : ∀ {id : Nat} {f : Fragment}, m.fragment? id = some f → m'.fragment? id = some f
  buffers : ∀ {file : Nat} {b : Buffer}, m.buffer? file = some b →
    ∃ b', m'.buffer? file = some b' ∧ b.Kept b'

theorem Stays.refl (m : SourceMap) : m.Stays m := ⟨id, fun known => ⟨_, known, .refl _⟩⟩

theorem Stays.trans {m₁ m₂ m₃ : SourceMap} (h : m₁.Stays m₂) (h' : m₂.Stays m₃) : m₁.Stays m₃ := by
  refine ⟨fun known => h'.fragments (h.fragments known), fun known => ?_⟩
  obtain ⟨b₂, known₂, kept₂⟩ := h.buffers known
  obtain ⟨b₃, known₃, kept₃⟩ := h'.buffers known₂
  exact ⟨b₃, known₃, kept₂.trans kept₃⟩

theorem Stays.fragmentText? {m m' : SourceMap} (h : m.Stays m') {id : Nat} {text : String}
    (read : m.fragmentText? id = some text) : m'.fragmentText? id = some text := by
  simp only [SourceMap.fragmentText?, bind, Option.bind_eq_some_iff] at read ⊢
  obtain ⟨f, known, b, found, part⟩ := read
  obtain ⟨b', found', kept⟩ := h.buffers found
  exact ⟨f, h.fragments known, b', found', kept.reads part⟩

theorem getElem?_push_of_some {α : Type} {xs : Array α} {i : Nat} {x y : α} (h : xs[i]? = some x) :
    (xs.push y)[i]? = some x := by
  obtain ⟨inside, same⟩ := Array.getElem?_eq_some_iff.mp h
  rw [Array.getElem?_push_lt inside, same]

theorem stays_target (m : SourceMap) (size : Nat) : m.Stays (m.target size) := by
  obtain ⟨rest, b, target, _, source⟩ := m.target_cases size
  rw [target]
  rcases source with same | ⟨same, _⟩
  · rw [← same]
    exact .refl m
  · subst same
    exact ⟨id, fun known => ⟨_, getElem?_push_of_some known, .refl _⟩⟩

theorem stays_withPiece {m : SourceMap} {rest : Array Buffer} {b : Buffer} {old : String}
    (buffers : m.buffers = rest.push b) (stores : b.Stores old) (name text : String) :
    m.Stays (m.withPiece rest b name text) := by
  refine ⟨getElem?_push_of_some, fun {file b₀} known => ?_⟩
  rw [buffer?, buffers, Array.getElem?_push] at known
  rw [buffer?, withPiece, Array.getElem?_push]
  split at known
  · rename_i last
    cases known
    exact ⟨_, if_pos last, stores.kept text⟩
  · rename_i before
    exact ⟨b₀, by rw [if_neg before, known], .refl _⟩

/-! ## What the map holds -/

/-- The ranges follow one another without a gap from `start` to `stop`. -/
def Tiles (stop : Nat) : Nat → List Fragment → Prop
  | start, [] => start = stop
  | start, f :: fs => f.start = start ∧ f.start ≤ f.stop ∧ Tiles stop f.stop fs

theorem Tiles.append {mid start : Nat} {fs : List Fragment} (h : Tiles mid start fs) {f : Fragment}
    (next : f.start = mid) (forward : f.start ≤ f.stop) : Tiles f.stop start (fs ++ [f]) := by
  induction fs generalizing start with
  | nil =>
    obtain rfl : start = mid := h
    exact ⟨next, forward, rfl⟩
  | cons g fs ih => exact ⟨h.1, h.2.1, ih h.2.2⟩

theorem Tiles.le {stop start : Nat} {fs : List Fragment} (h : Tiles stop start fs) :
    ∀ f ∈ fs, start ≤ f.start := by
  induction fs generalizing start with
  | nil => exact fun f hf => absurd hf List.not_mem_nil
  | cons g fs ih =>
    obtain ⟨first, forward, rest⟩ := h
    intro f hf
    rcases List.mem_cons.mp hf with rfl | later
    · exact Nat.le_of_eq first.symm
    · have behind := ih rest f later
      omega

/-- Ranges that tile are disjoint and in order. -/
theorem Tiles.apart {stop start : Nat} {fs : List Fragment} (h : Tiles stop start fs) :
    fs.Pairwise fun f g => f.stop ≤ g.start := by
  induction fs generalizing start with
  | nil => exact .nil
  | cons f fs ih => exact .cons (fun g hg => h.2.2.le g hg) (ih h.2.2)

/-- The fragments of a buffer, in the order of addition. -/
def filed (m : SourceMap) (file : Nat) : List Fragment :=
  m.fragments.toList.filter (·.file = file)

/-- Of the pieces that were added, those that went to a buffer. -/
def pieces (m : SourceMap) (added : List (String × String)) (file : Nat) : List String :=
  ((m.fragments.toList.zip added).filter (·.1.file = file)).map (·.2.2)

/-- The map consists of the pieces `added`, each a name and a text. -/
structure Holds (m : SourceMap) (added : List (String × String)) : Prop where
  names : m.fragments.toList.map (·.name) = added.map (·.1)
  files : ∀ f ∈ m.fragments, f.file < m.buffers.size
  /-- Each fragment's text is the one that was added. -/
  reads : ∀ {id : Nat} {name text : String}, added[id]? = some (name, text) →
    m.fragmentText? id = some text
  registered : ∀ {file : Nat} {b : Buffer}, m.buffer? file = some b → b.registered
  /-- A buffer stores its texts one behind the other, and the terminator. -/
  stores : ∀ {file : Nat} {b : Buffer}, m.buffer? file = some b →
    b.Stores (String.join (m.pieces added file))
  ranges : ∀ {file : Nat} {b : Buffer}, m.buffer? file = some b → Tiles b.size 0 (m.filed file)

variable {m : SourceMap} {added : List (String × String)}

theorem holds_empty : Holds {} [] where
  names := rfl
  files := by simp
  reads := by simp
  registered := by simp [buffer?]
  stores := by simp [buffer?]
  ranges := by simp [buffer?]

theorem Holds.length_eq (h : m.Holds added) : m.fragments.size = added.length := by
  simpa using congrArg List.length h.names

/-- Nothing was filed under the number of a buffer that does not exist yet. -/
theorem Holds.filed_fresh (h : m.Holds added) {file : Nat} (fresh : m.buffers.size ≤ file) :
    m.filed file = [] := by
  refine List.filter_eq_nil_iff.mpr fun f hf => ?_
  have := h.files f (by simpa using hf)
  simp
  omega

/-- The ranges in one buffer are disjoint and in the order of addition. -/
theorem Holds.apart (h : m.Holds added) (file : Nat) :
    (m.filed file).Pairwise fun f g => f.stop ≤ g.start := by
  cases known : m.buffer? file with
  | some b => exact (h.ranges known).apart
  | none =>
    rw [h.filed_fresh (Array.getElem?_eq_none_iff.mp known)]
    exact .nil

theorem Holds.pieces_fresh (h : m.Holds added) : m.pieces added m.buffers.size = [] := by
  refine List.map_eq_nil_iff.mpr (List.filter_eq_nil_iff.mpr fun p hp => ?_)
  have := h.files p.1 (by simpa using (List.of_mem_zip hp).1)
  simp
  omega

theorem Holds.target (h : m.Holds added) (size : Nat) : (m.target size).Holds added := by
  obtain ⟨rest, b, target, _, source⟩ := m.target_cases size
  have stays := m.stays_target size
  rw [target] at stays ⊢
  rcases source with same | ⟨same, name, fresh⟩
  · rw [← same]
    exact h
  · subst same fresh
    have opened {file : Nat} {b : Buffer}
        (known : (m.buffers.push (Buffer.withCapacity name size).register)[file]? = some b) :
        file = m.buffers.size ∧ b = (Buffer.withCapacity name size).register ∨
          m.buffer? file = some b := by
      rw [Array.getElem?_push] at known
      split at known
      · rename_i last
        cases known
        exact .inl ⟨last, rfl⟩
      · exact .inr known
    refine ⟨h.names, fun f hf => ?_, fun known => stays.fragmentText? (h.reads known), fun known => ?_,
      fun known => ?_, fun known => ?_⟩
    · have := h.files f hf
      simp
      omega
    · rcases opened known with ⟨_, rfl⟩ | old
      · rfl
      · exact h.registered old
    · rcases opened known with ⟨rfl, rfl⟩ | old
      · show Buffer.Stores _ (String.join (m.pieces added m.buffers.size))
        rw [h.pieces_fresh]
        exact Buffer.withCapacity_stores name size
      · exact h.stores old
    · rcases opened known with ⟨rfl, rfl⟩ | old
      · show Tiles _ 0 (m.filed m.buffers.size)
        rw [h.filed_fresh (Nat.le_refl _)]
        exact (Buffer.withCapacity_stores name size).size_eq.symm
      · exact h.ranges old

theorem filed_withPiece (rest : Array Buffer) (b : Buffer) (name text : String) (file : Nat) :
    (m.withPiece rest b name text).filed file = m.filed file ++
      if rest.size = file then [⟨name, rest.size, b.size, b.size + text.utf8ByteSize⟩] else [] := by
  simp [filed, withPiece, List.filter_append, List.filter_cons]

theorem Holds.pieces_withPiece (h : m.Holds added) (rest : Array Buffer) (b : Buffer)
    (name text : String) (file : Nat) :
    (m.withPiece rest b name text).pieces (added ++ [(name, text)]) file = m.pieces added file ++
      if rest.size = file then [text] else [] := by
  have lengths : m.fragments.toList.length = added.length := h.length_eq
  simp only [pieces, withPiece, Array.toList_push, List.zip_append lengths, List.filter_append,
    List.map_append]
  congr 1
  by_cases last : rest.size = file <;> simp [last]

/-- The buffers behind a piece are the one that it was written to and the others of before. -/
theorem withPiece_found {rest : Array Buffer} {b : Buffer} {name text : String}
    (buffers : m.buffers = rest.push b) {file : Nat} {b' : Buffer}
    (known : (m.withPiece rest b name text).buffer? file = some b') :
    rest.size = file ∧ b' = b.written text ∨ rest.size ≠ file ∧ m.buffer? file = some b' := by
  rw [buffer?, withPiece, Array.getElem?_push] at known
  rw [buffer?, buffers, Array.getElem?_push]
  split at known
  · rename_i same
    cases known
    exact .inl ⟨same.symm, rfl⟩
  · rename_i other
    exact .inr ⟨Ne.symm other, by rw [if_neg other, known]⟩

theorem Holds.withPiece (h : m.Holds added) {rest : Array Buffer} {b : Buffer}
    (buffers : m.buffers = rest.push b) (name text : String) :
    (m.withPiece rest b name text).Holds (added ++ [(name, text)]) := by
  have last : m.buffer? rest.size = some b := by simp [buffer?, buffers]
  have stores := h.stores last
  have stays := stays_withPiece buffers stores name text
  have size : (b.written text).size = b.size + text.utf8ByteSize := by
    rw [(stores.written text).size_eq, stores.size_eq, String.utf8ByteSize_append]
  constructor
  case names => simp [SourceMap.withPiece, h.names]
  case files =>
    intro f hf
    have before := h.files f
    simp only [SourceMap.withPiece, Array.mem_push, Array.size_push, buffers] at hf before ⊢
    rcases hf with old | rfl
    · exact before old
    · exact Nat.lt_succ_self _
  case reads =>
    intro id name' text' known
    rw [List.getElem?_append] at known
    split at known
    · exact stays.fragmentText? (h.reads known)
    · rename_i new
      obtain ⟨rfl, rfl⟩ : id = m.fragments.size ∧ text = text' := by
        have fresh := h.length_eq
        have only := List.getElem?_eq_some_iff.mp known
        simp at only
        exact ⟨by omega, only.2.2⟩
      simp [fragmentText?, fragment?, buffer?, SourceMap.withPiece, stores.text?_written]
  case registered =>
    intro file b' known
    rcases withPiece_found buffers known with ⟨_, rfl⟩ | ⟨_, old⟩
    · exact h.registered (b := b) last
    · exact h.registered old
  case stores =>
    intro file b' known
    rw [h.pieces_withPiece]
    rcases withPiece_found buffers known with ⟨rfl, rfl⟩ | ⟨other, old⟩
    · rw [if_pos rfl]
      simpa using stores.written text
    · rw [if_neg other, List.append_nil]
      exact h.stores old
  case ranges =>
    intro file b' known
    rw [filed_withPiece]
    rcases withPiece_found buffers known with ⟨rfl, rfl⟩ | ⟨other, old⟩
    · rw [if_pos rfl, size]
      exact (h.ranges last).append (f := ⟨name, rest.size, b.size, b.size + text.utf8ByteSize⟩) rfl
        (Nat.le_add_right _ _)
    · rw [if_neg other, List.append_nil]
      exact h.ranges old

/-! ## Any history -/

/-- Adds pieces one after another, each a name and a text, and returns the numbers of their
fragments. -/
def addAll (m : SourceMap) : List (String × String) → Except BufferError (SourceMap × List Nat)
  | [] => return (m, [])
  | (name, text) :: rest => do
    let (m, id) ← m.add name text
    let (m, ids) ← m.addAll rest
    return (m, id :: ids)

/-- An addition does not fail, numbers the fragment, and keeps what is there. -/
theorem Holds.add (h : m.Holds added) (name text : String) :
    ∃ m', m.add name text = .ok (m', added.length) ∧ m'.Holds (added ++ [(name, text)]) ∧
      (m.target text.utf8ByteSize).Stays m' := by
  obtain ⟨rest, b, buffers, add⟩ := m.add_eq name text
  have opened := h.target text.utf8ByteSize
  have last : (m.target text.utf8ByteSize).buffer? rest.size = some b := by simp [buffer?, buffers]
  refine ⟨_, by rw [add, h.length_eq], opened.withPiece buffers name text, ?_⟩
  exact stays_withPiece buffers (opened.stores last) name text

theorem Holds.addAll (h : m.Holds added) (more : List (String × String)) :
    ∃ m', m.addAll more = .ok (m', List.range' added.length more.length) ∧
      m'.Holds (added ++ more) ∧ m.Stays m' := by
  induction more generalizing m added with
  | nil => exact ⟨m, rfl, by rwa [List.append_nil], .refl m⟩
  | cons piece more ih =>
    obtain ⟨name, text⟩ := piece
    obtain ⟨m₁, first, holds₁, stays₁⟩ := h.add name text
    obtain ⟨m₂, others, holds₂, stays₂⟩ := ih holds₁
    refine ⟨m₂, ?_, by simpa using holds₂, ((m.stays_target _).trans stays₁).trans stays₂⟩
    rw [List.length_append] at others
    simp [SourceMap.addAll, first, others, bind, Except.bind, pure, Except.pure, List.range'_succ]

end SourceMap

end IncrementalC
