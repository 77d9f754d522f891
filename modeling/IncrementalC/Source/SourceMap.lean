import IncrementalC.Source.Span

/-!
# Where source text lives

A `SourceMap` keeps every piece of text that the front end has read, in the order of arrival. A
piece is a `Fragment`: a name and a range of bytes in a buffer. A new buffer is opened when the
last one cannot take the piece in place, so text never moves and every span stays readable.

A `Buffer` holds UTF-8 text with a NUL behind it and grows at its end only. Its storage is set aside
in chunks; once the start of the storage has been handed out (`register`) the buffer takes no text
that would make the storage move.
-/
namespace IncrementalC
set_option autoImplicit false

/-! ## Buffers -/

namespace Source

/-- Storage is set aside in multiples of this many bytes. -/
def chunk : Nat := 64 * 1024

/-- The least positive multiple of `chunk` that is at least `bytes`. -/
def roundToChunk (bytes : Nat) : Nat := max ((bytes + chunk - 1) / chunk) 1 * chunk

inductive BufferError where
  /-- The text does not fit and the storage must not move. -/
  | wouldMove (buffer : String) (needed : Nat)
  | unknownFile (file : Nat)
deriving DecidableEq, Repr

def BufferError.message : BufferError → String
  | .wouldMove buffer needed =>
    s!"source buffer '{buffer}' must grow to {needed} bytes after its start address was registered"
  | .unknownFile file => s!"unknown source file id {file}"

structure Buffer where
  name : String
  /-- What is stored: the text in UTF-8, and the terminator. -/
  data : ByteArray
  capacity : Nat
  registered : Bool

namespace Buffer

/-- Stands behind the text. -/
def terminator : UInt8 := 0

def ofString (name text : String) : Buffer :=
  ⟨name, text.toUTF8.push terminator, roundToChunk (text.utf8ByteSize + 1), false⟩

/-- An empty buffer that takes `bytes` bytes of text without moving. -/
def withCapacity (name : String) (bytes : Nat) : Buffer :=
  ⟨name, ByteArray.empty.push terminator, roundToChunk (bytes + 1), false⟩

/-- The size of the text with the terminator. -/
def storedSize (b : Buffer) : Nat := b.data.size

/-- The size of the text. -/
def size (b : Buffer) : Nat := b.storedSize - 1

/-- The text, in UTF-8. -/
def bytes (b : Buffer) : ByteArray := b.data.extract 0 b.size

def register (b : Buffer) : Buffer := { b with registered := true }

/-- `extra` more bytes fit without moving the storage. -/
def fits (b : Buffer) (extra : Nat) : Bool := b.storedSize + extra ≤ b.capacity

/-- Puts `text` in the place of the terminator and a new one behind it. Returns the range of bytes
that the text occupies. -/
def append (b : Buffer) (text : String) : Except BufferError (Buffer × Nat × Nat) :=
  let needed := b.storedSize + text.utf8ByteSize
  if b.capacity < needed ∧ b.registered then .error (.wouldMove b.name needed)
  else
    let capacity := if b.capacity < needed then roundToChunk needed else b.capacity
    let start := b.size
    .ok ({ b with data := (b.bytes ++ text.toUTF8).push terminator, capacity },
      start, start + text.utf8ByteSize)

/-- The text between two offsets, if they lie inside the buffer and between characters. -/
def text? (b : Buffer) (start stop : Nat) : Option String :=
  if b.size < stop ∨ stop < start then none else String.fromUTF8? (b.data.extract start stop)

def text (b : Buffer) : String := (String.fromUTF8? b.bytes).getD ""

end Buffer

/-! ## Fragments -/

structure Fragment where
  name : String
  file : Nat
  start : Nat
  stop : Nat
deriving DecidableEq, Repr

end Source

structure SourceMap where
  buffers : Array Source.Buffer := #[]
  fragments : Array Source.Fragment := #[]

namespace SourceMap
open Source

/-- The buffer that the next text of `size` bytes goes to, opened if necessary. -/
def target (m : SourceMap) (size : Nat) : SourceMap :=
  if m.buffers.back?.any (·.fits size) then m
  else
    let fresh := Buffer.withCapacity s!"cinder_buffer_{m.buffers.size}" size
    { m with buffers := m.buffers.push fresh.register }

/-- Adds a piece of text and returns the number of its fragment. -/
def add (m : SourceMap) (name text : String) : Except BufferError (SourceMap × Nat) :=
  let m := m.target text.utf8ByteSize
  let file := m.buffers.size - 1
  match m.buffers.back? with
  | none => .error (.unknownFile file)
  | some last => do
    -- the buffer leaves the array before it grows, so that its bytes are not copied
    let buffers := m.buffers.pop
    let fragments := m.fragments
    let (last, start, stop) ← last.append text
    return ({ buffers := buffers.push last
              fragments := fragments.push ⟨name, file, start, stop⟩ }, fragments.size)

def fragment? (m : SourceMap) (id : Nat) : Option Fragment := m.fragments[id]?

def buffer? (m : SourceMap) (file : Nat) : Option Buffer := m.buffers[file]?

def fragmentText? (m : SourceMap) (id : Nat) : Option String := do
  let f ← m.fragment? id
  (← m.buffer? f.file).text? f.start f.stop

/-- The latest fragment that holds the start of `span`. -/
def fragmentAt? (m : SourceMap) (span : Span) : Option Fragment :=
  m.fragments.toList.reverse.find? fun f =>
    f.file == span.file && f.start ≤ span.start && span.start ≤ f.stop

/-- The text that `span` covers. -/
def slice? (m : SourceMap) (span : Span) : Option String := do
  (← m.buffer? span.file).text? span.start span.stop

/-- The whole source line that holds the start of `span`, without the newline. -/
def lineText? (m : SourceMap) (span : Span) : Option String := do
  let f ← m.fragmentAt? span
  let b ← m.buffer? f.file
  let text ← b.text? f.start f.stop
  let bytes := text.toUTF8.toList
  let rel := min (span.start - f.start) bytes.length
  let before := (bytes.take rel).reverse.takeWhile (· != 10)
  let after := (bytes.drop rel).takeWhile (· != 10)
  String.fromUTF8? (before.reverse ++ after).toByteArray

end SourceMap

end IncrementalC
