/-!
# Text from any bytes

`ofBytes` decodes UTF-8. What is no part of a well-formed character becomes a replacement character,
one for each longest piece that a character could begin with.
-/
namespace IncrementalC.Text
set_option autoImplicit false

def replacement : Char := '\uFFFD'

/-- The number of bytes of a character that begins with `b`, the range of its second byte, and the
bits that `b` contributes. -/
def leadByte? (b : Nat) : Option (Nat × Nat × Nat × Nat) :=
  if b < 0x80 then some (1, 0, 0, b)
  else if 0xC2 ≤ b ∧ b ≤ 0xDF then some (2, 0x80, 0xBF, b % 0x20)
  else if b = 0xE0 then some (3, 0xA0, 0xBF, 0)
  else if b = 0xED then some (3, 0x80, 0x9F, 0xD)
  else if 0xE1 ≤ b ∧ b ≤ 0xEF then some (3, 0x80, 0xBF, b % 0x10)
  else if b = 0xF0 then some (4, 0x90, 0xBF, 0)
  else if 0xF1 ≤ b ∧ b ≤ 0xF3 then some (4, 0x80, 0xBF, b % 8)
  else if b = 0xF4 then some (4, 0x80, 0x8F, 4)
  else none

/-- Reads `count` more bytes of a character, the first of them in a range of its own. Returns the
bits read, how many bytes fit, and whether the character is complete. -/
def continuation : Nat → Nat → Nat → Nat → List Nat → Nat × Nat × Bool
  | 0, _, _, acc, _ => (acc, 0, true)
  | _ + 1, _, _, acc, [] => (acc, 0, false)
  | count + 1, low, high, acc, b :: rest =>
    if low ≤ b ∧ b ≤ high then
      let (acc, n, done) := continuation count 0x80 0xBF (acc * 0x40 + b % 0x40) rest
      (acc, n + 1, done)
    else (acc, 0, false)

def decode (bytes : List Nat) : List Char :=
  match bytes with
  | [] => []
  | b :: rest =>
    match leadByte? b with
    | none => replacement :: decode rest
    | some (size, low, high, bits) =>
      let (code, n, done) := continuation (size - 1) low high bits rest
      (if done then Char.ofNat code else replacement) :: decode (rest.drop n)
termination_by bytes.length
decreasing_by all_goals simp only [List.length_cons, List.length_drop]; omega

def ofBytes (bytes : List UInt8) : String := String.ofList (decode (bytes.map (·.toNat)))

end IncrementalC.Text
