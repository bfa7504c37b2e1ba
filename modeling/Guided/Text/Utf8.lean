/-!
# UTF-8

Encoding writes a character as one to four bytes. Decoding is lossy: bytes that are not
the encoding of anything become replacement characters, one for each longest run that
could still have begun a character. Decoding reads one byte at a time and keeps what it
knows of an unfinished character.

## Main definitions

* `utf8Bytes`: the bytes of a text.
* `Utf8State`, `Utf8State.read`: one byte of decoding.
* `decodeLossy`: the text of any bytes.
-/
namespace Guided

/-- The character that stands for bytes that are not the encoding of anything. -/
def replacementChar : Char := '\uFFFD'

/-- The bytes of one character. -/
def utf8CharBytes (c : Char) : List Nat :=
  let n := c.toNat
  if n < 0x80 then [n]
  else if n < 0x800 then [0xC0 + n / 0x40, 0x80 + n % 0x40]
  else if n < 0x10000 then [0xE0 + n / 0x1000, 0x80 + n / 0x40 % 0x40, 0x80 + n % 0x40]
  else
    [0xF0 + n / 0x40000, 0x80 + n / 0x1000 % 0x40, 0x80 + n / 0x40 % 0x40, 0x80 + n % 0x40]

/-- The bytes of a text. -/
def utf8Bytes (s : List Char) : List Nat := s.flatMap utf8CharBytes

/-- An unfinished character: the bits read so far, how many bytes are missing, and the
bounds of the next one. -/
structure Utf8Partial where
  bits : Nat
  missing : Nat
  low : Nat
  high : Nat
deriving DecidableEq, Repr

/-- What decoding knows between two bytes: whether a character is unfinished. -/
abbrev Utf8State := Option Utf8Partial

namespace Utf8State

/-- A byte at the beginning of a character. The bounds of the second byte leave out
overlong forms, surrogates and what lies beyond the last code point. -/
def start (b : Nat) : List Char × Utf8State :=
  if b < 0x80 then ([Char.ofNat b], none)
  else if b < 0xC2 then ([replacementChar], none)
  else if b < 0xE0 then ([], some ⟨b - 0xC0, 1, 0x80, 0xBF⟩)
  else if b < 0xF0 then
    ([], some ⟨b - 0xE0, 2, if b = 0xE0 then 0xA0 else 0x80, if b = 0xED then 0x9F else 0xBF⟩)
  else if b < 0xF5 then
    ([], some ⟨b - 0xF0, 3, if b = 0xF0 then 0x90 else 0x80, if b = 0xF4 then 0x8F else 0xBF⟩)
  else ([replacementChar], none)

/-- Read one byte. One that does not continue an unfinished character ends it, and is
then the beginning of the next. -/
def read (state : Utf8State) (b : Nat) : List Char × Utf8State :=
  match state with
  | none => start b
  | some p =>
      if p.low ≤ b ∧ b ≤ p.high then
        let bits := p.bits * 0x40 + b % 0x40
        if p.missing ≤ 1 then ([Char.ofNat bits], none)
        else ([], some ⟨bits, p.missing - 1, 0x80, 0xBF⟩)
      else
        let (out, next) := start b
        (replacementChar :: out, next)

/-- What an unfinished character leaves at the end of the bytes. -/
def finish (state : Utf8State) : List Char := if state.isSome then [replacementChar] else []

/-- Read bytes to their end. -/
def readAll (state : Utf8State) : List Nat → List Char
  | [] => finish state
  | b :: rest => (read state b).1 ++ readAll (read state b).2 rest

end Utf8State

/-- The text of any bytes. -/
def decodeLossy (bytes : List Nat) : List Char := Utf8State.readAll none bytes

end Guided
