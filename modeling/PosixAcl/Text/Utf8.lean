import PosixAcl.Text.Fields

/-!
# UTF-8

Writing a text as bytes, and reading bytes as text. The reader is a machine that takes one byte at
a time and knows which range the next byte of an unfinished character must lie in. A byte that
cannot continue a character ends it as one malformed piece and is then read as a first byte, so
every maximal malformed sequence is a single piece.
-/

namespace PosixAcl.Utf8

/-- The bytes of one character: one byte below U+0080, two below U+0800, three below U+10000 and
four above. -/
def encodeChar (c : Char) : Bytes :=
  let n := c.toNat
  if n < 0x80 then [UInt8.ofNat n]
  else if n < 0x800 then [UInt8.ofNat (0xC0 + n / 0x40), UInt8.ofNat (0x80 + n % 0x40)]
  else if n < 0x10000 then
    [UInt8.ofNat (0xE0 + n / 0x1000), UInt8.ofNat (0x80 + n / 0x40 % 0x40),
      UInt8.ofNat (0x80 + n % 0x40)]
  else
    [UInt8.ofNat (0xF0 + n / 0x40000), UInt8.ofNat (0x80 + n / 0x1000 % 0x40),
      UInt8.ofNat (0x80 + n / 0x40 % 0x40), UInt8.ofNat (0x80 + n % 0x40)]

/-- The bytes of a text. -/
def encode (s : Text) : Bytes :=
  s.flatMap encodeChar

/-- Where the reader stands. -/
inductive State where
  /-- Between two characters. -/
  | start
  /-- Inside a character with the given value so far. The next byte must lie between `low` and
  `high`, and `more` continuation bytes follow it. -/
  | inside (value low high more : Nat)
deriving DecidableEq, Repr

/-- Reads the first byte of a character: the pieces that are complete with it, and the next
state. -/
def first (b : Nat) : List (Option Char) × State :=
  if b < 0x80 then ([some (Char.ofNat b)], .start)
  else if b < 0xC2 then ([none], .start)
  else if b < 0xE0 then ([], .inside (b - 0xC0) 0x80 0xBF 0)
  else if b < 0xF0 then
    ([], .inside (b - 0xE0) (if b = 0xE0 then 0xA0 else 0x80) (if b = 0xED then 0x9F else 0xBF) 1)
  else if b < 0xF5 then
    ([], .inside (b - 0xF0) (if b = 0xF0 then 0x90 else 0x80) (if b = 0xF4 then 0x8F else 0xBF) 2)
  else ([none], .start)

/-- Reads one byte: the pieces that are complete with it, and the next state. A piece is a
character, or nothing for a malformed sequence. -/
def step : State → Nat → List (Option Char) × State
  | .start, b => first b
  | .inside value low high more, b =>
    if low ≤ b ∧ b ≤ high then
      let value := value * 0x40 + (b - 0x80)
      match more with
      | 0 => ([some (Char.ofNat value)], .start)
      | more + 1 => ([], .inside value 0x80 0xBF more)
    else
      let (pieces, state) := first b
      (none :: pieces, state)

/-- The pieces that a byte string still adds when reading goes on from a state. A character that
the end cuts off is a malformed piece. -/
def scanFrom : State → Bytes → List (Option Char)
  | .start, [] => []
  | .inside .., [] => [none]
  | state, b :: rest => (step state b.toNat).1 ++ scanFrom (step state b.toNat).2 rest

/-- The pieces of a byte string: its characters in order, and nothing for each maximal malformed
sequence. -/
def scan (bytes : Bytes) : List (Option Char) :=
  scanFrom .start bytes

/-- The text of some pieces, with the replacement character for each malformed one. -/
def replaceMalformed (pieces : List (Option Char)) : Text :=
  pieces.map (·.getD '\uFFFD')

/-- The text that a byte string encodes, if it is well formed. -/
def decode? (bytes : Bytes) : Option Text :=
  (scan bytes).mapM id

/-- The text that shows a byte string: malformed sequences become replacement characters. -/
def decodeLossy (bytes : Bytes) : Text :=
  replaceMalformed (scan bytes)

end PosixAcl.Utf8
