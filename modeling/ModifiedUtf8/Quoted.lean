import ModifiedUtf8.Conversion

/-!
# Quoted-ascii

A rendering of units in seven bits: a printable ASCII character stands for itself, and every other
unit is a backslash, a `u` and four lowercase hexadecimal digits.  The units come from a list of integers
or are decoded from bytes.  Each source can be measured, rendered into a buffer up to a capacity, and
rendered in full into a buffer of the measured size.

It is read up to the first zero byte as a list of tokens: a byte other than a backslash, a backslash and
one of `t`, `n`, `r` and `f`, or a backslash, a `u` and four hexadecimal digits of either case.
`Token.Spells` is the grammar of one token, `tokensFrom` the reader of all.
-/

namespace ModifiedUtf8

namespace Quoted

/-- The byte of a backslash. -/
def backslash : UInt8 := 0x5C

/-- The byte of the letter `u`. -/
def letterU : UInt8 := 0x75

/-- Rendered as it is. -/
def isPlain (unit : CodeUnit) : Bool := 0x20 ≤ unit.toNat && unit.toNat ≤ 0x7E

/-- The byte of a lowercase hexadecimal digit. -/
def hexDigit (n : Nat) : UInt8 := UInt8.ofNat (if n % 16 < 10 then 48 + n % 16 else 87 + n % 16)

/-- The rendering of a unit. -/
def render (unit : CodeUnit) : Bytes :=
  let v := unit.toNat
  if isPlain unit then [UInt8.ofNat v]
  else [backslash, letterU, hexDigit (v / 4096), hexDigit (v / 256), hexDigit (v / 16), hexDigit v]

/-- The size of the rendering of a unit. -/
def renderedSize (unit : CodeUnit) : Nat := if isPlain unit then 1 else 6

/-- The size of the rendering of a list of units, terminator excluded. -/
def renderedLength (units : List CodeUnit) : Nat := totalSize renderedSize units

/-- Stores the rendering of a unit: a single byte by itself, an escape at once. -/
def storeRendering (buffer : Bytes) (position : Nat) (unit : CodeUnit) : Outcome Bytes :=
  if isPlain unit then storeBytes buffer position (render unit)
  else ⟨overwrite buffer position (render unit), [], .ok (position + renderedSize unit)⟩

/-- Stores the renderings of units from a position on as long as they end before the capacity.  A cut
is logged. -/
def storeRenderings (capacity position : Nat) : List CodeUnit → Bytes → Outcome Bytes
  | [], buffer => terminate buffer position []
  | unit :: rest, buffer =>
    if capacity ≤ position + renderedSize unit then
      terminate buffer position [.quotingCut position]
    else
      let stored := storeRendering buffer position unit
      match stored.result with
      | .error fault => .refuse stored.content fault
      | .ok next => storeRenderings capacity next rest stored.content

/-- Renders the leading units that fit into a room together with a terminator. -/
def writeWithin (units : List CodeUnit) (room : Nat) (buffer : Bytes) : Outcome Bytes :=
  storeRenderings room 0 units buffer

/-! ## Units given as integers -/

/-- The size of the rendering of units. -/
def unitsLength (w : Width) (units : List Int) : Nat := renderedLength (units.map w.store)

/-- Renders units into a buffer up to a capacity. -/
def writeUnits (w : Width) (units : List Int) (capacity : Size) (buffer : Bytes) :
    Outcome Bytes :=
  match capacity.capacityOf buffer with
  | .error fault => .refuse buffer fault
  | .ok room => writeWithin (units.map w.store) room buffer

/-- The rendering of units. -/
def ofUnits (w : Width) (units : List Int) : Except Fault Text :=
  let outcome := writeUnits w units .whole (zeros (unitsLength w units + 1))
  outcome.result.map fun size => Text.ofBytes (outcome.content.take size)

/-! ## Bytes -/

/-- The size of the rendering of bytes. -/
def bytesLength (data : Bytes) (length : Size) : Except Fault Nat :=
  (length.lengthOf data).map fun n => renderedLength (unitsOf .wide (data.take n))

/-- Renders bytes into a buffer up to a capacity.  A bad capacity is reported before a bad
length. -/
def writeBytes (data : Bytes) (length : Size) (capacity : Size) (buffer : Bytes) :
    Outcome Bytes :=
  match capacity.capacityOf buffer, length.lengthOf data with
  | .error fault, _ => .refuse buffer fault
  | .ok _, .error fault => .refuse buffer fault
  | .ok room, .ok n => writeWithin (unitsOf .wide (data.take n)) room buffer

/-- The rendering of bytes. -/
def ofBytes (data : Bytes) (length : Size) : Except Fault Text :=
  match bytesLength data length with
  | .error fault => .error fault
  | .ok size =>
    let outcome := writeBytes data length .whole (zeros (size + 1))
    outcome.result.map fun written => Text.ofBytes (outcome.content.take written)

/-! ## Reading -/

inductive Token where
  /-- A byte that stands for itself. -/
  | plain (b : UInt8)
  /-- A control character written with a letter. -/
  | control (b : UInt8)
  /-- A unit written with four digits. -/
  | unit (u : CodeUnit)
  deriving DecidableEq, Repr

/-- The value of a hexadecimal digit of either case. -/
def hexValue? (b : UInt8) : Option Nat :=
  let v := b.toNat
  if 48 ≤ v ∧ v ≤ 57 then some (v - 48)
  else if 97 ≤ v ∧ v ≤ 102 then some (v - 87)
  else if 65 ≤ v ∧ v ≤ 70 then some (v - 55)
  else none

/-- The unit that four hexadecimal digits write. -/
def unitOfDigits? (d3 d2 d1 d0 : UInt8) : Option CodeUnit :=
  match hexValue? d3, hexValue? d2, hexValue? d1, hexValue? d0 with
  | some v3, some v2, some v1, some v0 =>
    some (UInt16.ofNat (v3 * 4096 + v2 * 256 + v1 * 16 + v0))
  | _, _, _, _ => none

/-- The control character that a letter writes: tab, line feed, carriage return or form feed. -/
def controlOf? (letter : UInt8) : Option UInt8 :=
  if letter = 0x74 then some 0x09
  else if letter = 0x6E then some 0x0A
  else if letter = 0x72 then some 0x0D
  else if letter = 0x66 then some 0x0C
  else none

namespace Token

inductive Spells : Token → Bytes → Prop where
  | plain {b : UInt8} (other : b ≠ backslash) : Spells (plain b) [b]
  | control {letter b : UInt8} (known : controlOf? letter = some b) :
      Spells (control b) [backslash, letter]
  | unit {d3 d2 d1 d0 : UInt8} {u : CodeUnit} (digits : unitOfDigits? d3 d2 d1 d0 = some u) :
      Spells (unit u) [backslash, letterU, d3, d2, d1, d0]

def size : Token → Nat
  | plain _ => 1
  | control _ => 1
  | unit u => encodedSize .wide u.toNat

def bytes : Token → Bytes
  | plain b => [b]
  | control b => [b]
  | unit u => encodeUnit u

end Token

/-- The tokens of bytes that begin at an offset.  Where no token begins, the offset is reported
with the bytes that were looked at. -/
def tokensFrom (offset : Nat) : Bytes → Except Fault (List Token)
  | [] => .ok []
  | b :: rest =>
    if b ≠ backslash then (tokensFrom (offset + 1) rest).map (.plain b :: ·)
    else match rest with
      | [] => .error (.unknownEscape offset [b])
      | letter :: digits =>
        if letter = letterU then
          match digits with
          | d3 :: d2 :: d1 :: d0 :: others =>
            match unitOfDigits? d3 d2 d1 d0 with
            | some u => (tokensFrom (offset + 6) others).map (.unit u :: ·)
            | none => .error (.malformedEscape offset [b, letter, d3, d2, d1, d0])
          | _ => .error (.malformedEscape offset (b :: letter :: digits))
        else match controlOf? letter with
          | some c => (tokensFrom (offset + 2) digits).map (.control c :: ·)
          | none => .error (.unknownEscape offset [b, letter])

def beforeNul (raw : Bytes) : Bytes := raw.takeWhile (· != 0)

/-- The bytes that quoted-ascii stands for: tokens are measured, then written into a buffer of that
size. -/
def unquote (raw : Bytes) : Except Fault Bytes :=
  match tokensFrom 0 (beforeNul raw) with
  | .error fault => .error fault
  | .ok tokens =>
    let stored := storeBytes (zeros (totalSize Token.size tokens)) 0 (tokens.flatMap Token.bytes)
    stored.result.map fun _ => stored.content

/-- The bytes that a quoted-ascii text stands for. -/
def unquoteText (text : Text) : Except Fault Bytes := text.ascii?.bind unquote

end Quoted

end ModifiedUtf8
