import ModifiedUtf8.Fault

/-!
# Sequences

A code unit is written in one, two or three bytes, and a supplementary character in six, the
sequences of its two surrogates.  Decoders here never fail inside the data: where no complete
sequence stands, the lead byte stands for itself and one byte is used up.

`decodeUnit` and `decodeCharacter` read at the front of bytes that are known not to be empty;
`decodeUnitAt` and `decodeCharacterAt` read at an offset.  `scan` reads items one after another to the
end: it walks over every byte and counts down those that the last item used up, and `scan_cons` gives
the equation that one expects.
-/

namespace ModifiedUtf8

/-! ## Writing -/

/-- The bytes of a unit.  Zero takes the two-byte form, so no sequence holds a zero byte. -/
def encodeUnit (unit : CodeUnit) : Bytes :=
  let v := unit.toNat
  if 0 < v ∧ v ≤ 0x7F then [UInt8.ofNat v]
  else if v ≤ 0x7FF then [UInt8.ofNat (0xC0 + v / 64), UInt8.ofNat (0x80 + v % 64)]
  else [UInt8.ofNat (0xE0 + v / 4096), UInt8.ofNat (0x80 + v / 64 % 64), UInt8.ofNat (0x80 + v % 64)]

/-- The bytes of a list of units, one sequence after another. -/
def encodeUnits (units : List CodeUnit) : Bytes := units.flatMap encodeUnit

@[simp] theorem encodeUnits_nil : encodeUnits [] = [] := rfl

theorem encodeUnits_cons (unit : CodeUnit) (units : List CodeUnit) :
    encodeUnits (unit :: units) = encodeUnit unit ++ encodeUnits units := rfl

@[simp] theorem encodeUnits_singleton (unit : CodeUnit) : encodeUnits [unit] = encodeUnit unit :=
  List.append_nil _

theorem encodeUnits_append (front back : List CodeUnit) :
    encodeUnits (front ++ back) = encodeUnits front ++ encodeUnits back := List.flatMap_append

/-- The bytes of a code point: those of its one or two units. -/
def encodeCharacter (c : CodePoint) : Bytes := encodeUnits c.toUnits

/-- The bytes of the unit with the given number. -/
def encodeUnit? (value : Int) : Except Fault Bytes :=
  if 0 ≤ value ∧ value ≤ 0xFFFF then .ok (encodeUnit (Width.wide.store value))
  else .error (.unitOutOfRange value)

/-- The bytes of the code point with the given number. -/
def encodeCharacter? (value : Int) : Except Fault Bytes :=
  if h : 0 ≤ value ∧ value ≤ 0x10FFFF then .ok (encodeCharacter ⟨value.toNat, by omega⟩)
  else .error (.codePointOutOfRange value)

/-! ## Reading at the front -/

/-- What was read at one place: a value and the number of bytes that it took. -/
structure Decoded (α : Type) where
  value : α
  size : Nat
  deriving DecidableEq, Repr

def twoValue (lead b : UInt8) : Nat := lead.toNat % 32 * 64 + tailBits b

def threeValue (lead b c : UInt8) : Nat := lead.toNat % 16 * 4096 + tailBits b * 64 + tailBits c

/-- The unit at the front, as a store of the given width keeps it. -/
def decodeUnit (w : Width) (lead : UInt8) (rest : Bytes) : Decoded CodeUnit :=
  match announcedSize lead, rest with
  | 2, b :: _ => if isContinuation b then ⟨w.store (twoValue lead b), 2⟩ else ⟨lead.toUInt16, 1⟩
  | 3, b :: c :: _ =>
    if isContinuation b && isContinuation c then ⟨w.store (threeValue lead b c), 3⟩
    else ⟨lead.toUInt16, 1⟩
  | _, _ => ⟨lead.toUInt16, 1⟩

def isHighSecond (b : UInt8) : Bool := b.toNat / 16 == 10

def isLowSecond (b : UInt8) : Bool := b.toNat / 16 == 11

/-- Six bytes `ED Ax xx ED Bx xx`, the sequences of a high and a low surrogate, stand at the
front. -/
def startsWithPair : Bytes → Bool
  | b0 :: b1 :: b2 :: b3 :: b4 :: b5 :: _ =>
    b0 == 0xED && isHighSecond b1 && isContinuation b2 &&
      b3 == 0xED && isLowSecond b4 && isContinuation b5
  | _ => false

/-- The code point of six bytes, of which the two leads carry nothing. -/
def pairValue (b1 b2 b4 b5 : UInt8) : CodePoint :=
  ⟨0x10000 + b1.toNat % 16 * 65536 + tailBits b2 * 1024 + b4.toNat % 16 * 64 + tailBits b5, by
    have h2 := tailBits_lt b2
    have h5 := tailBits_lt b5
    omega⟩

/-- The character at the front: a pair of surrogates as one, anything else as `decodeUnit` reads
it. -/
def decodeCharacter (lead : UInt8) (rest : Bytes) : Decoded CodePoint :=
  match startsWithPair (lead :: rest), rest with
  | true, b1 :: b2 :: _ :: b4 :: b5 :: _ => ⟨pairValue b1 b2 b4 b5, 6⟩
  | _, _ =>
    let d := decodeUnit .wide lead rest
    ⟨CodePoint.ofUnit d.value, d.size⟩

/-! ## Reading at an offset -/

def decodeUnitAt (w : Width) (data : Bytes) (offset : Int) : Except Fault (Decoded CodeUnit) :=
  match data.suffixFrom offset with
  | [] => .error .indexOutOfRange
  | lead :: rest => .ok (decodeUnit w lead rest)

/-- Whether a pair stands at an offset.  Fewer than six bytes before the end hold none, whatever
the offset. -/
def isPairAt (data : Bytes) (offset : Int) : Except Fault Bool :=
  if (data.length : Int) < offset + 6 then .ok false
  else match data.suffixFrom offset with
    | [] => .error .indexOutOfRange
    | b :: rest => .ok (startsWithPair (b :: rest))

/-- The code point of the six bytes at an offset, without asking whether they are a pair. -/
def pairValueAt (data : Bytes) (offset : Int) : Except Fault CodePoint :=
  match data.byteAt? (offset + 1), data.byteAt? (offset + 2), data.byteAt? (offset + 4),
    data.byteAt? (offset + 5) with
  | some b1, some b2, some b4, some b5 => .ok (pairValue b1 b2 b4 b5)
  | _, _, _, _ => .error .indexOutOfRange

def decodeCharacterAt (data : Bytes) (offset : Int) : Except Fault (Decoded CodePoint) :=
  match isPairAt data offset with
  | .error fault => .error fault
  | .ok true => (pairValueAt data offset).map fun c => ⟨c, 6⟩
  | .ok false => (decodeUnitAt .wide data offset).map fun d => ⟨CodePoint.ofUnit d.value, d.size⟩

/-! ## Scans -/

/-- The items from the byte on that follows the first `skip` ones. -/
def scanAfter {α : Type} (read : UInt8 → Bytes → Decoded α) : Nat → Bytes → List (Decoded α)
  | _, [] => []
  | skip + 1, _ :: rest => scanAfter read skip rest
  | 0, lead :: rest => read lead rest :: scanAfter read ((read lead rest).size - 1) rest

/-- The items from the front to the end. -/
def scan {α : Type} (read : UInt8 → Bytes → Decoded α) (data : Bytes) : List (Decoded α) :=
  scanAfter read 0 data

/-- The units of a byte string, with their sizes. -/
def scanUnits (w : Width) (data : Bytes) : List (Decoded CodeUnit) := scan (decodeUnit w) data

/-- The characters of a byte string, with their sizes. -/
def scanCharacters (data : Bytes) : List (Decoded CodePoint) := scan decodeCharacter data

/-- The units of a byte string. -/
def unitsOf (w : Width) (data : Bytes) : List CodeUnit := (scanUnits w data).map Decoded.value

/-- The text of a byte string. -/
def textOf (data : Bytes) : Text := (scanCharacters data).map Decoded.value

/-- The positions at which items begin, with the one at which the last item ends. -/
def positionsFrom {α : Type} (start : Nat) : List (Decoded α) → List Nat
  | [] => [start]
  | d :: rest => start :: positionsFrom (start + d.size) rest

/-- The character boundaries of a byte string. -/
def boundaries (data : Bytes) : List Nat := positionsFrom 0 (scanCharacters data)

theorem scanAfter_eq_scan_drop {α : Type} (read : UInt8 → Bytes → Decoded α) (skip : Nat)
    (data : Bytes) : scanAfter read skip data = scan read (data.drop skip) := by
  induction data generalizing skip with
  | nil => cases skip <;> rfl
  | cons b rest ih =>
    cases skip with
    | zero => rfl
    | succ k => exact ih k

@[simp] theorem scan_nil {α : Type} (read : UInt8 → Bytes → Decoded α) : scan read [] = [] := rfl

theorem scan_cons {α : Type} (read : UInt8 → Bytes → Decoded α) (lead : UInt8) (rest : Bytes) :
    scan read (lead :: rest) =
      read lead rest :: scan read (rest.drop ((read lead rest).size - 1)) := by
  rw [← scanAfter_eq_scan_drop]
  rfl

end ModifiedUtf8
