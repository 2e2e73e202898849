import ModifiedUtf8.Basic
import ModifiedUtf8.CharacterClass

/-!
# Faults

`Fault` lists every cause for which an operation of this library refuses its input, and
`Fault.message` words it, with literals of byte strings and words between quotes.  `Fault.kind` is what a
caller may tell apart.

`Size` is a length or a capacity as a caller gives it, and `Size.lengthOf` and `Size.capacityOf` check
it against the bytes it speaks of.  `Text.encodeWith` writes a text in a charset that may not have all
characters.
-/

namespace ModifiedUtf8

/-! ## Literals in messages -/

namespace Literal

def singleQuote : Char := Char.ofNat 39

def doubleQuote : Char := Char.ofNat 34

def backslash : Char := Char.ofNat 92

/-- The low hexadecimal digits of a number, as many as asked for. -/
def hexDigits : Nat → Nat → List Char
  | 0, _ => []
  | k + 1, n => hexDigits k (n / 16) ++ [Nat.digitChar (n % 16)]

/-- An integer in hexadecimal after `0x`, the sign in front. -/
def signedHex (value : Int) : String :=
  (if value < 0 then "-0x" else "0x") ++ String.ofList (Nat.toDigits 16 value.natAbs)

/-- The numeric escape of a code point, in the smallest of the three forms that fits. -/
def numericEscape (code : Nat) : List Char :=
  if code ≤ 0xFF then backslash :: 'x' :: hexDigits 2 code
  else if code ≤ 0xFFFF then backslash :: 'u' :: hexDigits 4 code
  else backslash :: 'U' :: hexDigits 8 code

/-- The quote put around content that does or does not hold each of the two quotes. -/
def quoteFor (hasSingle hasDouble : Bool) : Char :=
  if hasSingle && !hasDouble then doubleQuote else singleQuote

/-- One character of a literal: the quote and the backslash behind a backslash, tab, line feed and
carriage return by letter, what is printable as it is, and the rest by number. -/
def showCode (quote : Char) (isPrintable : Nat → Bool) (code : Nat) : List Char :=
  if code = quote.toNat || code = backslash.toNat then [backslash, Char.ofNat code]
  else if code = 9 then [backslash, 't']
  else if code = 10 then [backslash, 'n']
  else if code = 13 then [backslash, 'r']
  else if isPrintable code then [Char.ofNat code]
  else numericEscape code

def quoted (isPrintable : Nat → Bool) (codes : List Nat) : String :=
  let quote := quoteFor (codes.contains singleQuote.toNat) (codes.contains doubleQuote.toNat)
  String.ofList (quote :: codes.flatMap (showCode quote isPrintable) ++ [quote])

/-- The literal of a byte string; only ASCII is shown as it is. -/
def ofBytes (data : Bytes) : String :=
  "b" ++ quoted (fun code => 0x20 ≤ code && code ≤ 0x7E) (data.map UInt8.toNat)

/-- The literal of a text; lone surrogates are not printable. -/
def ofText (text : Text) : String := quoted isPrintableCode (text.map Fin.val)

end Literal

/-! ## Sizes given by callers -/

/-- What a caller gives for a length or a capacity: nothing, an integer, a truth value, or
something of another type, which does not compare with numbers. -/
inductive Size where
  | whole
  | int (n : Int)
  | flag (value : Bool)
  | other (type : String)
  deriving DecidableEq, Repr

/-! ## Causes -/

inductive Fault where
  | unitOutOfRange (value : Int)
  /-- An integer above `10FFFF` or below zero was to be encoded. -/
  | codePointOutOfRange (value : Int)
  /-- An integer above `10FFFF` or below zero was to become a character. -/
  | noSuchCharacter
  /-- An integer that does not even fit in 32 bits was to become a character. -/
  | characterTooLarge
  | noSuchWidth (bits : Int)
  | byteOutOfRange
  | indexOutOfRange
  | lengthNotNatural
  | lengthTooGreat (length : Int) (available : Nat)
  | noCapacity
  | capacityTooGreat (capacity : Int) (available : Nat)
  /-- A buffer to repair is too short, or shorter than said. -/
  | badRepairLength (shown : String)
  /-- Something of a type that does not compare with numbers was to be compared with one. -/
  | notComparable (type : String)
  | notTerminated
  | misprediction
  /-- A numeric escape without four hexadecimal digits. -/
  | malformedEscape (offset : Nat) (shown : Bytes)
  /-- A backslash before something that no escape begins with. -/
  | unknownEscape (offset : Nat) (shown : Bytes)
  /-- The run of characters from `start` to before `stop`, which begins with `first`, is not ASCII. -/
  | notAscii (first : CodePoint) (start stop : Nat)
  /-- The run of characters from `start` to before `stop`, which begins with `first`, is one of
  surrogates, which plain UTF-8 does not encode. -/
  | notScalar (first : CodePoint) (start stop : Nat)
  | nulInPath
  | illegal (data : Bytes)
  deriving DecidableEq, Repr

namespace Fault

/-- A position, or a range of positions by its first and last. -/
def span (start stop : Nat) : String :=
  if stop = start + 1 then toString start else toString start ++ "-" ++ toString (stop - 1)

def illegalReason : String := "illegal Modified UTF-8 sequence"

def notAsciiReason : String := "ordinal not in range(128)"

def notScalarReason : String := "surrogates not allowed"

/-- What is said of a run of characters that have no bytes in a charset. -/
def encodingMessage (charset reason : String) (first : CodePoint) (start stop : Nat) : String :=
  let shown :=
    if stop = start + 1 then
      "character " ++ String.ofList
        (Literal.singleQuote :: Literal.numericEscape first.val ++ [Literal.singleQuote])
    else "characters"
  "\x27" ++ charset ++ "\x27 codec can\x27t encode " ++ shown ++ " in position " ++
    span start stop ++ ": " ++ reason

def message : Fault → String
  | unitOutOfRange value => "code unit out of range: " ++ Literal.signedHex value
  | codePointOutOfRange value => "code point out of range: " ++ Literal.signedHex value
  | noSuchCharacter => "chr() arg not in range(0x110000)"
  | characterTooLarge => "int too large to convert to C int"
  | noSuchWidth bits => toString bits ++ " is not a valid CodeUnitWidth"
  | byteOutOfRange => "byte must be in range(0, 256)"
  | indexOutOfRange => "index out of range"
  | lengthNotNatural => "length must be a non-negative integer"
  | lengthTooGreat length available =>
    "length " ++ toString length ++ " exceeds buffer size " ++ toString available
  | noCapacity => "zero length output buffer"
  | capacityTooGreat capacity available =>
    "capacity " ++ toString capacity ++ " exceeds buffer size " ++ toString available
  | badRepairLength shown => "invalid length " ++ shown ++ " for truncation repair"
  | notComparable type =>
    "\x27<\x27 not supported between instances of \x27" ++ type ++ "\x27 and \x27int\x27"
  | notTerminated => "buffer should be NUL-terminated"
  | misprediction => "length prediction must be correct"
  | malformedEscape offset shown =>
    "malformed \\u escape at offset " ++ toString offset ++ ": " ++ Literal.ofBytes shown
  | unknownEscape offset shown =>
    "unrecognized escape at offset " ++ toString offset ++ ": " ++ Literal.ofBytes shown
  | notAscii first start stop => encodingMessage "ascii" notAsciiReason first start stop
  | notScalar first start stop => encodingMessage "utf-8" notScalarReason first start stop
  | nulInPath => "embedded null byte"
  | illegal data =>
    let shown := match data with
      | [b] => "byte 0x" ++ String.ofList (Literal.hexDigits 2 b.toNat)
      | _ => "bytes"
    "\x27mutf-8\x27 codec can\x27t decode " ++ shown ++ " in position " ++ span 0 data.length ++
      ": " ++ illegalReason

/-- The kinds of faults, by which a caller may tell them apart. -/
inductive Kind where
  | value
  | type
  | overflow
  | index
  | assertion
  | encoding
  | decoding
  deriving DecidableEq, Repr

def kind : Fault → Kind
  | notComparable _ => .type
  | characterTooLarge => .overflow
  | indexOutOfRange => .index
  | misprediction => .assertion
  | notAscii .. | notScalar .. => .encoding
  | illegal _ => .decoding
  | _ => .value

/-- A handler of bad values catches the fault; those of encoding and decoding are such. -/
def isValue (fault : Fault) : Bool :=
  match fault.kind with
  | .value | .encoding | .decoding => true
  | _ => false

end Fault

/-! ## Checking sizes -/

namespace Size

/-- The number of bytes that a given length selects: all of them unless an integer says less. -/
def lengthOf (length : Size) (data : Bytes) : Except Fault Nat :=
  match length with
  | whole => .ok data.length
  | int n =>
    if n < 0 then .error .lengthNotNatural
    else if data.length < n then .error (.lengthTooGreat n data.length)
    else .ok n.toNat
  | _ => .error .lengthNotNatural

/-- The number of bytes of a buffer that a given capacity allows to use: all of them unless an
integer says less, and never none. -/
def capacityOf (capacity : Size) (buffer : Bytes) : Except Fault Nat :=
  match capacity with
  | whole => if buffer.length < 1 then .error .noCapacity else .ok buffer.length
  | int n =>
    if n < 1 then .error .noCapacity
    else if buffer.length < n then .error (.capacityTooGreat n buffer.length)
    else .ok n.toNat
  | _ => .error .noCapacity

theorem lengthOf_natCast {n : Nat} {data : Bytes} (h : n ≤ data.length) :
    (int n).lengthOf data = .ok n := by
  simp only [lengthOf]
  rw [if_neg (by omega), if_neg (by omega)]
  rfl

theorem capacityOf_natCast {n : Nat} {buffer : Bytes} (h0 : 0 < n) (h : n ≤ buffer.length) :
    (int n).capacityOf buffer = .ok n := by
  simp only [capacityOf]
  rw [if_neg (by omega), if_neg (by omega)]
  rfl

theorem capacityOf_whole {buffer : Bytes} (h : 0 < buffer.length) :
    whole.capacityOf buffer = .ok buffer.length := by
  simp only [capacityOf]
  rw [if_neg (by omega)]

end Size

/-! ## Characters -/

/-- The code point with the given number. -/
def CodePoint.ofInt? (value : Int) : Except Fault CodePoint :=
  if h : 0 ≤ value ∧ value < 0x110000 then .ok ⟨value.toNat, by omega⟩
  else if -0x80000000 ≤ value ∧ value ≤ 0x7FFFFFFF then .error .noSuchCharacter
  else .error .characterTooLarge

namespace Text

/-- The text of a list of integers taken as units or code points, surrogate pairs joined. -/
def ofIntegers? (values : List Int) : Except Fault Text :=
  (values.mapM CodePoint.ofInt?).map joinSurrogates

/-- The bytes of a text in a charset, which has bytes for some code points.  The first run of others
is reported. -/
def encodeWith (bytes? : CodePoint → Option Bytes) (fault : CodePoint → Nat → Nat → Fault)
    (text : Text) : Except Fault Bytes :=
  match text.dropWhile fun c => (bytes? c).isSome with
  | [] => .ok (text.flatMap fun c => (bytes? c).getD [])
  | c :: rest =>
    let start := text.length - (c :: rest).length
    let run := (c :: rest).takeWhile fun d => (bytes? d).isNone
    .error (fault c start (start + run.length))

/-- The bytes of an ASCII text. -/
def ascii? : Text → Except Fault Bytes :=
  encodeWith (fun c => if c.val < 0x80 then some [UInt8.ofNat c.val] else none) .notAscii

/-- The bytes of a text without surrogates in plain UTF-8. -/
def utf8? : Text → Except Fault Bytes :=
  encodeWith
    (fun c => if c.isSurrogate then none else some (String.utf8EncodeChar (Char.ofNat c.val)))
    .notScalar

end Text

end ModifiedUtf8
