import ModifiedUtf8.Conversion
import ModifiedUtf8.Legal

/-!
# The text codec

`encode` writes a text and `decode` reads one.  Strict decoding refuses bytes that are not legal;
lenient decoding never fails, every byte outside a sequence standing for itself.

A decoder that gets its bytes in chunks keeps back those that later bytes may still complete.
`settledLength` says how many bytes need not be kept: sequences are taken by the size that their
lead announces, and a high surrogate waits as long as a low one may follow.  `Decoder.feed` decodes one
chunk.  A `Reader` takes its bytes from a stream and keeps decoded characters that were not asked for
yet; when a read of the stream yields nothing, the bytes kept back are decoded as they are.

The codec is found under a few names, spelled in either case, with hyphens, blanks or underscores.
-/

namespace ModifiedUtf8

/-- What decoding does about bytes that are not legal. -/
inductive Strictness where
  | strict
  | lenient
  deriving DecidableEq, Repr

/-- The strictness that an error handler's name asks for: only one name means strict. -/
def Strictness.ofName (name : String) : Strictness :=
  if name = "strict" then .strict else .lenient

def encode (text : Text) : Except Fault Bytes :=
  encodeMeasured .wide (text.toUnits.map fun unit => (unit.toNat : Int))

def decode (mode : Strictness) (data : Bytes) : Except Fault Text :=
  if mode = .strict ∧ isLegal false data = false then .error (.illegal data)
  else .ok (textOf data)

/-! ## Decoding in chunks -/

/-- The bytes may be the beginning of a low surrogate. -/
def mayBeginLow : Bytes → Bool
  | [] => true
  | [b] => b == 0xED
  | [b, c] => b == 0xED && isLowSecond c
  | b :: c :: d :: _ => b == 0xED && isLowSecond c && isContinuation d

/-- A high surrogate seems to stand here, and a low one may follow it. -/
def awaitsLow (lead : UInt8) (rest : Bytes) : Bool :=
  lead == 0xED && (rest.head?.any isHighSecond) && mayBeginLow (rest.drop 2)

/-- The number of bytes that are needed before what stands here can be decoded. -/
def neededSize (lead : UInt8) (rest : Bytes) : Nat :=
  if awaitsLow lead rest then 6 else announcedSize lead

/-- The number of bytes after the first `skip` ones that belong to settled characters, with the
skipped ones. -/
def settledAfter : Nat → Bytes → Nat
  | _, [] => 0
  | skip + 1, _ :: rest => settledAfter skip rest + 1
  | 0, lead :: rest =>
    let needed := neededSize lead rest
    if needed ≤ (rest.take 5).length + 1 then settledAfter (needed - 1) rest + 1 else 0

/-- The number of leading bytes that can be decoded whatever follows. -/
def settledLength (data : Bytes) : Nat := settledAfter 0 data

theorem settledAfter_eq (skip : Nat) (data : Bytes) :
    settledAfter skip data = min skip data.length + settledLength (data.drop skip) := by
  induction data generalizing skip with
  | nil => cases skip <;> rfl
  | cons b rest ih =>
    cases skip with
    | zero => simp [settledLength]
    | succ k =>
      have h := ih k
      simp only [settledAfter, List.length_cons, List.drop_succ_cons]
      omega

theorem settledLength_le (data : Bytes) : settledLength data ≤ data.length := by
  suffices h : ∀ skip, settledAfter skip data ≤ data.length from h 0
  induction data with
  | nil => intro skip; cases skip <;> exact Nat.le_refl 0
  | cons b rest ih =>
    intro skip
    cases skip with
    | zero =>
      have h := ih (neededSize b rest - 1)
      simp only [settledAfter, List.length_cons]
      split <;> omega
    | succ k =>
      have h := ih k
      simp only [settledAfter, List.length_cons]
      omega

/-- Decodes what can be decoded of bytes, all of them if they are the last, and tells how many
these were. -/
def decodeSettled (mode : Strictness) (data : Bytes) (final : Bool) :
    Except Fault (Decoded Text) :=
  let size := if final then data.length else settledLength data
  (decode mode (data.take size)).map fun text => ⟨text, size⟩

/-- A decoder between two chunks. -/
structure Decoder where
  mode : Strictness
  /-- The bytes kept back. -/
  pending : Bytes
  deriving DecidableEq, Repr

/-- A chunk of bytes, with a mark on the last one. -/
structure Chunk where
  data : Bytes
  final : Bool
  deriving DecidableEq, Repr

namespace Decoder

def start (mode : Strictness) : Decoder := ⟨mode, []⟩

def feed (decoder : Decoder) (chunk : Chunk) : Except Fault Text × Decoder :=
  let data := decoder.pending ++ chunk.data
  match decodeSettled decoder.mode data chunk.final with
  | .error fault => (.error fault, decoder)
  | .ok d => (.ok d.value, { decoder with pending := data.drop d.size })

/-- Decodes chunks one after another; the answers come in order. -/
def feedAll (decoder : Decoder) : List Chunk → List (Except Fault Text) × Decoder
  | [] => ([], decoder)
  | chunk :: rest =>
    let (answer, next) := decoder.feed chunk
    let (answers, last) := next.feedAll rest
    (answer :: answers, last)

end Decoder

/-- The bytes of texts written one after another. -/
def encodeAll : List Text → Except Fault Bytes
  | [] => .ok []
  | text :: rest =>
    match encode text with
    | .error fault => .error fault
    | .ok data => (encodeAll rest).map (data ++ ·)

/-! ## Reading a stream -/

structure Reader where
  mode : Strictness
  unread : Bytes
  /-- The number of bytes taken from the stream. -/
  position : Nat
  /-- The bytes kept back. -/
  pending : Bytes
  /-- The characters decoded but not returned yet. -/
  ready : Text
  deriving DecidableEq, Repr

namespace Reader

def start (mode : Strictness) (data : Bytes) : Reader := ⟨mode, data, 0, [], []⟩

/-- The number of bytes that a read of the stream yields; a negative size asks for all. -/
def blockSize (reader : Reader) (size : Int) : Nat :=
  if size < 0 then reader.unread.length else min size.toNat reader.unread.length

def advance (reader : Reader) (count : Nat) : Reader :=
  { reader with unread := reader.unread.drop count, position := reader.position + count }

/-- There are as many characters as were asked for; a negative number is never reached. -/
def hasEnough (reader : Reader) (chars : Int) : Bool :=
  0 ≤ chars && chars ≤ (reader.ready.length : Int)

/-- Takes blocks from the stream and decodes them until there are enough characters or the stream
yields nothing.  A refusal loses the block that was taken. -/
def fill (size chars : Int) (reader : Reader) : Except Fault Unit × Reader :=
  if reader.hasEnough chars then (.ok (), reader)
  else
    let count := reader.blockSize size
    let data := reader.pending ++ reader.unread.take count
    if data = [] then (.ok (), reader)
    else
      match decodeSettled reader.mode data (count == 0) with
      | .error fault => (.error fault, reader.advance count)
      | .ok d =>
        let next := { reader.advance count with
          pending := data.drop d.size, ready := reader.ready ++ d.value }
        if _h : count = 0 then (.ok (), next) else fill size chars next
termination_by reader.unread.length
decreasing_by
  simp only [advance, List.length_drop]
  have : reader.blockSize size ≤ reader.unread.length := by
    unfold blockSize
    split
    · exact Nat.le_refl _
    · exact Nat.min_le_right _ _
  omega

/-- Reads characters.  `size` limits the bytes taken at a time and `chars` the characters returned;
a negative `chars` stands for `size`, and if that is negative too there is no limit. -/
def read (size chars : Int) (reader : Reader) : Except Fault Text × Reader :=
  let wanted := if chars < 0 then size else chars
  match reader.fill size wanted with
  | (.error fault, after) => (.error fault, after)
  | (.ok (), after) =>
    if wanted < 0 then (.ok after.ready, { after with ready := [] })
    else
      (.ok (after.ready.take wanted.toNat), { after with ready := after.ready.drop wanted.toNat })

/-- Reads one time after another, each with its two limits; the answers come in order. -/
def readEach (reader : Reader) : List (Int × Int) → List (Except Fault Text) × Reader
  | [] => ([], reader)
  | (size, chars) :: rest =>
    let (answer, next) := reader.read size chars
    let (answers, last) := next.readEach rest
    (answer :: answers, last)

/-- Forgets the bytes and characters kept, but not the place in the stream. -/
def reset (reader : Reader) : Reader := { reader with pending := [], ready := [] }

end Reader

/-! ## Names -/

namespace Codec

def canonicalName : String := "mutf-8"

def aliases : List String := ["mutf_8", "mutf8", "modified_utf_8", "modified_utf8"]

/-- A name in lower case with underscores for hyphens and blanks. -/
def normalize (name : String) : String :=
  String.ofList (name.toList.map fun c => if c = '-' || c = ' ' then '_' else c.toLower)

/-- Names this codec.  Names are ASCII. -/
def isAlias (name : String) : Bool := aliases.contains (normalize name)

/-- A character that a registry keeps in a name. -/
def isNameChar (c : Char) : Bool := c.isAlphanum || c = '.'

/-- The words of a name, which are its longest runs of characters that a registry keeps. -/
def nameWords (name : List Char) : List (List Char) :=
  match name with
  | [] => []
  | c :: rest =>
    if isNameChar c then
      match nameWords rest, rest.head? with
      | word :: words, some d => if isNameChar d then (c :: word) :: words else [c] :: word :: words
      | words, _ => [c] :: words
    else nameWords rest

/-- A name as a registry looks it up: in lower case, its words joined by underscores. -/
def registryName (name : String) : String :=
  String.ofList
    (((nameWords name.toList).intersperse ['_']).flatten.map Char.toLower)

/-- A registry finds this codec under a name. -/
def isRegistered (name : String) : Bool := isAlias (registryName name)

end Codec

end ModifiedUtf8
