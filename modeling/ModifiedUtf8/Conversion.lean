import ModifiedUtf8.Sequence

/-!
# Measuring and converting

`measure` counts the units that bytes decode to, without decoding them, up to a zero byte or as many
bytes as a length says.  In the other direction, `encodedLength` is the size of a list of units.

Writers put bytes into a buffer that already exists: their `Outcome` holds what it contains afterwards,
also after a refusal, the notices that were logged, and the result.  `writeUnits` fills a buffer up to a
capacity and cuts between units, `writeAllUnits` writes everything and trusts that it fits, and
`encodeMeasured` predicts the size, takes a buffer of that size and checks the prediction.

`fillCells` decodes a number of units into cells that already exist, and `decodeStored` measures bytes,
takes as many fresh cells and fills them.  The number of units is measured on the selected bytes, while
the filling reads on from the front of all of them.
-/

namespace ModifiedUtf8

/-! ## Measuring bytes -/

/-- The greatest lead byte whose sequences hold values that fit in one byte. -/
def narrowLeadMax : UInt8 := 0xC3

/-- What is known of bytes without decoding them. -/
structure Measure where
  length : Nat
  isLatin1 : Bool
  /-- Some sequence has several bytes. -/
  hasMultibyte : Bool
  deriving DecidableEq, Repr

namespace Measure

/-- The measure of no bytes, with a number of units to start from. -/
def start (length : Nat) : Measure := ⟨length, true, false⟩

/-- Takes note of a continuation byte and of the byte before it. -/
def noteContinuation (m : Measure) (before : UInt8) : Measure :=
  { m with isLatin1 := m.isLatin1 && before ≤ narrowLeadMax, hasMultibyte := true }

/-- Goes on over bytes up to a zero byte, counting the units up. -/
def countUp (m : Measure) (before : UInt8) : Bytes → Measure
  | [] => m
  | b :: rest =>
    if b = 0 then m
    else if isContinuation b then (m.noteContinuation before).countUp b rest
    else { m with length := m.length + 1 }.countUp b rest

/-- Goes on over all bytes, counting down from their number. -/
def countDown (m : Measure) (before : UInt8) : Bytes → Measure
  | [] => m
  | b :: rest =>
    if isContinuation b then
      let noted := m.noteContinuation before
      { noted with length := noted.length - 1 }.countDown b rest
    else m.countDown b rest

end Measure

def measureTerminated (data : Bytes) : Measure := (Measure.start 0).countUp 0 data

def measureCounted (data : Bytes) : Measure := (Measure.start data.length).countDown 0 data

/-- The measure of bytes: without a length up to the first zero byte, with one of as many
bytes. -/
def measure (data : Bytes) (length : Size) : Except Fault Measure :=
  match length with
  | .whole => .ok (measureTerminated data)
  | _ => (length.lengthOf data).map fun n => measureCounted (data.take n)

/-! ## Measuring units -/

/-- The size of a unit when encoded.  What fits in one byte takes at most two. -/
def encodedSize (w : Width) (unit : Int) : Nat :=
  let v := (w.store unit).toNat
  if 0 < v ∧ v ≤ 0x7F then 1 else if w = .narrow ∨ v ≤ 0x7FF then 2 else 3

/-- The size of a list of items, each of which has a size of its own. -/
def totalSize {α : Type} (size : α → Nat) : List α → Nat
  | [] => 0
  | x :: rest => size x + totalSize size rest

@[simp] theorem totalSize_nil {α : Type} (size : α → Nat) : totalSize size [] = 0 := rfl

theorem totalSize_cons {α : Type} (size : α → Nat) (x : α) (rest : List α) :
    totalSize size (x :: rest) = size x + totalSize size rest := rfl

theorem length_flatMap_eq_totalSize {α : Type} {bytes : α → Bytes} {size : α → Nat}
    (h : ∀ x, (bytes x).length = size x) (items : List α) :
    (items.flatMap bytes).length = totalSize size items := by
  induction items with
  | nil => rfl
  | cons x rest ih => rw [List.flatMap_cons, List.length_append, h, ih, totalSize_cons]

/-- The size of a list of units when encoded, terminator excluded. -/
def encodedLength (w : Width) (units : List Int) : Nat := totalSize (encodedSize w) units

/-- The greatest length that a signed 32-bit integer holds. -/
def maxLength : Int := 2147483647

/-- Adds sizes to a total as long as it does not exceed a limit. -/
def boundedFrom (w : Width) (limit : Int) (total : Nat) : List Int → Nat
  | [] => total
  | unit :: rest =>
    if limit < total + encodedSize w unit then total
    else boundedFrom w limit (total + encodedSize w unit) rest

/-- The size of the longest leading part of a list of units that stays below a maximum, so that one
more byte can be counted. -/
def boundedLength (w : Width) (max : Int) (units : List Int) : Nat :=
  boundedFrom w (max - 1) 0 units

def allFitNarrow (units : List Int) : Bool := units.all fitsNarrow

/-! ## Buffers -/

/-- A remark that a writer leaves in the log. -/
inductive Notice where
  /-- Only the first units of a list were encoded. -/
  | encodingCut (kept total : Nat)
  /-- Quoting stopped after so many bytes. -/
  | quotingCut (size : Nat)
  /-- A buffer was cut back to its last character boundary. -/
  | repaired (before after : Nat)
  deriving DecidableEq, Repr

def Notice.message : Notice → String
  | encodingCut kept total =>
    "truncated Modified UTF-8 output after " ++ toString kept ++ " of " ++ toString total ++
      " code units"
  | quotingCut size => "truncated quoted-ascii output at " ++ toString size ++ " bytes"
  | repaired before after =>
    "truncated Modified UTF-8 buffer from " ++ toString before ++ " to " ++ toString after ++
      " bytes"

/-- What an operation on a buffer leaves behind. -/
structure Outcome (β : Type) where
  content : β
  log : List Notice
  result : Except Fault Nat

/-- The outcome of a refusal that touches nothing. -/
def Outcome.refuse {β : Type} (content : β) (fault : Fault) : Outcome β :=
  ⟨content, [], .error fault⟩

def zeros (size : Nat) : Bytes := List.replicate size 0

/-- Puts bytes over those of a buffer, from a position on. -/
def overwrite (buffer : Bytes) (position : Nat) (data : Bytes) : Bytes :=
  buffer.take position ++ data ++ buffer.drop (position + data.length)

/-- Stores bytes one after another from a position on and gives the position behind them.  The first
byte without room is refused; those before it stay. -/
def storeBytes (buffer : Bytes) (position : Nat) : Bytes → Outcome Bytes
  | [] => ⟨buffer, [], .ok position⟩
  | b :: rest =>
    if position < buffer.length then storeBytes (buffer.set position b) (position + 1) rest
    else .refuse buffer .indexOutOfRange

/-- Puts the terminator at a position, which is the result. -/
def terminate (buffer : Bytes) (position : Nat) (log : List Notice) : Outcome Bytes :=
  if position < buffer.length then ⟨buffer.set position 0, log, .ok position⟩
  else ⟨buffer, log, .error .indexOutOfRange⟩

/-! ## Encoding units -/

/-- The bytes of units given as integers. -/
def encodeStored (w : Width) (units : List Int) : Bytes := encodeUnits (units.map w.store)

/-- Stores units as long as there is room for them and a terminator; `index` units of `total` are
stored already.  A cut is logged. -/
def storeFitting (w : Width) (total index position room : Nat) : List Int → Bytes → Outcome Bytes
  | [], buffer => terminate buffer position []
  | unit :: rest, buffer =>
    if room ≤ encodedSize w unit then terminate buffer position [.encodingCut index total]
    else
      let stored := storeBytes buffer position (encodeUnit (w.store unit))
      match stored.result with
      | .error fault => .refuse stored.content fault
      | .ok next =>
        storeFitting w total (index + 1) next (room - encodedSize w unit) rest stored.content

/-- Encodes the leading units that fit into a capacity together with a terminator. -/
def writeUnits (w : Width) (units : List Int) (capacity : Size) (buffer : Bytes) :
    Outcome Bytes :=
  match capacity.capacityOf buffer with
  | .error fault => .refuse buffer fault
  | .ok room => storeFitting w units.length 0 0 room units buffer

/-- Stores all units and a terminator from a position on. -/
def storeUnits (w : Width) (position : Nat) : List Int → Bytes → Outcome Bytes
  | [], buffer => terminate buffer position []
  | unit :: rest, buffer =>
    let stored := storeBytes buffer position (encodeUnit (w.store unit))
    match stored.result with
    | .error fault => .refuse stored.content fault
    | .ok next => storeUnits w next rest stored.content

/-- Encodes all units and a terminator into a buffer, whose size is the caller's care. -/
def writeAllUnits (w : Width) (units : List Int) (buffer : Bytes) : Outcome Bytes :=
  storeUnits w 0 units buffer

/-- Encodes all units into a buffer of the predicted size. -/
def encodeMeasured (w : Width) (units : List Int) : Except Fault Bytes :=
  let predicted := encodedLength w units
  let outcome := writeUnits w units .whole (zeros (predicted + 1))
  match outcome.result with
  | .error fault => .error fault
  | .ok written =>
    if written = predicted then .ok (outcome.content.take predicted) else .error .misprediction

/-! ## Storing units -/

/-- What a cell can hold: any integer, a byte, or a 16-bit word. -/
inductive CellKind where
  | integer
  | byte
  | word
  deriving DecidableEq, Repr

/-- A cell of this kind holds the unit. -/
def CellKind.holds (kind : CellKind) (unit : CodeUnit) : Bool :=
  match kind with
  | byte => unit.toNat ≤ 0xFF
  | _ => true

/-- The cells of fresh storage of a width. -/
def Width.cellKind : Width → CellKind
  | narrow => .byte
  | wide => .word

/-- Decodes so many units from the front of the bytes into the leading cells; the result is the
number of bytes used up.  Units stored before a refusal stay. -/
def fillDecoded (kind : CellKind) (w : Width) : Nat → Bytes → List Int → Outcome (List Int)
  | 0, _, cells => ⟨cells, [], .ok 0⟩
  | _ + 1, [], cells => .refuse cells .indexOutOfRange
  | n + 1, lead :: rest, cells =>
    let d := decodeUnit w lead rest
    if kind.holds d.value then
      match cells with
      | [] => .refuse [] .indexOutOfRange
      | _ :: others =>
        let outcome := fillDecoded kind w n (rest.drop (d.size - 1)) others
        ⟨d.value.toNat :: outcome.content, outcome.log, outcome.result.map (d.size + ·)⟩
    else .refuse cells .byteOutOfRange

/-- Fills cells as `fillDecoded` does; bytes are copied up to the first that is not ASCII. -/
def fillCells (kind : CellKind) (w : Width) : Nat → Bytes → List Int → Outcome (List Int)
  | 0, _, cells => ⟨cells, [], .ok 0⟩
  | _ + 1, [], cells => .refuse cells .indexOutOfRange
  | n + 1, b :: rest, cells =>
    if 0x7F < b.toNat then fillDecoded kind w (n + 1) (b :: rest) cells
    else
      match cells with
      | [] => .refuse [] .indexOutOfRange
      | _ :: others =>
        let outcome := fillCells kind w n rest others
        ⟨b.toNat :: outcome.content, outcome.log, outcome.result.map (1 + ·)⟩

/-- Fresh storage with its width. -/
structure Stored where
  width : Width
  units : List Int
  deriving DecidableEq, Repr

/-- The narrow width if all units measured fit in it, and the wide one otherwise. -/
def Measure.width (m : Measure) : Width := if m.isLatin1 then .narrow else .wide

/-- Decodes bytes into fresh storage of the width asked for, or of the one that the measure
suggests. -/
def decodeStored (data : Bytes) (length : Size) (width : Option Width) : Except Fault Stored :=
  match measure data length with
  | .error fault => .error fault
  | .ok m =>
    let w := width.getD m.width
    let outcome := fillCells w.cellKind w m.length data (List.replicate m.length 0)
    outcome.result.map fun _ => ⟨w, outcome.content⟩

/-- Two strings of bytes are the same. -/
def Bytes.equal (first second : Bytes) : Bool := first == second

end ModifiedUtf8
