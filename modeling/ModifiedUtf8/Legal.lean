import ModifiedUtf8.Sequence

/-!
# Legal bytes

Legal bytes are sequences put one after another (`IsConcatenation`).  A sequence is a single byte `01` to
`7F`, a two-byte or a three-byte form.  Strictly, a form of several bytes must not hold a value that a
shorter one holds, except that zero is written in two; the legacy grammar has no such condition.

`isLegal` decides this.  It first skips blocks of four bytes that are ASCII and not zero, recognised by
one comparison, and then takes one sequence at a time, or six bytes at once where a pair of surrogates
stands.
-/

namespace ModifiedUtf8

/-! ## The grammar -/

/-- One sequence of the grammar. -/
inductive IsSequence (legacy : Bool) : Bytes → Prop where
  | one {b : UInt8} (pos : 0 < b.toNat) (ascii : b.toNat < 0x80) : IsSequence legacy [b]
  | two {lead b : UInt8} (kind : announcedSize lead = 2) (tail : isContinuation b = true)
      (shortest : legacy = true ∨ twoValue lead b = 0 ∨ 0x80 ≤ twoValue lead b) :
      IsSequence legacy [lead, b]
  | three {lead b c : UInt8} (kind : announcedSize lead = 3) (tail : isContinuation b = true)
      (last : isContinuation c = true) (shortest : legacy = true ∨ 0x800 ≤ threeValue lead b c) :
      IsSequence legacy [lead, b, c]

/-- A concatenation of sequences of the grammar. -/
inductive IsConcatenation (legacy : Bool) : Bytes → Prop where
  | nil : IsConcatenation legacy []
  | append {s rest : Bytes} (front : IsSequence legacy s) (back : IsConcatenation legacy rest) :
      IsConcatenation legacy (s ++ rest)

/-! ## The validator -/

/-- The number of bytes that may be passed over at the front, if something legal stands there. -/
def legalSize? (legacy : Bool) (lead : UInt8) (rest : Bytes) : Option Nat :=
  if lead.toNat = 0 then none
  else if lead.toNat < 0x80 then some 1
  else if startsWithPair (lead :: rest) then some 6
  else match announcedSize lead, rest with
    | 2, b :: _ =>
      let value := twoValue lead b
      if isContinuation b && (legacy || value == 0 || 0x80 ≤ value) then some 2 else none
    | 3, b :: c :: _ =>
      if isContinuation b && isContinuation c && (legacy || 0x800 ≤ threeValue lead b c) then some 3
      else none
    | _, _ => none

/-- What follows the first `skip` bytes is legal, sequence by sequence. -/
def isLegalAfter (legacy : Bool) : Nat → Bytes → Bool
  | _, [] => true
  | skip + 1, _ :: rest => isLegalAfter legacy skip rest
  | 0, lead :: rest =>
    match legalSize? legacy lead rest with
    | some size => isLegalAfter legacy (size - 1) rest
    | none => false

theorem isLegalAfter_eq_drop (legacy : Bool) (skip : Nat) (data : Bytes) :
    isLegalAfter legacy skip data = isLegalAfter legacy 0 (data.drop skip) := by
  induction data generalizing skip with
  | nil => cases skip <;> rfl
  | cons b rest ih =>
    cases skip with
    | zero => rfl
    | succ k => exact ih k

/-- No zero byte and none above `7F` is among the four.  For a byte `b`, the high bit of
`b ||| (b - 1)` is clear exactly when `0 < b < 80`, since `0 - 1` wraps to `FF`. -/
def isAsciiBlock (b0 b1 b2 b3 : UInt8) : Bool :=
  (b0 ||| (b0 - 1) ||| b1 ||| (b1 - 1) ||| b2 ||| (b2 - 1) ||| b3 ||| (b3 - 1)) < 0x80

/-- What is left after the leading blocks of four that are ASCII and not zero. -/
def dropAsciiBlocks : Bytes → Bytes
  | b0 :: b1 :: b2 :: b3 :: rest =>
    if isAsciiBlock b0 b1 b2 b3 then dropAsciiBlocks rest else b0 :: b1 :: b2 :: b3 :: rest
  | rest => rest

/-- The bytes are legal.  `legacy` admits values in forms longer than needed. -/
def isLegal (legacy : Bool) (data : Bytes) : Bool := isLegalAfter legacy 0 (dropAsciiBlocks data)

/-- The first bytes, as many as a length says, are legal. -/
def isLegalWithin (data : Bytes) (length : Size) (legacy : Bool) : Except Fault Bool :=
  (length.lengthOf data).map fun n => isLegal legacy (data.take n)

end ModifiedUtf8
