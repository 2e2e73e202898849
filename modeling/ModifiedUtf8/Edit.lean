import ModifiedUtf8.Quoted

/-!
# Edits of a buffer

A buffer that was cut off may end in the middle of a character.  `repair` moves its terminator back
to the last byte that can lead a sequence of several bytes, so that the last character is
dropped, complete or not.  `ED` leads both halves of a pair; where it follows a high surrogate, the
terminator goes to the start of that.  A buffer that ends in ASCII is left alone.

An `Edit` is one operation that writes into a buffer.  A session makes edits one after another on
the same buffer; a refused edit does not end it.
-/

namespace ModifiedUtf8

/-! ## Repair -/

/-- Leads a sequence of two, three or six bytes. -/
def isLead (b : UInt8) : Bool := 0xC0 ≤ b.toNat && b.toNat ≤ 0xEF

/-- The three bytes before an index are a high surrogate. -/
def followsHigh (buffer : Bytes) (index : Nat) : Bool :=
  3 ≤ index && buffer.getD (index - 3) 0 == 0xED && isHighSecond (buffer.getD (index - 2) 0) &&
    isContinuation (buffer.getD (index - 1) 0)

/-- The last index up to the given one that holds a lead byte; index zero is not looked at. -/
def lastLead? (buffer : Bytes) : Nat → Option Nat
  | 0 => none
  | index + 1 =>
    if isLead (buffer.getD (index + 1) 0) then some (index + 1) else lastLead? buffer index

/-- The start of the character that the lead byte at an index belongs to. -/
def boundaryOf (buffer : Bytes) (index : Nat) : Nat :=
  if buffer.getD index 0 == 0xED && followsHigh buffer index then index - 3 else index

/-- The least size of a buffer that can be repaired. -/
def leastRepairable : Nat := 6

/-- Ends the first bytes of a buffer, of which the last must be a terminator, at a character
boundary.  The result is the index of the terminator. -/
def repairFirst (size : Nat) (buffer : Bytes) : Outcome Bytes :=
  if buffer.getD (size - 1) 0 != 0 then .refuse buffer .notTerminated
  else if (buffer.getD (size - 2) 0).toNat < 0x80 then ⟨buffer, [], .ok (size - 1)⟩
  else match lastLead? buffer (size - 2) with
    | none => ⟨buffer, [], .ok (size - 1)⟩
    | some index =>
      let boundary := boundaryOf buffer index
      ⟨buffer.set boundary 0, [.repaired (size - 1) boundary], .ok boundary⟩

/-- How a truth value is shown. -/
def showFlag (value : Bool) : String := if value then "True" else "False"

/-- Repairs the first bytes of a buffer, as many as a length says, terminator included.  As a length a
truth value counts as zero or one. -/
def repair (length : Size) (buffer : Bytes) : Outcome Bytes :=
  match length with
  | .whole =>
    if buffer.length < leastRepairable then
      .refuse buffer (.badRepairLength (toString buffer.length))
    else repairFirst buffer.length buffer
  | .int n =>
    if n < leastRepairable ∨ buffer.length < n then .refuse buffer (.badRepairLength (toString n))
    else repairFirst n.toNat buffer
  | .flag value => .refuse buffer (.badRepairLength (showFlag value))
  | .other type => .refuse buffer (.notComparable type)

/-! ## Sessions -/

/-- An operation that writes into a buffer. -/
inductive Edit where
  | writeUnits (w : Width) (units : List Int) (capacity : Size)
  | writeAllUnits (w : Width) (units : List Int)
  | quoteUnits (w : Width) (units : List Int) (capacity : Size)
  | quoteBytes (data : Bytes) (length capacity : Size)
  | repair (length : Size)
  deriving DecidableEq, Repr

namespace Edit

def run (edit : Edit) (buffer : Bytes) : Outcome Bytes :=
  match edit with
  | writeUnits w units capacity => ModifiedUtf8.writeUnits w units capacity buffer
  | writeAllUnits w units => ModifiedUtf8.writeAllUnits w units buffer
  | quoteUnits w units capacity => Quoted.writeUnits w units capacity buffer
  | quoteBytes data length capacity => Quoted.writeBytes data length capacity buffer
  | repair length => ModifiedUtf8.repair length buffer

/-- Makes edits one after another and gives the outcome of each. -/
def runAll (buffer : Bytes) : List Edit → List (Outcome Bytes)
  | [] => []
  | edit :: rest =>
    let outcome := edit.run buffer
    outcome :: runAll outcome.content rest

end Edit

end ModifiedUtf8
