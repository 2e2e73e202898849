/-!
# Bytes, code units and texts

Modified UTF-8 works on strings of bytes: `byteAt?` reads one at an offset that may count from the end,
`suffixFrom` everything a reader meets from there on.

A code unit is a 16-bit number, kept in narrow or in wide storage; `Width.store` is what a store of
either width keeps of an integer.

A text is a list of code points, lone surrogates included.  `Text.toUnits` splits each supplementary
code point into its two surrogates, and `Text.ofUnits` joins every high surrogate with a low one that
follows it.
-/

namespace ModifiedUtf8

/-! ## Bytes -/

/-- A string of bytes. -/
abbrev Bytes := List UInt8

/-- `10xxxxxx`: a byte that continues a sequence. -/
def isContinuation (b : UInt8) : Bool := b.toNat / 64 == 2

/-- The low six bits, which a continuation byte carries. -/
def tailBits (b : UInt8) : Nat := b.toNat % 64

theorem tailBits_lt (b : UInt8) : tailBits b < 64 := Nat.mod_lt _ (by decide)

/-- The size of the sequence that a lead byte announces: two for `110xxxxx`, three for `1110xxxx`,
and one for every other byte. -/
def announcedSize (lead : UInt8) : Nat :=
  if lead.toNat / 32 = 6 then 2 else if lead.toNat / 16 = 14 then 3 else 1

theorem announcedSize_pos (lead : UInt8) : 0 < announcedSize lead := by
  unfold announcedSize
  split
  · decide
  · split <;> decide

theorem announcedSize_le (lead : UInt8) : announcedSize lead ≤ 3 := by
  unfold announcedSize
  split
  · decide
  · split <;> decide

namespace Bytes

/-- The byte at an offset.  A negative offset counts from the end. -/
def byteAt? (data : Bytes) (offset : Int) : Option UInt8 :=
  if 0 ≤ offset then data[offset.toNat]?
  else if -(data.length : Int) ≤ offset then data[(data.length + offset).toNat]?
  else none

/-- The bytes that a reader meets from an offset on.  A negative offset counts from the end, and
reading then goes on at the start; outside the string there is nothing to read. -/
def suffixFrom (data : Bytes) (offset : Int) : Bytes :=
  if 0 ≤ offset then data.drop offset.toNat
  else if -(data.length : Int) ≤ offset then data.drop (data.length + offset).toNat ++ data
  else []

theorem suffixFrom_natCast (data : Bytes) (n : Nat) : suffixFrom data n = data.drop n := by
  simp [suffixFrom]

end Bytes

/-! ## Code units -/

/-- A 16-bit code unit; surrogates are units like any other. -/
abbrev CodeUnit := UInt16

/-- The storage width of a code unit: one byte, or two. -/
inductive Width where
  | narrow
  | wide
  deriving DecidableEq, Repr

namespace Width

/-- The number of bits of a unit of this width. -/
def bits : Width → Nat
  | narrow => 8
  | wide => 16

/-- The number of values that a unit of this width can have. -/
def bound (w : Width) : Nat := Nat.pow 2 w.bits

/-- The largest value of a unit of this width, which is also its bit mask. -/
def mask (w : Width) : Nat := w.bound - 1

/-- The width with the given number of bits. -/
def ofBits? (n : Int) : Option Width :=
  if n = 8 then some narrow else if n = 16 then some wide else none

theorem bound_pos (w : Width) : 0 < w.bound := by cases w <;> decide

theorem bound_le (w : Width) : w.bound ≤ 65536 := by cases w <;> decide

/-- What a cell of this width keeps of an integer: its low bits, a negative integer having
infinitely many leading ones. -/
def store (w : Width) (value : Int) : CodeUnit := UInt16.ofNat (value % (w.bound : Int)).toNat

theorem toNat_store (w : Width) (value : Int) :
    (w.store value).toNat = (value % (w.bound : Int)).toNat := by
  have h1 := Int.emod_lt_of_pos value (Int.natCast_pos.2 w.bound_pos)
  have h2 := w.bound_le
  simp only [store, UInt16.toNat_ofNat']
  exact Nat.mod_eq_of_lt (by omega)

theorem toNat_store_lt (w : Width) (value : Int) : (w.store value).toNat < w.bound := by
  have h0 := w.bound_pos
  have h1 := Int.emod_lt_of_pos value (Int.natCast_pos.2 h0)
  rw [toNat_store]
  omega

@[simp] theorem narrow_bound : narrow.bound = 256 := rfl

@[simp] theorem wide_bound : wide.bound = 65536 := rfl

theorem toNat_store_natCast {w : Width} {n : Nat} (h : n < w.bound) : (w.store n).toNat = n := by
  rw [toNat_store, Int.emod_eq_of_lt (by omega) (by omega), Int.toNat_natCast]

theorem store_toNat {w : Width} {unit : CodeUnit} (h : unit.toNat < w.bound) :
    w.store unit.toNat = unit :=
  UInt16.toNat_inj.1 (toNat_store_natCast h)

/-- What was stored is stored as it is. -/
theorem store_toNat_store (w : Width) (value : Int) :
    w.store (w.store value).toNat = w.store value :=
  store_toNat (w.toNat_store_lt value)

theorem natCast_toNat_store (w : Width) (value : Int) :
    ((w.store value).toNat : Int) = value % (w.bound : Int) := by
  have bound := w.bound_pos
  rw [toNat_store, Int.toNat_of_nonneg (Int.emod_nonneg value (by omega))]

theorem natCast_toNat_store_of_le {w : Width} {value : Int} (pos : 0 ≤ value)
    (le : value ≤ w.mask) : ((w.store value).toNat : Int) = value := by
  have bound := w.bound_pos
  rw [mask] at le
  rw [natCast_toNat_store, Int.emod_eq_of_lt pos (by omega)]

@[simp] theorem wide_store_toNat (unit : CodeUnit) : wide.store unit.toNat = unit :=
  store_toNat unit.toNat_lt

end Width

/-- Fits in narrow storage. -/
def fitsNarrow (unit : Int) : Bool := unit ≤ 0xFF

/-! ## Texts -/

/-- A code point, `0` to `10FFFF`; surrogates are code points like any other. -/
abbrev CodePoint := Fin 0x110000

abbrev Text := List CodePoint

namespace CodePoint

def isHigh (c : CodePoint) : Bool := 0xD800 ≤ c.val && c.val ≤ 0xDBFF

def isLow (c : CodePoint) : Bool := 0xDC00 ≤ c.val && c.val ≤ 0xDFFF

def isSurrogate (c : CodePoint) : Bool := 0xD800 ≤ c.val && c.val ≤ 0xDFFF

def ofUnit (unit : CodeUnit) : CodePoint :=
  ⟨unit.toNat, by have := unit.toNat_lt; omega⟩

def ofByte (b : UInt8) : CodePoint := ⟨b.toNat, by have := b.toNat_lt; omega⟩

def ofChar (c : Char) : CodePoint :=
  ⟨c.toNat, by
    have := c.valid
    simp only [UInt32.isValidChar, Nat.isValidChar, UInt32.toNat] at this
    simp only [Char.toNat, UInt32.toNat]
    omega⟩

/-- The supplementary code point whose halves are the given surrogates; each gives its low ten
bits. -/
def ofPair (high low : CodePoint) : CodePoint :=
  ⟨0x10000 + high.val % 1024 * 1024 + low.val % 1024, by omega⟩

/-- The two surrogates of a supplementary code point, by the same arithmetic for any integer. -/
def split (codePoint : Int) : Int × Int :=
  (0xD800 + (codePoint - 0x10000) / 1024, 0xDC00 + (codePoint - 0x10000) % 1024)

/-- The units of a code point: itself up to `FFFF`, and above its two surrogates. -/
def toUnits (c : CodePoint) : List CodeUnit :=
  if c.val ≤ 0xFFFF then [Width.wide.store c.val]
  else [Width.wide.store (split c.val).1, Width.wide.store (split c.val).2]

end CodePoint

namespace Text

def toUnits (text : Text) : List CodeUnit := text.flatMap CodePoint.toUnits

/-- Joins every high surrogate with a low surrogate that directly follows it, from left to right. -/
def joinSurrogates : Text → Text
  | [] => []
  | [c] => [c]
  | c :: d :: rest =>
    if c.isHigh && d.isLow then CodePoint.ofPair c d :: joinSurrogates rest
    else c :: joinSurrogates (d :: rest)

/-- The text of a list of units; a surrogate without a partner stands for itself. -/
def ofUnits (units : List CodeUnit) : Text := joinSurrogates (units.map CodePoint.ofUnit)

def ofString (word : String) : Text := word.toList.map CodePoint.ofChar

/-- The text whose characters are the given bytes. -/
def ofBytes (data : List UInt8) : Text := data.map CodePoint.ofByte

end Text

end ModifiedUtf8
